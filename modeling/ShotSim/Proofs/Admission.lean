import Mathlib.Data.List.Basic
import ShotSim.Plan
import ShotSim.Proofs.Prepare

/-!
# Admission — what has passed the checks

Before anything is computed, a configuration, a program and the sizes of a run are checked.  The
checks are written as a sequence of refusals; here each of them is turned into the facts that it
leaves for a run to rely on.

* `Config.Checked`, `checked_of_validate` — a configuration that is not refused;
* `Config.Passes`, `checkOps_eq_ok_iff` — when the operations of a program pass, exactly;
* `Op.Admitted`, `admitted_of_validateProgram` — the operations of a program that is not refused;
* `Plan.make_eq_ok` — the plan of a run, with all its shots spread over its batches.
-/

namespace ShotSim

/-- A guard that throws on `p` succeeds iff `p` fails and the rest succeeds. -/
theorem ite_error_eq_ok {ε α : Type} {p : Prop} [Decidable p] {e : ε} {x : Except ε α} {a : α} :
    (if p then .error e else x) = .ok a ↔ ¬p ∧ x = .ok a := by
  by_cases h : p <;> simp [h]

variable {R : Type} [Scalar R]

/-! ## Configurations -/

/-- Bounds established by validating a configuration. -/
structure Config.Checked (c : Config R) : Prop where
  qubits_pos : 0 < c.qubits
  qubits_le : c.qubits ≤ maxQubitCount
  shots_pos : 0 < c.shots
  threshold_nonneg : Scalar.le 0 c.threshold = true
  perWorkgroup_ge : minQubitsPerWorkgroup ≤ c.qubitsPerWorkgroup
  perWorkgroup_le : c.qubitsPerWorkgroup ≤ maxQubitsPerWorkgroup
  noise : ∀ m, c.noise = some m → m.validate = .ok ()

/-- Validation establishes `Config.Checked`. -/
theorem Config.checked_of_validate {c : Config R} (h : c.validate = .ok ()) : c.Checked := by
  simp only [validate, bind, Except.bind, pure, Except.pure, throw, throwThe, MonadExceptOf.throw,
    ite_error_eq_ok, Bool.or_eq_true, decide_eq_true_eq, not_or] at h
  obtain ⟨hqubits, hshots, hthreshold, _, hworkgroup, hmodels⟩ := h
  refine
    { qubits_pos := Nat.pos_of_ne_zero hqubits.1
      qubits_le := Nat.le_of_not_lt hqubits.2
      shots_pos := Nat.pos_of_ne_zero hshots
      threshold_nonneg := by simp_all
      perWorkgroup_ge := Nat.le_of_not_lt hworkgroup.1
      perWorkgroup_le := Nat.le_of_not_lt hworkgroup.2
      noise := ?_ }
  intro m hm
  rw [hm] at hmodels
  cases hvalidate : m.validate with
  | ok => rfl
  | error e =>
      dsimp only at hmodels
      rw [hvalidate] at hmodels
      cases hmodels

theorem NoiseSite.mem_all (site : NoiseSite) : site ∈ all := by
  cases site <;> decide

/-- `forM` of checks succeeds iff every check does. -/
theorem forM_eq_ok {ε α : Type} {check : α → Except ε PUnit} {xs : List α}
    (h : xs.forM check = .ok ()) : ∀ x ∈ xs, check x = .ok () := by
  induction xs with
  | nil => simp
  | cons x rest ih =>
      simp only [List.forM, bind, Except.bind] at h
      cases hx : check x with
      | error e =>
          rw [hx] at h
          cases h
      | ok u =>
          rw [hx] at h
          intro y hy
          rcases List.mem_cons.1 hy with rfl | hrest
          · exact hx
          · exact ih h y hrest

/-- A checked noise model has tables for as many qubits as the operations have. -/
theorem NoiseModel.qubits_of_validate {m : NoiseModel R} (h : m.validate = .ok ())
    (site : NoiseSite) : (m.table site).qubits = site.qubits := by
  have hsite : m.validateSite site = .ok () := forM_eq_ok h site site.mem_all
  simp only [validateSite, ite_error_eq_ok, ne_eq, not_not] at hsite
  exact hsite.1

/-- Every table of a validated noise model is itself valid. -/
theorem NoiseModel.table_of_validate {m : NoiseModel R} (h : m.validate = .ok ())
    (site : NoiseSite) : (m.table site).validate = .ok () := by
  have hsite : m.validateSite site = .ok () := forM_eq_ok h site site.mem_all
  simp only [validateSite, ite_error_eq_ok] at hsite
  cases htable : (m.table site).validate with
  | ok u => rfl
  | error e =>
      rw [htable] at hsite
      cases hsite.2

section Sizes

variable {R : Type}

/-! ## Programs -/

/-- An operation that no shot rejects for its qubits: an unknown one, a restart, or one on distinct
qubits of the circuit. -/
def Op.Admitted (op : Op R) (qubitCount : Nat) : Prop :=
  op.code.isKnown = false ∨ op.isResetAll = true ∨ validQubits qubitCount op.qubits = true

namespace Config

/-- Accepted qubits are distinct and in range. -/
theorem nodup_of_checkQubits {c : Config R} {index : Nat} {qs before : List Nat}
    (h : c.checkQubits index qs before = .ok ()) (hbefore : before.Nodup) :
    (before ++ qs).Nodup ∧ ∀ q ∈ qs, q < c.qubits := by
  induction qs generalizing before with
  | nil => simpa using hbefore
  | cons q rest ih =>
      simp only [checkQubits, bind, Except.bind, throw, throwThe, MonadExceptOf.throw,
        ite_error_eq_ok] at h
      obtain ⟨hrange, hnew, hrest⟩ := h
      have hfresh : q ∉ before := by simpa using hnew
      have hnodup : (before ++ [q]).Nodup := by
        rw [← List.concat_eq_append]
        exact List.Nodup.concat hfresh hbefore
      have hboth := ih hrest hnodup
      refine ⟨by simpa using hboth.1, ?_⟩
      intro p hp
      rcases List.mem_cons.1 hp with rfl | hmem
      · exact Nat.lt_of_not_le hrange
      · exact hboth.2 p hmem

/-- `checkOp` accepts only admitted operations. -/
theorem admitted_of_checkOp {c : Config R} {index : Nat} {op : Op R}
    (h : c.checkOp index op = .ok ()) : op.Admitted c.qubits := by
  simp only [checkOp, bind, Except.bind, pure, Except.pure, throw, throwThe,
    MonadExceptOf.throw] at h
  by_cases hskip : (!op.code.isKnown || op.isResetAll) = true
  · rcases Bool.or_eq_true _ _ ▸ hskip with hknown | hreset
    · exact Or.inl (by simpa using hknown)
    · exact Or.inr (Or.inl hreset)
  · rw [if_neg hskip] at h
    cases hqubits : c.checkQubits index op.qubits [] with
    | error e =>
        rw [hqubits] at h
        cases h
    | ok u =>
        have hvalid := nodup_of_checkQubits hqubits List.nodup_nil
        exact Or.inr (Or.inr (validQubits_iff.2 ⟨by simpa using hvalid.1, hvalid.2⟩))

/-- Distinct qubits in range are accepted. -/
theorem checkQubits_of_nodup {c : Config R} {index : Nat} {qs before : List Nat}
    (hnodup : (before ++ qs).Nodup) (hrange : ∀ q ∈ qs, q < c.qubits) :
    c.checkQubits index qs before = .ok () := by
  induction qs generalizing before with
  | nil => rfl
  | cons q rest ih =>
      have hnew : q ∉ before := fun hq =>
        (List.nodup_append.1 hnodup).2.2 q hq q List.mem_cons_self rfl
      simp only [checkQubits, bind, Except.bind, throw, throwThe, MonadExceptOf.throw,
        ite_error_eq_ok]
      refine ⟨Nat.not_le.2 (hrange q List.mem_cons_self), by simpa using hnew, ih ?_ ?_⟩
      · rwa [List.append_assoc]
      · exact fun p hp => hrange p (List.mem_cons_of_mem _ hp)

/-- An operation that validation accepts: admitted, and its result slot exists. -/
structure Passes (c : Config R) (op : Op R) : Prop where
  admitted : op.Admitted c.qubits
  slot : op.code.isMeasurement = true → op.q2 < c.resultCount

/-- `checkOp` succeeds exactly on the operations satisfying `Passes`. -/
theorem checkOp_eq_ok_iff {c : Config R} {index : Nat} {op : Op R} :
    c.checkOp index op = .ok () ↔ c.Passes op := by
  constructor
  · intro h
    refine ⟨admitted_of_checkOp h, fun hmeasures => ?_⟩
    -- A measurement is a known operation and no restart, so its operands are checked.
    have hknown : (!op.code.isKnown || op.isResetAll) = false := by
      unfold Op.isResetAll
      revert hmeasures
      cases op.code <;> simp [Opcode.isMeasurement, Opcode.isKnown]
    simp only [checkOp, hknown, bind, Except.bind, pure, Except.pure, throw, throwThe,
      MonadExceptOf.throw, Bool.false_eq_true, if_false] at h
    cases hqubits : c.checkQubits index op.qubits [] with
    | error e =>
        rw [hqubits] at h
        cases h
    | ok u =>
        simp only [hqubits, ite_error_eq_ok, hmeasures, Bool.true_and, decide_eq_true_eq] at h
        exact Nat.lt_of_not_le h.1
  · rintro ⟨hadmitted, hslot⟩
    simp only [checkOp, bind, Except.bind, pure, Except.pure, throw, throwThe, MonadExceptOf.throw]
    by_cases hskip : (!op.code.isKnown || op.isResetAll) = true
    · rw [if_pos hskip]
    · rw [if_neg hskip]
      -- The first two ways of being admitted are those that skip the check.
      have hvalid : validQubits c.qubits op.qubits = true := by
        rcases hadmitted with hknown | hreset | hvalid
        · simp [hknown] at hskip
        · simp [hreset] at hskip
        · exact hvalid
      obtain ⟨hnodup, hrange⟩ := validQubits_iff.1 hvalid
      have hroom : ¬(op.code.isMeasurement && decide (c.resultCount ≤ op.q2)) = true := by
        intro hboth
        obtain ⟨hmeasures, hover⟩ := Bool.and_eq_true_iff.1 hboth
        exact Nat.not_le.2 (hslot hmeasures) (of_decide_eq_true hover)
      rw [checkQubits_of_nodup (by simpa using hnodup) hrange]
      exact if_neg hroom

/-- `checkOps` succeeds iff every operation passes, whatever the starting index. -/
theorem checkOps_eq_ok_iff {c : Config R} {program : List (Op R)} {start : Nat} :
    c.checkOps program start = .ok () ↔ ∀ op ∈ program, c.Passes op := by
  induction program generalizing start with
  | nil => simp [checkOps, pure, Except.pure]
  | cons op rest ih =>
      rw [List.forall_mem_cons, ← @checkOp_eq_ok_iff _ c start op, ← @ih (start + 1)]
      simp only [checkOps, bind, Except.bind]
      cases c.checkOp start op with
      | error e => simp
      | ok u => simp

theorem admitted_of_checkOps {c : Config R} {program : List (Op R)} {start : Nat}
    (h : c.checkOps program start = .ok ()) : ∀ op ∈ program, op.Admitted c.qubits :=
  fun op hop => (checkOps_eq_ok_iff.1 h op hop).admitted

theorem admitted_of_validateProgram {c : Config R} {program : List (Op R)}
    (h : c.validateProgram program = .ok ()) : ∀ op ∈ program, op.Admitted c.qubits := by
  simp only [validateProgram, bind, Except.bind, throw, throwThe, MonadExceptOf.throw,
    ite_error_eq_ok] at h
  exact admitted_of_checkOps h.2

end Config

/-! ## Plans -/

namespace Plan

/-- The fields of an accepted plan; its batch size is positive. -/
theorem make_eq_ok {c : Config R} {ops : Nat} {plan : Plan} (h : make c ops = .ok plan) :
    plan.circuitQubits = c.qubits ∧ plan.layout = .ofCircuit c.qubits c.qubitsPerWorkgroup ∧
      plan.resultCount = c.resultCount ∧ plan.resultsPerShot = c.resultsPerShot ∧
      plan.shots = c.shots ∧ plan.ops = ops ∧ ops ≤ maxOps ∧ 0 < plan.shotsPerBatch ∧
      plan.batches = (plan.shots + plan.shotsPerBatch - 1) / plan.shotsPerBatch := by
  simp only [make, bind, Except.bind, pure, Except.pure, throw, throwThe, MonadExceptOf.throw,
    ite_error_eq_ok, Except.ok.injEq] at h
  obtain ⟨_, _, _, hops, rfl⟩ := h
  exact ⟨rfl, rfl, rfl, rfl, rfl, rfl, Nat.le_of_not_lt hops, Nat.le_max_left _ _, rfl⟩

/-- Batches with enough room add up to the remaining shots. -/
theorem sum_batchesFrom (p : Plan) (count index remaining : Nat)
    (h : remaining ≤ count * p.shotsPerBatch) :
    ((p.batchesFrom count index remaining).map (·.2)).sum = remaining := by
  induction count generalizing index remaining with
  | zero =>
      have hzero : remaining = 0 := by omega
      simp [batchesFrom, hzero]
  | succ count ih =>
      rw [Nat.succ_mul] at h
      have hrest : remaining - min remaining p.shotsPerBatch ≤ count * p.shotsPerBatch := by omega
      simp only [batchesFrom, List.map_cons, List.sum_cons, ih (index + 1) _ hrest]
      omega

/-- No batch exceeds `shotsPerBatch`. -/
theorem le_of_mem_batchesFrom {p : Plan} {count index remaining : Nat} {range : Nat × Nat}
    (h : range ∈ p.batchesFrom count index remaining) : range.2 ≤ p.shotsPerBatch := by
  induction count generalizing index remaining with
  | zero => cases h
  | succ count ih =>
      rcases List.mem_cons.1 h with rfl | hrest
      · exact Nat.min_le_right _ _
      · exact ih hrest

/-- The batches of a plan have room for all its shots. -/
theorem shots_le {p : Plan} (hpos : 0 < p.shotsPerBatch)
    (h : p.batches = (p.shots + p.shotsPerBatch - 1) / p.shotsPerBatch) :
    p.shots ≤ p.batches * p.shotsPerBatch := by
  rw [h]
  have hdiv := Nat.div_add_mod' (p.shots + p.shotsPerBatch - 1) p.shotsPerBatch
  have hmod := Nat.mod_lt (p.shots + p.shotsPerBatch - 1) hpos
  omega

/-- The batch sizes of a plan sum to the number of shots. -/
theorem sum_batchRanges {p : Plan} (hpos : 0 < p.shotsPerBatch)
    (h : p.batches = (p.shots + p.shotsPerBatch - 1) / p.shotsPerBatch) :
    (p.batchRanges.map (·.2)).sum = p.shots :=
  sum_batchesFrom p _ _ _ (shots_le hpos h)

end Plan

end Sizes

end ShotSim
