import Mathlib.Data.List.Basic
import Mathlib.Data.List.Nodup
import ShotSim.Lane
import ShotSim.Proofs.Partition

/-!
# Prepare — what a step decides

Deciding on a step changes many fields of a control block.  Three facts about it carry the rest of
the development: which amplitudes the decided step will act on, what it means for the verdict on the
shot, and what kind of step it is.

* `Job.current` — the operation that a decided step belongs to;
* `Shot.Placed` — the decided step acts on distinct qubits that the layout has room for;
* `Register.select_cases` — the ways in which an operation can be selected;
* `placed_prepare` — whatever the shot was like before, the decided step is so placed;
* `verdictAfter`, `verdict_prepare` — the verdict on the shot depends on the operations alone;
* `Opcode.Selectable`, `selectable_prepare` — what a step can turn out to be.
-/

namespace ShotSim

variable {R : Type} [Scalar R]

/-- The operation of the prepared step of a shot. -/
def Job.current (job : Job R) (shot : Shot R) : Op R := job.ops[shot.opIdx]?.getD default

theorem nodup_of_validQubits {n : Nat} {qs : List Nat} (h : validQubits n qs = true) :
    qs.Nodup := by
  induction qs with
  | nil => exact List.nodup_nil
  | cons q rest ih =>
      simp only [validQubits, Bool.and_eq_true, Bool.not_eq_true', List.contains_eq_mem,
        decide_eq_false_iff_not] at h
      exact List.nodup_cons.2 ⟨h.1.2, ih h.2⟩

theorem lt_of_validQubits {n : Nat} {qs : List Nat} (h : validQubits n qs = true) :
    ∀ q ∈ qs, q < n := by
  induction qs with
  | nil => simp
  | cons q rest ih =>
      simp only [validQubits, Bool.and_eq_true, decide_eq_true_eq] at h
      intro p hp
      rcases List.mem_cons.1 hp with rfl | hrest
      · exact h.1.1
      · exact ih h.2 p hrest

/-- `validQubits` accepts distinct qubits in range. -/
theorem validQubits_iff {n : Nat} {qs : List Nat} :
    validQubits n qs = true ↔ qs.Nodup ∧ ∀ q ∈ qs, q < n := by
  refine ⟨fun h => ⟨nodup_of_validQubits h, lt_of_validQubits h⟩, ?_⟩
  rintro ⟨hnodup, hlt⟩
  induction qs with
  | nil => rfl
  | cons q rest ih =>
      have hcons := List.nodup_cons.1 hnodup
      have hrest := ih hcons.2 (fun p hp => hlt p (List.mem_cons_of_mem _ hp))
      simp [validQubits, hcons.1, hlt q List.mem_cons_self, hrest]

/-! ## The qubits of a decided step -/

/-- The operands of the prepared step are distinct and below `qubitCount`. -/
structure Shot.Placed (shot : Shot R) (op : Op R) (qubitCount : Nat) : Prop where
  nodup : (shot.mode.operands op).Nodup
  lt : ∀ q ∈ shot.mode.operands op, q < qubitCount

omit [Scalar R] in
/-- A step without operands is placed. -/
theorem Shot.Placed.of_operands_nil {shot : Shot R} {op : Op R} {qubitCount : Nat}
    (h : shot.mode.operands op = []) : shot.Placed op qubitCount :=
  ⟨by rw [h]; exact List.nodup_nil, by rw [h]; simp⟩

namespace Mode

theorem arity_ofArity_le (k : Nat) : (ofArity k).arity ≤ k := by
  unfold ofArity
  split <;> simp [arity]

omit [Scalar R] in
/-- The operands of a mode are the first ones of the operation. -/
theorem isPrefix_operands {mode : Mode} {op : Op R} (h : mode.arity ≤ op.code.arity) :
    mode.operands op <+: op.qubits :=
  List.take_prefix_take_left h

end Mode

namespace Shot

omit [Scalar R] in
theorem mode_of_id {s : Shot R} (h : s.selected = .id) : s.mode = .scaleOnly := by
  rw [mode, h]

omit [Scalar R] in
/-- An injected matrix of arity `k` has the mode of arity `k`. -/
theorem mode_inject (s : Shot R) (k : Nat) (entries : List (Cplx R)) :
    (s.inject k entries).mode = .ofArity k := rfl

omit [Scalar R] in
theorem arity_mode_inject_le (s : Shot R) (k : Nat) (entries : List (Cplx R)) :
    (s.inject k entries).mode.arity ≤ k := by
  rw [mode_inject]
  exact Mode.arity_ofArity_le k

theorem mode_charge (s : Shot R) (busy : Nat) (duration : R) (n : Nat) :
    (s.charge busy duration n).mode = s.mode := by
  unfold charge
  split <;> rfl

/-- `accrue` keeps the mode. -/
theorem mode_accrue (s : Shot R) (op : Op R) (params : IdleParams R) (n : Nat) :
    (s.accrue op params n).mode = s.mode := by
  unfold accrue
  split
  · split <;> rfl
  · split
    · exact mode_charge s _ _ n
    · rfl
  · dsimp only
    split
    · rfl
    · exact mode_charge s _ _ n

/-- Injected decay does not exceed the arity of the operation. -/
theorem arity_mode_injectDecay_le (s : Shot R) (params : IdleParams R) {op : Op R}
    (hdecay : op.code.takesDecay = true) (h : s.mode.arity ≤ op.code.arity) :
    (s.injectDecay params op).mode.arity ≤ op.code.arity := by
  have hone : op.code.arity = 1 := by
    revert hdecay
    cases op.code <;> simp [Opcode.takesDecay, Opcode.arity]
  unfold injectDecay
  dsimp only
  split
  · rw [hone]
    exact Nat.le_refl 1
  · exact h

/-- Single-qubit Pauli noise has arity at most 1. -/
theorem arity_mode_applyPauli1_le (s : Shot R) (op : Op R) (h : s.mode.arity ≤ 1) :
    (s.applyPauli1 op).mode.arity ≤ 1 := by
  unfold applyPauli1
  dsimp only
  split
  · exact h
  · exact arity_mode_inject_le s 1 _

/-- Two-qubit Pauli noise has arity at most 2. -/
theorem arity_mode_applyPauli2_le (s : Shot R) (op : Op R) (h : s.mode.arity ≤ 2) :
    (s.applyPauli2 op).mode.arity ≤ 2 := by
  unfold applyPauli2
  dsimp only
  split
  · exact h
  · exact arity_mode_inject_le s 2 _

/-- Loss has arity at most 1. -/
theorem arity_mode_applyLoss_le (s : Shot R) (op : Op R) (h : s.mode.arity ≤ 1) :
    (s.applyLoss op).mode.arity ≤ 1 := by
  unfold applyLoss
  split
  · exact arity_mode_inject_le _ 1 _
  · exact h

end Shot

namespace Register

/-- The control block after a measurement, whether the qubit is lost or not. -/
theorem shot_measure (r : Register R) (job : Job R) (op : Op R) (lost : Bool) :
    (r.measure job op lost).shot =
      if lost then r.shot else r.shot.collapse op.q1 (op.code != .mz) := by
  unfold measure setSlot
  dsimp only
  split
  · rfl
  · split <;> rfl

/-- A measurement has arity at most 1. -/
theorem arity_mode_measure_le (r : Register R) (job : Job R) (op : Op R) (lost : Bool)
    (h : r.shot.mode.arity ≤ 1) : (r.measure job op lost).shot.mode.arity ≤ 1 := by
  rw [shot_measure]
  split
  · exact h
  · exact Shot.arity_mode_inject_le _ 1 _

/-- `select` keeps the register, selects the operation as it is, measures, or picks a branch of the
noise. -/
theorem select_cases {P : Register R → Prop} (r : Register R) (job : Job R) (op : Op R)
    (lost : Bool) (keep : P r)
    (direct : op.code.isNoise = false → P { r with shot := { r.shot with selected := op.code } })
    (measure : op.code = .mz ∨ op.code = .mResetZ ∨ op.code = .reset → P (r.measure job op lost))
    (pauli1 : op.code = .pauli1 → P { r with shot := r.shot.applyPauli1 op })
    (pauli2 : op.code = .pauli2 → P { r with shot := r.shot.applyPauli2 op })
    (loss : op.code = .loss → lost = false → P { r with shot := r.shot.applyLoss op }) :
    P (r.select job op lost) := by
  unfold select
  split
  case h_1 | h_2 | h_3 | h_4 => exact keep
  case h_5 hcode =>
    rw [← hcode]
    exact direct (by rw [hcode]; rfl)
  case h_6 hcode => exact measure (.inl hcode)
  case h_7 hcode => exact measure (.inr (.inl hcode))
  case h_8 hcode => exact measure (.inr (.inr hcode))
  -- Everything else leaves a lost qubit alone.
  all_goals cases lost with
    | true => exact keep
    | false => ?_
  case h_9.false hcode => exact pauli1 hcode
  case h_10.false hcode => exact pauli2 hcode
  case h_11.false hcode => exact loss hcode rfl
  case h_12.false =>
    refine direct ?_
    cases hcode : op.code <;> simp_all [Opcode.isNoise]

/-- The selected mode has at most the arity of the operation. -/
theorem arity_mode_select_le (r : Register R) (job : Job R) (op : Op R) (lost : Bool)
    (hid : r.shot.selected = .id) (hop : op.code ≠ .injected) :
    (r.select job op lost).shot.mode.arity ≤ op.code.arity := by
  have hnone : r.shot.mode.arity = 0 := by
    rw [Shot.mode_of_id hid]
    rfl
  have hkeep : ∀ k, r.shot.mode.arity ≤ k := by
    intro k
    rw [hnone]
    exact Nat.zero_le k
  refine select_cases (P := fun r' => r'.shot.mode.arity ≤ op.code.arity) r job op lost
    (hkeep _) ?direct ?measure ?pauli1 ?pauli2 ?loss
  case direct =>
    intro _
    unfold Shot.mode
    dsimp only
    split
    case h_3 hcode => exact absurd hcode hop
    case h_5 => exact Mode.arity_ofArity_le _
    all_goals exact Nat.zero_le _
  case measure =>
    rintro (hcode | hcode | hcode) <;> rw [hcode] <;>
      exact arity_mode_measure_le r job op lost (hkeep 1)
  case pauli1 =>
    intro hcode
    rw [hcode]
    exact Shot.arity_mode_applyPauli1_le r.shot op (hkeep 1)
  case pauli2 =>
    intro hcode
    rw [hcode]
    exact Shot.arity_mode_applyPauli2_le r.shot op (hkeep 2)
  case loss =>
    intro hcode _
    rw [hcode]
    exact Shot.arity_mode_applyLoss_le r.shot op (hkeep 1)

/-- A resolved operation has no operands, or valid ones and at most its arity. -/
theorem arity_mode_resolve_le (r : Register R) (job : Job R) (op : Op R) (opIdx : Nat)
    (hid : r.shot.selected = .id) :
    (r.resolve job op opIdx).shot.mode.operands op = [] ∨
      validQubits job.batch.qubits op.qubits = true ∧
        (r.resolve job op opIdx).shot.mode.arity ≤ op.code.arity := by
  unfold resolve
  split
  · exact Or.inl rfl
  · rename_i hknown
    split
    · exact Or.inl rfl
    · rename_i hvalid
      have hop : op.code ≠ .injected := by
        intro h
        simp [h] at hknown
      have hselect := arity_mode_select_le r job op (op.qubits.any r.shot.isLost) hid hop
      refine Or.inr ⟨by simpa using hvalid, ?_⟩
      dsimp only
      rw [Shot.mode_accrue]
      split
      · rename_i hdecay
        exact Shot.arity_mode_injectDecay_le _ job.idle (by simp_all) hselect
      · exact hselect

end Register

namespace Lane

/-- The control block before resolving an operation: draws and collation taken, nothing selected. -/
def ready (lane : Lane R) (job : Job R) : Shot R :=
  { lane.shot.draw.takeCollation lane.sums job.batch.qubits with
    selected := .id, injectedArity := 0 }

theorem id_ready (lane : Lane R) (job : Job R) : (lane.ready job).id = lane.shot.id := by
  unfold ready Shot.takeCollation
  dsimp only
  split <;> rfl

theorem lost_ready (lane : Lane R) (job : Job R) : (lane.ready job).lost = lane.shot.lost := by
  unfold ready Shot.takeCollation
  dsimp only
  split <;> rfl

theorem status_ready (lane : Lane R) (job : Job R) :
    (lane.ready job).status = lane.shot.status := by
  unfold ready Shot.takeCollation
  dsimp only
  split <;> rfl

/-- The rescale factor of `ready` is that of the collected norm. -/
theorem renormalize_ready (lane : Lane R) (job : Job R) :
    (lane.ready job).renormalize = renormalizer (Scalar.sum (lane.sums.toList.map (·.total))) := by
  unfold ready Shot.takeCollation
  dsimp only
  split <;> rfl

/-- `advance` of a successful shot resolves the operation. -/
theorem advance_of_ok {lane : Lane R} {job : Job R} (h : (lane.ready job).status = .ok) (op : Op R)
    (opIdx : Nat) :
    lane.advance job op opIdx =
      { lane with
        shot := (Register.resolve ⟨lane.ready job, lane.slots⟩ job op opIdx).shot
        slots := (Register.resolve ⟨lane.ready job, lane.slots⟩ job op opIdx).slots } :=
  if_pos h

/-- `advance` of a failed shot rescales only. -/
theorem advance_of_failed {lane : Lane R} {job : Job R} (h : (lane.ready job).status ≠ .ok)
    (op : Op R) (opIdx : Nat) : lane.advance job op opIdx = { lane with shot := lane.ready job } :=
  if_neg h

/-- Every prepared step acts on distinct qubits of the circuit. -/
theorem placed_prepare (lane : Lane R) (job : Job R) (shotIdx : Nat) {qubitCount : Nat}
    (hroom : job.batch.qubits ≤ qubitCount) :
    (lane.prepare job shotIdx).shot.Placed (job.current (lane.prepare job shotIdx).shot)
      qubitCount := by
  unfold prepare
  dsimp only
  split
  · exact Shot.Placed.of_operands_nil rfl
  · rename_i op hop
    split
    · -- A restart sets every amplitude anew.
      exact Shot.Placed.of_operands_nil rfl
    · have hcurrent : job.current { (lane.advance job op lane.shot.nextOp).shot with
          collect := if job.readsProbabilities (lane.shot.nextOp + 1) then 1 else 0
          opIdx := lane.shot.nextOp
          nextOp := lane.shot.nextOp + 1 } = op := by
        simp [Job.current, hop]
      rw [hcurrent]
      unfold advance
      dsimp only
      split
      · -- The operation is resolved.
        rcases Register.arity_mode_resolve_le ⟨{ (lane.shot.draw.takeCollation lane.sums
            job.batch.qubits) with selected := .id, injectedArity := 0 }, lane.slots⟩ job op
            lane.shot.nextOp rfl with hempty | ⟨hvalid, hle⟩
        · exact Shot.Placed.of_operands_nil hempty
        · have hinitial := Mode.isPrefix_operands hle
          refine ⟨(nodup_of_validQubits hvalid).sublist hinitial.sublist, ?_⟩
          intro q hq
          exact Nat.lt_of_lt_of_le (lt_of_validQubits hvalid q (hinitial.subset hq)) hroom
      · exact Shot.Placed.of_operands_nil rfl

end Lane

/-! ## The verdict on a shot -/

/-- The status of a shot and the operation it names. -/
def Shot.verdict (s : Shot R) : StatusCode × Nat := (s.status, s.statusOp)

/-- The verdict after operation `opIdx`. A restart clears it; otherwise the first failure is
kept. -/
def verdictAfter (qubitCount : Nat) (verdict : StatusCode × Nat) (op : Op R) (opIdx : Nat) :
    StatusCode × Nat :=
  if op.isResetAll then (.ok, 0)
  else if verdict.1 ≠ .ok then verdict
  else if !op.code.isKnown || op.code = .injected then (.unsupportedOp, opIdx)
  else if !validQubits qubitCount op.qubits then (.invalidQubit, opIdx)
  else verdict

section VerdictAfter

variable {R : Type} {op : Op R} (n : Nat)

/-- A restart clears the verdict. -/
theorem verdictAfter_resetAll (v : StatusCode × Nat) (h : op.isResetAll = true) (opIdx : Nat) :
    verdictAfter n v op opIdx = (.ok, 0) := by
  simp [verdictAfter, h]

/-- A failed verdict is kept. -/
theorem verdictAfter_of_failed (h : op.isResetAll = false) {v : StatusCode × Nat} (hv : v.1 ≠ .ok)
    (opIdx : Nat) : verdictAfter n v op opIdx = v := by
  simp [verdictAfter, h, hv]

/-- The verdict on an operation of a successful shot. -/
theorem verdictAfter_of_ok (h : op.isResetAll = false) {v : StatusCode × Nat} (hv : v.1 = .ok)
    (opIdx : Nat) :
    verdictAfter n v op opIdx =
      if !op.code.isKnown || op.code = .injected then (.unsupportedOp, opIdx)
      else if !validQubits n op.qubits then (.invalidQubit, opIdx)
      else v := by
  simp [verdictAfter, h, hv]

end VerdictAfter

namespace Shot

@[simp] theorem verdict_takeCollation (s : Shot R) (sums : Array (Sums R)) (n : Nat) :
    (s.takeCollation sums n).verdict = s.verdict := by
  unfold takeCollation
  dsimp only
  split <;> rfl

@[simp] theorem verdict_charge (s : Shot R) (busy : Nat) (duration : R) (n : Nat) :
    (s.charge busy duration n).verdict = s.verdict := by
  unfold charge
  split <;> rfl

@[simp] theorem verdict_accrue (s : Shot R) (op : Op R) (params : IdleParams R) (n : Nat) :
    (s.accrue op params n).verdict = s.verdict := by
  unfold accrue
  split
  · split <;> rfl
  · split
    · exact verdict_charge s _ _ n
    · rfl
  · dsimp only
    split
    · rfl
    · exact verdict_charge s _ _ n

@[simp] theorem verdict_injectDecay (s : Shot R) (params : IdleParams R) (op : Op R) :
    (s.injectDecay params op).verdict = s.verdict := by
  unfold injectDecay
  dsimp only
  split <;> rfl

@[simp] theorem verdict_applyPauli1 (s : Shot R) (op : Op R) :
    (s.applyPauli1 op).verdict = s.verdict := by
  unfold applyPauli1
  dsimp only
  split <;> rfl

@[simp] theorem verdict_applyPauli2 (s : Shot R) (op : Op R) :
    (s.applyPauli2 op).verdict = s.verdict := by
  unfold applyPauli2
  dsimp only
  split <;> rfl

@[simp] theorem verdict_applyLoss (s : Shot R) (op : Op R) :
    (s.applyLoss op).verdict = s.verdict := by
  unfold applyLoss
  split <;> rfl

end Shot

namespace Register

@[simp] theorem verdict_measure (r : Register R) (job : Job R) (op : Op R) (lost : Bool) :
    (r.measure job op lost).shot.verdict = r.shot.verdict := by
  unfold measure setSlot
  dsimp only
  split <;> [skip; split] <;> cases lost <;> rfl

@[simp] theorem verdict_select (r : Register R) (job : Job R) (op : Op R) (lost : Bool) :
    (r.select job op lost).shot.verdict = r.shot.verdict := by
  exact select_cases (P := fun r' => r'.shot.verdict = r.shot.verdict) r job op lost rfl
    (fun _ => rfl) (fun _ => r.verdict_measure job op lost)
    (fun _ => r.shot.verdict_applyPauli1 op) (fun _ => r.shot.verdict_applyPauli2 op)
    (fun _ _ => r.shot.verdict_applyLoss op)

/-- `resolve` updates the verdict by `verdictAfter`. -/
theorem verdict_resolve (r : Register R) (job : Job R) {op : Op R} (opIdx : Nat)
    (hstart : op.isResetAll = false) (hok : r.shot.status = .ok) :
    (r.resolve job op opIdx).shot.verdict =
      verdictAfter job.batch.qubits r.shot.verdict op opIdx := by
  have hverdict : r.shot.verdict.1 = .ok := hok
  rw [verdictAfter_of_ok job.batch.qubits hstart hverdict]
  unfold resolve
  split
  · rfl
  · split
    · rfl
    · dsimp only
      rw [Shot.verdict_accrue]
      split
      · rw [Shot.verdict_injectDecay, verdict_select]
      · rw [verdict_select]

end Register

namespace Lane

/-- `prepare` moves on to the next operation. -/
theorem nextOp_prepare {lane : Lane R} {job : Job R} (shotIdx : Nat) {op : Op R}
    (h : job.ops[lane.shot.nextOp]? = some op) :
    (lane.prepare job shotIdx).shot.nextOp = lane.shot.nextOp + 1 := by
  rw [prepare, h]

/-- `prepare` updates the verdict by `verdictAfter`, independently of amplitudes, draws and
outcomes. -/
theorem verdict_prepare {lane : Lane R} {job : Job R} (shotIdx : Nat) {op : Op R}
    (h : job.ops[lane.shot.nextOp]? = some op) :
    (lane.prepare job shotIdx).shot.verdict =
      verdictAfter job.batch.qubits lane.shot.verdict op lane.shot.nextOp := by
  rw [prepare, h]
  dsimp only
  cases hstart : op.isResetAll with
  | true =>
      rw [if_pos rfl, verdictAfter_resetAll _ _ hstart]
      rfl
  | false =>
      rw [if_neg Bool.false_ne_true]
      change (lane.advance job op lane.shot.nextOp).shot.verdict = _
      unfold advance
      dsimp only
      have hkeep : ({ lane.shot.draw.takeCollation lane.sums job.batch.qubits with
          selected := .id, injectedArity := 0 } : Shot R).verdict = lane.shot.verdict :=
        Shot.verdict_takeCollation lane.shot.draw lane.sums job.batch.qubits
      split
      · rename_i hok
        rw [Register.verdict_resolve _ job lane.shot.nextOp hstart hok, hkeep]
      · -- A shot that has failed before keeps its verdict.
        rename_i hfailed
        have hstatus : lane.shot.verdict.1 ≠ .ok := by
          rw [← hkeep]
          exact hfailed
        rw [hkeep, verdictAfter_of_failed job.batch.qubits hstart hstatus]

end Lane

/-! ## The kind of a decided step -/

/-- The codes a step may select for an operation: identity, an injected operator, or the operation
itself unless it is noise. -/
def Opcode.Selectable (code selected : Opcode) : Prop :=
  selected = .id ∨ selected = .injected ∨ selected = code ∧ code.isNoise = false

theorem Shot.selected_accrue (s : Shot R) (op : Op R) (params : IdleParams R) (n : Nat) :
    (s.accrue op params n).selected = s.selected := by
  have hcharge : ∀ busy duration, (s.charge busy duration n).selected = s.selected := by
    intro busy duration
    unfold charge
    split <;> rfl
  unfold accrue
  split
  · split <;> rfl
  · split
    · exact hcharge _ _
    · rfl
  · dsimp only
    split
    · rfl
    · exact hcharge _ _

/-- `select` selects a code that is selectable for the operation. -/
theorem Register.selectable_select {r : Register R} (hid : r.shot.selected = .id) (job : Job R)
    (op : Op R) (lost : Bool) : op.code.Selectable (r.select job op lost).shot.selected := by
  refine select_cases (P := fun r' => op.code.Selectable r'.shot.selected) r job op lost
    (Or.inl hid) ?direct ?measure ?pauli1 ?pauli2 ?loss
  case direct => exact fun hnoise => Or.inr (Or.inr ⟨rfl, hnoise⟩)
  case measure =>
    intro _
    rw [shot_measure]
    split
    · exact Or.inl hid
    · exact Or.inr (Or.inl rfl)
  case pauli1 =>
    intro _
    unfold Shot.applyPauli1
    dsimp only
    split
    · exact Or.inl hid
    · exact Or.inr (Or.inl rfl)
  case pauli2 =>
    intro _
    unfold Shot.applyPauli2
    dsimp only
    split
    · exact Or.inl hid
    · exact Or.inr (Or.inl rfl)
  case loss =>
    intro _ _
    unfold Shot.applyLoss
    split
    · exact Or.inr (Or.inl rfl)
    · exact Or.inl hid

/-- `resolve` selects a code that is selectable for the operation. -/
theorem Register.selectable_resolve {r : Register R} (hid : r.shot.selected = .id) (job : Job R)
    (op : Op R) (opIdx : Nat) : op.code.Selectable (r.resolve job op opIdx).shot.selected := by
  unfold resolve
  split
  · exact Or.inl rfl
  · split
    · exact Or.inl rfl
    · dsimp only
      rw [Shot.selected_accrue]
      split
      · unfold Shot.injectDecay
        dsimp only
        split
        · exact Or.inr (Or.inl rfl)
        · exact selectable_select hid job op _
      · exact selectable_select hid job op _

/-- `prepare` selects a code that is selectable for its operation. -/
theorem Lane.selectable_prepare {lane : Lane R} {job : Job R} {op : Op R}
    (hop : job.ops[lane.shot.nextOp]? = some op) (hreset : op.isResetAll = false) (shotIdx : Nat) :
    op.code.Selectable (lane.prepare job shotIdx).shot.selected := by
  rw [prepare, hop]
  dsimp only
  rw [hreset, if_neg Bool.false_ne_true]
  by_cases hok : (lane.ready job).status = .ok
  · rw [advance_of_ok hok]
    exact Register.selectable_resolve rfl job op _
  · rw [advance_of_failed hok]
    exact Or.inl rfl

end ShotSim
