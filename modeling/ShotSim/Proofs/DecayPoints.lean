import Mathlib.Data.List.Basic
import ShotSim.Proofs.FrozenShots
import ShotSim.Proofs.Isolation
import ShotSim.Proofs.NullNumbers
import ShotSim.Proofs.Timetable

/-!
# Decay points — no joint operation meets a qubit that is due

Decay acts on a qubit that is due only through an operation on that qubit alone.  Weaving therefore
puts identities before every operation that brings qubits together or reads them.  What such an
identity has settled has to stay settled until the operation comes, through whatever noise and time
lie in between.

* `Op.settle` — the qubits known to be settled after an operation, told from the operation alone;
* `Attended` — along a list of operations, every joint operation finds its qubits settled;
* `attended_weaveOp`, `attended_build` — what weaving makes of an operation and of a program;
* `Lane.allSettled_prepare` — a step leaves settled what `Op.settle` says;
* `decay_never_skipped` — the qubits of a joint operation, in every batch.
-/

namespace ShotSim

section Points

variable {R : Type} [Scalar R]

/-! ## Settled qubits, by operation -/

namespace Op

/-- Whether an operation is multi-qubit, a measurement or a report. -/
def isJoint (op : Op R) : Bool :=
  decide (1 < op.code.arity) || op.code.isMeasurement || decide (op.code = .mEveryZ)

/-- The operands of an operation; all qubits of the circuit for a report. -/
def participants (qubitCount : Nat) (op : Op R) : List Nat :=
  if op.code = .mEveryZ then List.range qubitCount else op.qubits

/-- Whether the operation leaves the qubit without idle time. The end of a region spares no
qubit. -/
def spares (p : IdleParams R) (op : Op R) (q : Nat) : Bool :=
  decide (op.code ≠ .parallelEnd) && (Scalar.le (p.duration op.code) 0 || op.qubits.contains q)

/-- The qubits settled after an operation: an identity settles its operand. -/
def settle (p : IdleParams R) (op : Op R) (settled : List Nat) : List Nat :=
  if op.isResetAll then []
  else (if op.code = .id then [op.q1] else []) ++ settled.filter (op.spares p)

/-- Membership in `settle`: the qubit of an identity, or a settled qubit that is spared. -/
theorem mem_settle {p : IdleParams R} {op : Op R} {settled : List Nat} {q : Nat} :
    q ∈ op.settle p settled ↔ op.isResetAll = false ∧
      (op.code = .id ∧ q = op.q1 ∨ q ∈ settled ∧ op.spares p q = true) := by
  unfold settle
  cases op.isResetAll with
  | true => simp
  | false => by_cases hid : op.code = .id <;> simp [hid]

/-- An operation spares its own operands. -/
theorem spares_of_mem_qubits {p : IdleParams R} {op : Op R} {q : Nat} (h : q ∈ op.qubits) :
    op.spares p q = true := by
  have hmarker : op.code ≠ .parallelEnd := by
    intro hmarker
    simp [qubits, hmarker, Opcode.arity] at h
  simp [spares, hmarker, h]

/-- An operation without duration spares every qubit. -/
theorem spares_of_le {p : IdleParams R} {op : Op R} {code : Opcode} (hcode : op.code = code)
    (hmarker : code ≠ .parallelEnd) (h : Scalar.le (p.duration code) 0 = true) (q : Nat) :
    op.spares p q = true := by
  simp [spares, hcode, hmarker, h]

end Op

/-- Every joint operation of a list finds its participants settled. -/
def Attended (p : IdleParams R) (n : Nat) : List Nat → List (Op R) → Prop
  | _, [] => True
  | settled, op :: rest =>
    (op.isJoint = true → ∀ q ∈ op.participants n, q ∈ settled) ∧
      Attended p n (op.settle p settled) rest

namespace Attended

variable {p : IdleParams R} {n : Nat}

/-- `Attended` is monotone in the settled qubits. -/
theorem mono {settled settled' : List Nat} {ops : List (Op R)} (h : Attended p n settled ops)
    (hsub : settled ⊆ settled') : Attended p n settled' ops := by
  induction ops generalizing settled settled' with
  | nil => exact trivial
  | cons op rest ih =>
      obtain ⟨hhere, hrest⟩ := h
      refine ⟨fun hjoint q hq => hsub (hhere hjoint q hq), ih hrest ?_⟩
      intro q hq
      obtain ⟨hreset, hself | ⟨hmem, hspares⟩⟩ := Op.mem_settle.1 hq
      · exact Op.mem_settle.2 ⟨hreset, Or.inl hself⟩
      · exact Op.mem_settle.2 ⟨hreset, Or.inr ⟨hsub hmem, hspares⟩⟩

/-- `Attended` streams compose. -/
theorem append {settled : List Nat} {ops ops' : List (Op R)} (h : Attended p n settled ops)
    (h' : Attended p n [] ops') : Attended p n settled (ops ++ ops') := by
  induction ops generalizing settled with
  | nil => exact h'.mono (List.nil_subset _)
  | cons op rest ih => exact ⟨h.1, ih h.2⟩

/-- `Attended` over a `flatMap`, each piece starting with nothing settled. -/
theorem flatMap {α : Type} {xs : List α} {f : α → List (Op R)}
    (h : ∀ x ∈ xs, Attended p n [] (f x)) : Attended p n [] (xs.flatMap f) := by
  induction xs with
  | nil => exact trivial
  | cons x rest ih =>
      rw [List.flatMap_cons]
      exact (h x List.mem_cons_self).append (ih fun y hy => h y (List.mem_cons_of_mem _ hy))

/-- Operations whose joint operands lie in a settled set that all of them spare are attended. -/
theorem of_within {settled qs : List Nat} {ops : List (Op R)} (hqs : qs ⊆ settled)
    (h : ∀ op ∈ ops, (op.isJoint = true → op.participants n ⊆ qs) ∧
      ∀ q ∈ qs, op.isResetAll = false ∧ op.spares p q = true) : Attended p n settled ops := by
  induction ops generalizing settled with
  | nil => exact trivial
  | cons op rest ih =>
      obtain ⟨hjoint, hspares⟩ := h op List.mem_cons_self
      refine ⟨fun hisJoint q hq => hqs (hjoint hisJoint hq), ih ?_ fun other hother =>
        h other (List.mem_cons_of_mem _ hother)⟩
      intro q hq
      exact Op.mem_settle.2 ⟨(hspares q hq).1, Or.inr ⟨hqs hq, (hspares q hq).2⟩⟩

/-- Identities without duration settle their qubits for the operations behind them. -/
theorem points (hid : Scalar.le (p.duration .id) 0 = true) {settled qs : List Nat}
    {ops : List (Op R)}
    (h : ∀ settled', settled ⊆ settled' → qs ⊆ settled' → Attended p n settled' ops) :
    Attended p n settled (qs.map Op.identity ++ ops) := by
  induction qs generalizing settled with
  | nil => exact h settled (List.Subset.refl _) (List.nil_subset _)
  | cons q rest ih =>
      have hown : ∀ x, x ∈ (Op.identity q : Op R).settle p settled ↔ x = q ∨ x ∈ settled := by
        intro x
        have hcode : (Op.identity q : Op R).code = .id := rfl
        have hspares : (Op.identity q : Op R).spares p x = true :=
          Op.spares_of_le hcode (by decide) hid x
        rw [Op.mem_settle]
        simp only [hspares, and_true]
        exact ⟨fun hx => hx.2.imp_left (·.2), fun hx => ⟨rfl, hx.imp_left (⟨rfl, ·⟩)⟩⟩
      have hlone : (Op.identity q : Op R).isJoint = false := rfl
      refine ⟨fun hjoint => absurd hjoint (by simp [hlone]),
        ih fun settled' hsub hqs => h settled' ?_ ?_⟩
      · exact fun x hx => hsub ((hown x).2 (Or.inr hx))
      · exact List.cons_subset.2 ⟨hsub ((hown q).2 (Or.inl rfl)), hqs⟩

end Attended

/-! ## Weaving -/

section Weaving

/-- A Pauli error acts on one qubit, or on the first two of a wider operation. -/
theorem code_pauliOp {op : Op R} {t : NoiseTable R} (hone : 1 ≤ op.code.arity)
    (ht : t.qubits = op.code.arity) :
    (NoiseModel.pauliOp op t).code = .pauli1 ∨
      (NoiseModel.pauliOp op t).code = .pauli2 ∧ 1 < op.code.arity ∧
        (NoiseModel.pauliOp op t).qubits ⊆ op.qubits := by
  unfold NoiseModel.pauliOp
  dsimp only
  split
  · exact Or.inl rfl
  · rename_i hmany
    have htwo : 1 < op.code.arity := by omega
    obtain ⟨k, hk⟩ := Nat.exists_eq_add_of_le' htwo
    refine Or.inr ⟨rfl, htwo, fun q hq => ?_⟩
    have hpair : q ∈ [op.q1, op.q2] := hq
    simp only [Op.qubits, hk, List.take_succ_cons]
    rcases List.mem_cons.1 hpair with rfl | hsecond
    · exact List.mem_cons_self
    · exact List.mem_cons_of_mem _ (List.mem_singleton.1 hsecond ▸ List.mem_cons_self)

/-- Loss noise consists of identities and losses. -/
theorem code_of_mem_lossOps {op other : Op R} {t : NoiseTable R}
    (h : other ∈ NoiseModel.lossOps op t) : other.code = .id ∨ other.code = .loss := by
  unfold NoiseModel.lossOps at h
  split at h
  · split at h
    · simp only [List.mem_cons, List.not_mem_nil, or_false] at h
      rcases h with rfl | rfl | rfl | rfl
      · exact Or.inl rfl
      · exact Or.inr rfl
      · exact Or.inl rfl
      · exact Or.inr rfl
    · rcases List.mem_singleton.1 h with rfl
      exact Or.inr rfl
  · cases h

variable {n : Nat} {noise : Option (NoiseModel R)}
  (hnoise : ∀ m, noise = some m → m.validate = .ok ())

include hnoise in
/-- Noise operations are single-qubit, or act on two operands of their operation. -/
theorem code_of_mem_noiseOps {op other : Op R} (h : other ∈ (noise.bind (·.noiseOps? op)).getD []) :
    (other.code = .id ∨ other.code = .pauli1 ∨ other.code = .loss) ∨
      other.code = .pauli2 ∧ 1 < op.code.arity ∧ other.qubits ⊆ op.qubits := by
  obtain ⟨m, site, rfl, hsite, hone, rfl | hloss⟩ := exists_of_mem_noiseOps h
  · have htable := NoiseModel.qubits_of_validate (hnoise m rfl) site
    exact (code_pauliOp hone (htable.trans (NoiseSite.qubits_eq_arity hsite))).imp_left
      fun hcode => Or.inr (Or.inl hcode)
  · exact Or.inl ((code_of_mem_lossOps hloss).imp_right Or.inr)

variable [Scalar.ClockLaws R] {p : IdleParams R} (hid : Scalar.le (p.duration .id) 0 = true)

include hid hnoise

/-- Noise operations spare every qubit and are joint only if their operation is. -/
theorem spares_noiseOps {op other : Op R} (h : other ∈ (noise.bind (·.noiseOps? op)).getD []) :
    (other.isJoint = true → 1 < op.code.arity ∧ other.participants n ⊆ op.qubits) ∧
      ∀ q, other.isResetAll = false ∧ other.spares p q = true := by
  have hbeyond : ∀ code, p.duration code = 0 → Scalar.le (p.duration code) 0 = true := by
    intro code hcode
    rw [hcode]
    exact Scalar.ClockLaws.zero_nonneg
  rcases code_of_mem_noiseOps hnoise h with (hcode | hcode | hcode) | ⟨hcode, htwo, hsub⟩
  · exact ⟨by simp [Op.isJoint, hcode, Opcode.arity, Opcode.isMeasurement],
      fun q => ⟨by simp [Op.isResetAll, hcode], Op.spares_of_le hcode (by decide) hid q⟩⟩
  · exact ⟨by simp [Op.isJoint, hcode, Opcode.arity, Opcode.isMeasurement],
      fun q => ⟨by simp [Op.isResetAll, hcode],
        Op.spares_of_le hcode (by decide) (hbeyond .pauli1 rfl) q⟩⟩
  · exact ⟨by simp [Op.isJoint, hcode, Opcode.arity, Opcode.isMeasurement],
      fun q => ⟨by simp [Op.isResetAll, hcode],
        Op.spares_of_le hcode (by decide) (hbeyond .loss rfl) q⟩⟩
  · exact ⟨fun _ => ⟨htwo, by simpa [Op.participants, hcode] using hsub⟩,
      fun q => ⟨by simp [Op.isResetAll, hcode],
        Op.spares_of_le hcode (by decide) (hbeyond .pauli2 rfl) q⟩⟩

omit hnoise hid [Scalar.ClockLaws R] in
/-- An operation with settled operands is attended together with its noise. -/
theorem attended_of_settled {op : Op R} (hreport : op.code ≠ .mEveryZ) (hreset : op.code ≠ .reset)
    {added : List (Op R)} (hadded : ∀ other ∈ added,
      (other.isJoint = true → 1 < op.code.arity ∧ other.participants n ⊆ op.qubits) ∧
        ∀ q, other.isResetAll = false ∧ other.spares p q = true)
    {settled : List Nat} (hqs : op.qubits ⊆ settled) {ops : List (Op R)}
    (hops : ∀ other ∈ ops, other = op ∨ other ∈ added) : Attended p n settled ops := by
  have hjoins : op.participants n = op.qubits := if_neg hreport
  refine .of_within hqs fun other hother => ?_
  rcases hops other hother with rfl | hnoisy
  · exact ⟨fun _ => hjoins ▸ List.Subset.refl _,
      fun q hq => ⟨by simp [Op.isResetAll, hreset], Op.spares_of_mem_qubits hq⟩⟩
  · exact ⟨fun hjoint => ((hadded other hnoisy).1 hjoint).2, fun q _ => (hadded other hnoisy).2 q⟩

/-- The expansion of an operation is attended from no settled qubits. -/
theorem attended_weaveOp (op : Op R) : Attended p n [] (weaveOp noise true n op) := by
  by_cases hreport : op.code = .mEveryZ
  · -- An identity for every qubit that is reported.
    rw [weaveOp_of_report noise n hreport]
    refine .points hid fun settled _ hqs => ⟨fun _ q hq => ?_, trivial⟩
    rw [Op.participants, if_pos hreport] at hq
    exact hqs hq
  have hadded : ∀ other ∈ (noise.bind (·.noiseOps? op)).getD [],
      (other.isJoint = true → 1 < op.code.arity ∧ other.participants n ⊆ op.qubits) ∧
        ∀ q, other.isResetAll = false ∧ other.spares p q = true :=
    fun other hother => spares_noiseOps hnoise hid hother
  rw [weaveOp, if_pos rfl]
  unfold withNoise
  generalize (noise.bind (·.noiseOps? op)).getD [] = added at hadded ⊢
  by_cases hmany : 1 < op.code.arity
  · -- An identity on each of several qubits comes first.
    obtain ⟨hmeasures, hmove, hreset⟩ : op.code.isMeasurement = false ∧ op.code ≠ .move ∧
        op.code ≠ .reset := by
      revert hmany
      cases op.code <;> simp [Opcode.arity, Opcode.isMeasurement]
    simp only [hmeasures, hmove, Bool.false_and, Bool.false_eq_true, if_false, decayPoints,
      if_pos hmany]
    exact .points hid fun settled _ hqs => attended_of_settled hreport hreset hadded hqs
      fun other hother =>
      List.mem_cons.1 hother
  · by_cases hmeasures : op.code.isMeasurement = true
    · obtain ⟨harity, hmove, hreset⟩ : op.code.arity = 1 ∧ op.code ≠ .move ∧ op.code ≠ .reset := by
        revert hmeasures
        cases op.code <;> simp [Opcode.arity, Opcode.isMeasurement]
      have hqubits : op.qubits = [op.q1] := by simp [Op.qubits, harity]
      have hpoints : ∀ ops, (∀ other ∈ ops, other = op ∨ other ∈ added) →
          Attended p n [] (.identity op.q1 :: ops) := by
        intro ops hops
        have hpoint : Attended p n [] ([op.q1].map Op.identity ++ ops) :=
          .points hid fun settled _ hqs => attended_of_settled hreport hreset hadded
            (hqubits ▸ hqs) hops
        exact hpoint
      by_cases hempty : added = []
      · have hquiet : decayPoints n op (decide (1 < [op].length)) = [.identity op.q1] := by
          simp [decayPoints, hmany, hmeasures]
        simp only [hempty, List.isEmpty_nil, Bool.not_true, Bool.and_false,
          Bool.false_eq_true, if_false, if_neg hmove, hquiet]
        exact hpoints [op] fun other hother => Or.inl (List.mem_singleton.1 hother)
      · -- The identity that carries the noise stands in for the one that decay asks for.
        have hcarried : (op.code.isMeasurement && !added.isEmpty) = true := by
          simp [hmeasures, hempty]
        have hnoisy :
            decayPoints n op (decide (1 < (.identity op.q1 :: added ++ [op]).length)) = [] := by
          simp [decayPoints, hmany, hreport]
        dsimp only
        rw [if_pos hcarried, hnoisy]
        refine hpoints (added ++ [op]) fun other hother => ?_
        rcases List.mem_append.1 hother with hmem | hlast
        · exact Or.inr hmem
        · exact Or.inl (List.mem_singleton.1 hlast)
    · -- Nothing here is joint.
      have hpoints : ∀ noisy, decayPoints n op noisy = [] := by
        intro noisy
        simp [decayPoints, hmany, hmeasures, hreport]
      simp only [hmeasures, Bool.false_and, Bool.false_eq_true, if_false, hpoints, List.nil_append]
      refine .of_within (List.nil_subset []) fun other hother => ⟨fun hjoint => ?_,
        fun _ hq => absurd hq List.not_mem_nil⟩
      rcases List.mem_cons.1 hother with rfl | hnoisy
      · split at hjoint
        · cases hjoint
        · simp [Op.isJoint, hmany, hmeasures, hreport] at hjoint
      · exact absurd ((hadded other hnoisy).1 hjoint).1 hmany

/-- With idle noise, every built stream is attended. -/
theorem attended_build (program : List (Op R)) :
    Attended p n [] (Stream.build program noise true n).ops := by
  rw [ops_build_of_idle]
  exact ⟨fun hjoint => absurd hjoint Bool.false_ne_true,
    .flatMap fun op _ => attended_weaveOp hnoise hid op⟩

end Weaving

end Points

/-! ## Settled qubits of a shot -/

section Settled

variable {R : Type} [Scalar R]

/-- The qubit is lost, or decay is not due on it. -/
def Shot.Settled (p : IdleParams R) (s : Shot R) (q : Nat) : Prop :=
  s.isLost q = false → p.isDue (s.qubit q) = false

def Shot.AllSettled (p : IdleParams R) (settled : List Nat) (s : Shot R) : Prop :=
  s.status = .ok → ∀ q ∈ settled, s.Settled p q

namespace Shot

variable {p : IdleParams R} {q : Nat}

/-- `Settled` carries over to a state with the same idle time and no fewer losses. -/
theorem Settled.of_idle {s s' : Shot R} (h : s.Settled p q)
    (hlost : s.isLost q = true → s'.isLost q = true)
    (hidle : (s'.qubit q).idle = (s.qubit q).idle) : s'.Settled p q := by
  intro hpresent
  have hstill : s.isLost q = false := by
    cases hs : s.isLost q with
    | false => rfl
    | true =>
        rw [hlost hs] at hpresent
        cases hpresent
  have hdue := h hstill
  rw [IdleParams.isDue] at hdue ⊢
  rw [hidle, hdue]

/-- A component that the new state shares with the old one is unchanged at every qubit. -/
theorem apply_setQubit {α : Type} (f : QubitState R → α) (s : Shot R) {q' : Nat}
    {state : QubitState R} (h : f state = f (s.qubit q')) (q : Nat) :
    f ((s.setQubit q' state).qubit q) = f (s.qubit q) := by
  simp only [qubit, setQubit, Vector.getElem?_setIfInBounds]
  by_cases hq : q' = q
  · subst hq
    by_cases hin : q' < maxQubitCount
    · simpa [hin, qubit] using h
    · simp [hin]
  · simp [hq]

theorem idle_collapse (s : Shot R) (q' : Nat) (reset : Bool) (q : Nat) :
    ((s.collapse q' reset).qubit q).idle = (s.qubit q).idle := by
  have hidle :
      ∀ zero one : R, ((s.setQubit q' { s.qubit q' with zero := zero, one := one }).qubit q).idle =
      (s.qubit q).idle := fun _ _ => s.apply_setQubit (·.idle) (by rfl) q
  exact hidle _ _

omit [Scalar R] in
/-- Losing a qubit keeps lost qubits lost. -/
theorem isLost_lose {s : Shot R} (q' : Nat) (h : s.isLost q = true) :
    ({ s with lost := s.lost ||| 1 <<< q' } : Shot R).isLost q = true := by
  have hbit : s.lost.testBit q = true := h
  simp [isLost, Nat.testBit_or, hbit]

/-- Applying a loss preserves `Settled`. -/
theorem settled_applyLoss {s : Shot R} (h : s.Settled p q) (op : Op R) :
    (s.applyLoss op).Settled p q := by
  unfold applyLoss
  split
  · exact h.of_idle (isLost_lose op.q1) (idle_collapse _ op.q1 true q)
  · exact h

end Shot

/-- Selecting a Kraus branch preserves `Settled`. -/
theorem Register.settled_select {p : IdleParams R} {q : Nat} {r : Register R}
    (h : r.shot.Settled p q) (job : Job R) (op : Op R)
    (lost : Bool) : (r.select job op lost).shot.Settled p q := by
  refine select_cases (P := fun r' => r'.shot.Settled p q) r job op lost h (fun _ => h) ?measure
    ?pauli1 ?pauli2 (fun _ _ => Shot.settled_applyLoss h op)
  case measure =>
    intro _
    rw [shot_measure]
    split
    · exact h
    · exact h.of_idle id (Shot.idle_collapse _ _ _ q)
  case pauli1 =>
    intro _
    unfold Shot.applyPauli1
    dsimp only
    split <;> exact h
  case pauli2 =>
    intro _
    unfold Shot.applyPauli2
    dsimp only
    split <;> exact h

namespace Shot

variable {p : IdleParams R} {q : Nat}

/-- Bits of a mask accumulated over a list of qubits. -/
theorem testBit_foldl_mask (qs : List Nat) (mask q : Nat) :
    (qs.foldl (fun mask q => mask ||| 1 <<< q) mask).testBit q =
      (mask.testBit q || qs.contains q) := by
  induction qs generalizing mask with
  | nil => simp
  | cons q' rest ih =>
      have hown : decide (q' = q) = (q == q') := by
        rw [Bool.eq_iff_iff, decide_eq_true_eq, beq_iff_eq]
        exact eq_comm
      rw [List.foldl_cons, ih, Nat.testBit_or, Nat.one_shiftLeft, Nat.testBit_two_pow, hown,
        List.contains_cons, Bool.or_assoc]

omit [Scalar R] in
/-- `qubitMask` has exactly the bits of the operands. -/
theorem testBit_qubitMask {op : Op R} (hreset : op.isResetAll = false) (q : Nat) :
    op.qubitMask.testBit q = op.qubits.contains q := by
  rw [Op.qubitMask, hreset, if_neg Bool.false_ne_true, testBit_foldl_mask]
  simp

/-- Charging time preserves `Settled` if the duration is zero or the qubit is busy. -/
theorem Settled.charge {s : Shot R} (h : s.Settled p q) {busy : Nat} {duration : R}
    (hbusy : Scalar.le duration 0 = true ∨ busy.testBit q = true) (n : Nat) :
    (s.charge busy duration n).Settled p q := by
  unfold Shot.charge
  split
  · exact h
  · rename_i htime
    have hworks : busy.testBit q = true := hbusy.resolve_left htime
    refine h.of_idle (fun hlost => hlost) ?_
    simp only [qubit, mapQubits, Vector.getElem?_mapIdx]
    cases s.qubits[q]? with
    | none => rfl
    | some state =>
        simp only [Option.map_some, Option.getD_some, hworks, if_true]
        split <;> rfl

/-- Accruing the duration of an operation preserves `Settled` for the qubits it spares. -/
theorem Settled.accrue {s : Shot R} (h : s.Settled p q) {op : Op R} (hreset : op.isResetAll = false)
    (hspares : op.spares p q = true) (n : Nat) : (s.accrue op p n).Settled p q := by
  rw [Op.spares, Bool.and_eq_true, Bool.or_eq_true, decide_eq_true_eq, ← testBit_qubitMask hreset]
    at hspares
  unfold Shot.accrue
  split
  · split <;> exact h
  · rename_i hmarker
    exact absurd hmarker hspares.1
  · dsimp only
    split
    · exact h
    · exact h.charge hspares.2 n

variable [Scalar.ClockLaws R] [Scalar.NullLaws R]

/-- A qubit with zero idle time is not due. -/
theorem not_isDue_of_idle {state : QubitState R}
    (h : state.idle = 0) : p.isDue state = false := by
  have hnone : Scalar.lt (0 : R) 0 = false :=
    Scalar.NullLaws.not_above Scalar.NullLaws.null_zero Scalar.ClockLaws.zero_nonneg
  simp [IdleParams.isDue, h, hnone]

/-- Injecting decay settles the qubit it acts on. -/
theorem settled_injectDecay_self (s : Shot R) (op : Op R) :
    (s.injectDecay p op).Settled p op.q1 := by
  intro _
  unfold injectDecay
  dsimp only
  split
  · apply not_isDue_of_idle
    simp only [qubit, setQubit, Vector.getElem?_setIfInBounds]
    by_cases hin : op.q1 < maxQubitCount
    · simp [hin]
    · simp [hin]
      rfl
  · rename_i hdue
    simpa using hdue

/-- Injecting decay preserves `Settled` for the other qubits. -/
theorem Settled.injectDecay {s : Shot R} (h : s.Settled p q) (op : Op R) :
    (s.injectDecay p op).Settled p q := by
  by_cases hq : q = op.q1
  · rw [hq]
    exact settled_injectDecay_self s op
  · have hsame : (s.injectDecay p op).qubit q = s.qubit q := by
      unfold Shot.injectDecay
      dsimp only
      split
      · simp [qubit, setQubit, inject, Ne.symm hq]
      · rfl
    refine h.of_idle (fun hlost => ?_) (by rw [hsame])
    rw [isLost, lost_injectDecay]
    exact hlost

end Shot

variable [Scalar.ClockLaws R] [Scalar.NullLaws R]

/-- `resolve` settles the qubit of an identity and keeps the settled qubits that are spared. -/
theorem Register.settled_resolve {r : Register R} {job : Job R} {op : Op R} {opIdx q : Nat}
    (hok : (r.resolve job op opIdx).shot.status = .ok) (hreset : op.isResetAll = false)
    (h : op.code = .id ∧ q = op.q1 ∨ r.shot.Settled job.idle q ∧ op.spares job.idle q = true) :
    (r.resolve job op opIdx).shot.Settled job.idle q := by
  have hspares : op.spares job.idle q = true := by
    rcases h with ⟨hid, rfl⟩ | ⟨_, hspares⟩
    · exact Op.spares_of_mem_qubits (by simp [Op.qubits, hid, Opcode.arity])
    · exact hspares
  revert hok
  unfold resolve
  split
  · intro hok
    cases hok
  · split
    · intro hok
      cases hok
    · intro _
      dsimp only
      refine Shot.Settled.accrue ?_ hreset hspares job.batch.qubits
      rcases h with ⟨hid, rfl⟩ | ⟨hsettled, _⟩
      · have hselect : r.select job op (op.qubits.any r.shot.isLost) = r := by simp [select, hid]
        have hlone : op.qubits.any r.shot.isLost = r.shot.isLost op.q1 := by
          simp [Op.qubits, hid, Opcode.arity]
        rw [hselect, hlone]
        cases hlost : r.shot.isLost op.q1 with
        | true => exact fun hpresent => absurd (hlost.symm.trans hpresent) Bool.noConfusion
        | false =>
            -- The identity takes up the decay that is due.
            rw [hid]
            exact Shot.settled_injectDecay_self r.shot op
      · have hselect := settled_select hsettled job op (op.qubits.any r.shot.isLost)
        split
        · exact hselect.injectDecay op
        · exact hselect

namespace Lane

omit [Scalar.ClockLaws R] [Scalar.NullLaws R] in
/-- `Settled` is unchanged by `ready`. -/
theorem settled_ready {lane : Lane R} {p : IdleParams R} {q : Nat} (job : Job R) :
    (lane.ready job).Settled p q ↔ lane.shot.Settled p q := by
  have hready := lane.frozen_ready job
  have hlost : (lane.ready job).isLost q = lane.shot.isLost q := congrArg (·.testBit q) hready.lost
  constructor
  · exact fun h => h.of_idle (fun hl => hlost ▸ hl) (hready.idle q).symm
  · exact fun h => h.of_idle (fun hl => hlost.symm ▸ hl) (hready.idle q)

/-- `prepare` maps the settled qubits through `settle`. -/
theorem allSettled_prepare {lane : Lane R} {job : Job R} {op : Op R}
    (hop : job.ops[lane.shot.nextOp]? = some op) {settled : List Nat}
    (h : lane.shot.AllSettled job.idle settled) (shotIdx : Nat) :
    (lane.prepare job shotIdx).shot.AllSettled job.idle (op.settle job.idle settled) := by
  intro hok q hq
  obtain ⟨hreset, hq⟩ := Op.mem_settle.1 hq
  -- A shot that is in order after the step was so before it.
  have hbefore : lane.shot.status = .ok := by
    by_contra hfailed
    have hkept := congrArg Prod.fst (verdict_prepare shotIdx hop)
    rw [verdictAfter_of_failed _ hreset hfailed] at hkept
    exact hfailed (hkept.symm.trans hok)
  have hready : (lane.ready job).status = .ok := (lane.status_ready job).trans hbefore
  have hknown : op.code = .id ∧ q = op.q1 ∨
      (lane.ready job).Settled job.idle q ∧ op.spares job.idle q = true := by
    refine hq.imp_right fun hmem => ⟨(settled_ready job).2 (h hbefore q hmem.1), hmem.2⟩
  rw [prepare, hop] at hok ⊢
  dsimp only at hok ⊢
  rw [hreset, if_neg Bool.false_ne_true, advance_of_ok hready] at hok ⊢
  exact Register.settled_resolve hok hreset hknown

/-- The settled qubits suffice for the remaining operations. -/
def LooksAhead (job : Job R) (lane : Lane R) : Prop :=
  ∃ settled, lane.shot.AllSettled job.idle settled ∧
    Attended job.idle job.batch.qubits settled (job.ops.toList.drop lane.shot.nextOp)

/-- `LooksAhead` is preserved by a step. -/
theorem LooksAhead.step {job : Job R} {lane : Lane R} (h : lane.LooksAhead job) (shotIdx : Nat) :
    (lane.step job shotIdx).LooksAhead job := by
  obtain ⟨settled, hsettled, hattended⟩ := h
  rw [LooksAhead, shot_step]
  cases hop : job.ops[lane.shot.nextOp]? with
  | none =>
      rw [prepare_past_end hop]
      exact ⟨settled, hsettled, hattended⟩
  | some op =>
      refine ⟨op.settle job.idle settled, allSettled_prepare hop hsettled shotIdx, ?_⟩
      have hdrop : job.ops.toList.drop lane.shot.nextOp =
          op :: job.ops.toList.drop (lane.shot.nextOp + 1) := by
        rw [← Array.getElem?_toList] at hop
        obtain ⟨hlt, hget⟩ := List.getElem?_eq_some_iff.1 hop
        rw [List.drop_eq_getElem_cons hlt, hget]
      rw [hdrop] at hattended
      rw [nextOp_prepare shotIdx hop]
      exact hattended.2

/-- `LooksAhead` is preserved by a run of steps. -/
theorem LooksAhead.after {job : Job R} {lane : Lane R} (h : lane.LooksAhead job)
    (shotIdx count : Nat) : (lane.after job shotIdx count).LooksAhead job := by
  induction count generalizing lane with
  | zero => exact h
  | succ count ih => exact ih (h.step shotIdx)

omit [Scalar.ClockLaws R] [Scalar.NullLaws R] in
/-- Under `LooksAhead`, the operands of the next joint operation are settled. -/
theorem LooksAhead.settled {job : Job R} {lane : Lane R} (h : lane.LooksAhead job)
    (hok : lane.shot.status = .ok) {op : Op R} (hop : job.ops[lane.shot.nextOp]? = some op)
    (hjoint : op.isJoint = true) {q : Nat} (hq : q ∈ op.participants job.batch.qubits) :
    (lane.ready job).Settled job.idle q := by
  obtain ⟨settled, hsettled, hattended⟩ := h
  rw [← Array.getElem?_toList] at hop
  obtain ⟨hlt, hget⟩ := List.getElem?_eq_some_iff.1 hop
  rw [List.drop_eq_getElem_cons hlt, hget] at hattended
  exact (settled_ready job).2 (hsettled hok q (hattended.1 hjoint q hq))

end Lane

end Settled

/-! ## Batches -/

/-- If identities take no time, then whenever a successful shot of a batch reaches a joint operation
(two or three operands, a measurement or a report), no participating qubit that is present has decay
due. -/
theorem decay_never_skipped {program : List (Op Float32)} {c : Config Float32}
    (hchecked : c.validate = .ok ()) {model : IdleModel Float32} (hidle : c.idle = some model)
    (hid : (model.params.duration .id == 0) = true) {m : Machine Float32} {pool : Pool}
    (hserves : m.Serves c pool (Stream.build program c.noise true c.qubits))
    {batch : Batch Float32} (hqubits : batch.qubits = c.qubits) {shotIdx : Nat}
    (hshot : shotIdx < batch.shots) {i : Nat} {lane : Lane Float32}
    (hlane : ((m.beginBatch batch).run i).lanes[shotIdx]? = some lane)
    (hok : lane.shot.status = .ok) {op : Op Float32}
    (hop : (Stream.build program c.noise true c.qubits).ops[i]? = some op)
    (hjoint : op.isJoint = true) :
    lane.shot.nextOp = i ∧ ∀ q ∈ op.participants c.qubits,
      (lane.ready (m.batchJob batch)).isLost q = false →
        model.params.isDue ((lane.ready (m.batchJob batch)).qubit q) = false := by
  have hparams : (m.batchJob batch).idle = model.params := by
    rw [Machine.batchJob, hserves.idle, Config.idleParams, hidle]
    rfl
  have hops : (m.batchJob batch).ops = (Stream.build program c.noise true c.qubits).ops.toArray :=
    hserves.ops
  have hwidth : (m.batchJob batch).batch.qubits = c.qubits := hqubits
  rw [m.getElem?_lanes_run hshot] at hlane
  obtain ⟨old, -, rfl⟩ := Option.map_eq_some_iff.1 hlane
  -- The stream looks after its joint operations, and a shot that begins knows of no settled qubit.
  have hbegin : Lane.LooksAhead (m.batchJob batch) { old with shot := 0 } := by
    refine ⟨[], fun _ _ hq => absurd hq List.not_mem_nil, ?_⟩
    rw [hops, hparams, hwidth]
    exact attended_build (Config.checked_of_validate hchecked).noise
      (Scalar.ClockLaws.le_zero hid) program
  have hplace :
      (Lane.after { old with shot := 0 } (m.batchJob batch) shotIdx i).shot.nextOp = i := by
    have hlt : i < (m.batchJob batch).ops.size := by
      rw [hops]
      exact (List.getElem?_eq_some_iff.1 hop).1
    have hstart : ({ old with shot := 0 } : Lane Float32).shot.nextOp = 0 := rfl
    rw [Lane.nextOp_after shotIdx (by rw [hstart]; omega), hstart, Nat.zero_add]
  refine ⟨hplace, fun q hq hpresent => ?_⟩
  have hhere : (m.batchJob batch).ops[(Lane.after { old with shot := 0 } (m.batchJob batch)
      shotIdx i).shot.nextOp]? = some op := by
    rw [hplace, hops, List.getElem?_toArray, hop]
  rw [← hwidth] at hq
  have hsettled := (hbegin.after shotIdx i).settled hok hhere hjoint hq hpresent
  rwa [hparams] at hsettled

def waitingPair : Config Float32 :=
  { timedPair [(.x, 200), (.cx, 7)] with
    noise := some ⟨fun site => if site = .cx then ⟨2, ["XZ"], [0.25], 0⟩
      else .noiseless site.qubits⟩ }

def waitingStream : Stream Float32 := Stream.build [.x 0, .cx 0 1] waitingPair.noise true 2

def waitingMachine : Machine Float32 :=
  (Machine.fresh.load waitingStream.ops waitingPair.idleParams).prepareRun
    ⟨2, .ofCircuit 2 12, 0, 256, 1, 1, 1, 9⟩

def waitingLane : Option (Lane Float32) :=
  ((waitingMachine.beginBatch ⟨0, 0, 1, 2, 0⟩).run 5).lanes[0]?

/-- Behind the joint operation comes its noise, which is joint as well. -/
theorem decay_never_skipped_noise :
    ∃ lane op, waitingLane = some lane ∧ lane.shot.status = .ok ∧
      waitingStream.ops[5]? = some op ∧ op.code = .pauli2 ∧ ∀ q ∈ op.participants 2,
        (lane.ready (waitingMachine.batchJob ⟨0, 0, 1, 2, 0⟩)).isLost q = false →
          waitingPair.idleParams.isDue
            ((lane.ready (waitingMachine.batchJob ⟨0, 0, 1, 2, 0⟩)).qubit q) = false := by
  have hchecked : waitingPair.validate = .ok () := rfl
  have hserves : waitingMachine.Serves waitingPair {} waitingStream :=
    ⟨rfl, rfl, rfl, rfl, rfl, rfl, Machine.fits_prepareRun _ _⟩
  have hin : 0 < waitingMachine.lanes.size := by
    rw [waitingMachine, Machine.size_lanes_prepareRun]
    decide
  have hlane : waitingLane = some (Lane.after { waitingMachine.lanes[0] with shot := 0 }
      (waitingMachine.batchJob ⟨0, 0, 1, 2, 0⟩) 0 5) := by
    rw [waitingLane, waitingMachine.getElem?_lanes_run (by decide), Array.getElem?_eq_getElem hin]
    rfl
  have hdrop : (waitingMachine.batchJob ⟨0, 0, 1, 2, 0⟩).ops.toList.drop 0 =
      waitingStream.ops.take 5 ++ waitingStream.ops.drop 5 := (List.take_append_drop 5 _).symm
  have hverdict : (Lane.after { waitingMachine.lanes[0] with shot := 0 }
      (waitingMachine.batchJob ⟨0, 0, 1, 2, 0⟩) 0 5).shot.verdict = (.ok, 0) := by
    have hfive : (waitingStream.ops.take 5).length = 5 := rfl
    have hrun : (Lane.after { waitingMachine.lanes[0] with shot := 0 }
        (waitingMachine.batchJob ⟨0, 0, 1, 2, 0⟩) 0
        (waitingStream.ops.take 5).length).shot.verdict = _ :=
      Lane.verdict_after_of_drop 0 hdrop
    rw [hfive] at hrun
    exact hrun.trans rfl
  -- From here on only the verdict of the lane matters, and the run is not unfolded again.
  generalize Lane.after { waitingMachine.lanes[0] with shot := 0 }
    (waitingMachine.batchJob ⟨0, 0, 1, 2, 0⟩) 0 5 = lane at hlane hverdict
  have hok : lane.shot.status = .ok := congrArg Prod.fst hverdict
  have hop : waitingStream.ops[5]? =
      some (.pauli2 0 1 (NoiseTable.probabilityTable ⟨2, ["XZ"], [0.25], 0⟩)) := rfl
  exact ⟨lane, _, hlane, hok, hop, rfl,
    (decay_never_skipped hchecked rfl (by decide) hserves rfl (by decide) hlane hok hop rfl).2⟩

end ShotSim
