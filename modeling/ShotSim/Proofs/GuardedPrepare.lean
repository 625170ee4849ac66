import Mathlib.Data.List.Basic
import ShotSim.Plan
import ShotSim.Proofs.GuardedExecute
import ShotSim.Proofs.Weave

/-!
# Guarded decisions — a step that checks what it reads to decide

To decide on a step, a shot looks up its operation, sets masks for the qubits, reads what it keeps
about them, draws a Pauli code and fills the table of its own operator.  Here all of this is done
with checked indices.  No operation stops it: words that are no opcode and operands that are no
qubits are refused before anything is looked up with them.

* `inject_eq`, `collapse_eq`, `pauliCode_eq`, `injectDecay_eq` — the operators that a shot makes
  itself;
* `accrue_eq` — the clock;
* `resolve_eq`, `prepare_eq` — the whole decision;
* `sound_prepare` — what is decided on can be carried out.
-/

namespace ShotSim

variable {R : Type} [Scalar R]

/-! ## Operators that a shot makes itself -/

theorem length_projector (outcome reset : Bool) (scale : R) :
    (projector outcome reset scale).length = 4 := by
  cases outcome <;> cases reset <;> rfl

theorem length_pauliMatrix (code : Nat) : (pauliMatrix code : List (Cplx R)).length = 4 := by
  unfold pauliMatrix
  split <;> rfl

theorem IdleParams.length_decay (p : IdleParams R) (idle p1 dampingDraw dephaseDraw : R) :
    (p.decay idle p1 dampingDraw dephaseDraw).length = 4 := by
  have hdamping : ∀ gamma : R, (damping gamma p1 dampingDraw).length = 4 := by
    intro gamma
    unfold damping
    dsimp only
    split <;> rfl
  unfold decay
  dsimp only
  split
  · rw [flipPhase, List.length_mapIdx, hdamping]
  · exact hdamping _

theorem Shot.length_gateMatrix (s : Shot R) (op : Op R) : (s.gateMatrix op).length = 4 := by
  have hrotation : ∀ code, (rotation1 code op.angle).length = 4 := by
    intro code
    unfold rotation1
    dsimp only
    split <;> rfl
  unfold gateMatrix
  split
  · exact hrotation _
  · exact hrotation _
  · exact hrotation _
  · rfl
  · simp [Coeffs.dense]

/-- `selectPauli` returns zero or a one-based position in the list. -/
theorem selectPauli_le (probabilities : List R) (draw : R) :
    selectPauli probabilities draw ≤ probabilities.length := by
  -- Zero is an answer of its own, so the bound has to be stated beside it for the count to go up.
  have hfrom : ∀ (ps : List R) (index : Nat) (total : R),
      selectFrom draw ps index total < index + ps.length ∨ selectFrom draw ps index total = 0 := by
    intro ps
    induction ps with
    | nil => exact fun _ _ => Or.inr rfl
    | cons p rest ih =>
        intro index total
        rw [selectFrom, List.length_cons]
        split
        · exact Or.inl (by omega)
        · rcases ih (index + 1) (total + p) with hlt | hzero
          · exact Or.inl (by omega)
          · exact Or.inr hzero
  rcases hfrom probabilities 1 0 with hlt | hzero
  · rw [selectPauli]
    omega
  · rw [selectPauli, hzero]
    exact Nat.zero_le _

namespace Guarded

def item {α : Type} (xs : List α) (i : Nat) : Guarded α := read xs.toArray i

def entry (m : Coeffs R) (i : Nat) : Guarded (Cplx R) := read m.toArray i

def qubit (s : Shot R) (q : Nat) : Guarded (QubitState R) := read s.qubits.toArray q

/-- Selects the operator `entries`, which has to fill the leading coefficients exactly. -/
def inject (s : Shot R) (arity : Nat) (entries : List (Cplx R)) : Guarded (Shot R) := do
  let places := 4 ^ arity
  demand (places ≤ coeffCapacity) (.range coeffCapacity 0 places)
  demand (entries.length = places) (.lengths places entries.length)
  return s.inject arity entries

def collapse (s : Shot R) (q : Nat) (reset : Bool) : Guarded (Shot R) := do
  let state ← qubit s q
  let p1 := state.oneProbability
  let outcome := Scalar.lt s.draws.measure p1
  let p := if outcome then p1 else 1 - p1
  let endsInOne := outcome && !reset
  let s := s.setQubit q
    { state with zero := if endsInOne then 0 else 1, one := if endsInOne then 1 else 0 }
  inject s 1 (projector outcome reset (1 / Scalar.sqrt p))

def pauliCode (op : Op R) (codes : Nat) (draw : R) : Guarded Nat := do
  -- Place 0 of the table belongs to the identity, which is what no draw means.
  demand (1 ≤ codes ∧ codes ≤ coeffCapacity) (.range coeffCapacity 1 codes)
  let code := selectPauli (op.pauliProbabilities codes) draw
  demand (code < codes) (.index codes code)
  return code

def tensor (first second : List (Cplx R)) : Guarded (List (Cplx R)) :=
  (List.range 16).mapM fun i => do
    let row := i / 4
    let col := i % 4
    return (← item first (row / 2 * 2 + col / 2)) * (← item second (row % 2 * 2 + col % 2))

def applyPauli1 (s : Shot R) (op : Op R) : Guarded (Shot R) := do
  let code ← pauliCode op 4 s.draws.pauli
  if code = 0 then return s else inject s 1 (pauliMatrix code)

def applyPauli2 (s : Shot R) (op : Op R) : Guarded (Shot R) := do
  let code ← pauliCode op pauliCodes s.draws.pauli
  if code = 0 then return s
  else inject s 2 (← tensor (pauliMatrix (code / 4)) (pauliMatrix (code % 4)))

def applyLoss (s : Shot R) (op : Op R) : Guarded (Shot R) := do
  let probability := (← entry op.coeffs 0).re
  if Scalar.lt s.draws.loss probability then
    collapse { s with lost := s.lost ||| (← shl wordBits 1 op.q1) } op.q1 true
  else return s

def gateMatrix (s : Shot R) (op : Op R) : Guarded (List (Cplx R)) :=
  match s.selected with
  | .rx | .ry | .rz => return rotation1 s.selected op.angle
  | .id => return [1, 0, 0, 1]
  | _ => (List.range 4).mapM (entry op.coeffs)

def compose1 (outer inner : List (Cplx R)) : Guarded (List (Cplx R)) :=
  (List.range 4).mapM fun i => do
    let row := i / 2
    let col := i % 2
    return (← item outer (row * 2)) * (← item inner col) +
      (← item outer (row * 2 + 1)) * (← item inner (2 + col))

def injectDecay (s : Shot R) (params : IdleParams R) (op : Op R) : Guarded (Shot R) := do
  let state ← qubit s op.q1
  if params.isDue state then
    let gate ← gateMatrix s op
    let decay := params.decay state.idle state.oneProbability s.draws.damping s.draws.dephase
    -- The gate is in the product, so the step is the product alone.
    let s ← inject { s with scratch := Coeffs.zero } 1 (← compose1 gate decay)
    return s.setQubit op.q1 { state with idle := 0 }
  else return s

/-- Indexing a list within bounds. -/
theorem item_eq {α : Type} {xs : List α} {i : Nat} (h : i < xs.length) (fill : α) :
    item xs i = .ok (xs.getD i fill) := by
  apply read_of_some
  rw [List.getElem?_toArray, List.getElem?_eq_getElem h, List.getD_eq_getElem _ _ h]

/-- Indexing coefficients within their capacity. -/
theorem entry_eq (m : Coeffs R) {i : Nat} (h : i < coeffCapacity) : entry m i = .ok (m.get i) := by
  apply read_of_some
  simp [Coeffs.get, h]

/-- Indexing the qubits of a shot within bounds. -/
theorem qubit_eq (s : Shot R) {q : Nat} (h : q < maxQubitCount) : qubit s q = .ok (s.qubit q) := by
  apply read_of_some
  simp [Shot.qubit, h]

omit [Scalar R] in
/-- Injecting a matrix of the size of its arity is within bounds. -/
theorem inject_eq (s : Shot R) {arity : Nat} {entries : List (Cplx R)} (harity : arity ≤ 3)
    (hlength : entries.length = 4 ^ arity) :
    inject s arity entries = .ok (s.inject arity entries) := by
  have hplaces : 4 ^ arity ≤ coeffCapacity := Nat.pow_le_pow_right (by omega) harity
  rw [inject, demand_of hplaces, ok_bind, demand_of hlength, ok_bind]
  rfl

/-- Collapsing a qubit within bounds. -/
theorem collapse_eq (s : Shot R) {q : Nat} (h : q < maxQubitCount) (reset : Bool) :
    collapse s q reset = .ok (s.collapse q reset) := by
  rw [collapse, qubit_eq s h, ok_bind]
  exact inject_eq _ (by omega) (length_projector _ _ _)

/-- The drawn code is one of the codes of the noise operation. -/
theorem pauliCode_eq (op : Op R) {codes : Nat} (hpos : 1 ≤ codes) (hle : codes ≤ coeffCapacity)
    (draw : R) :
    pauliCode op codes draw = .ok (selectPauli (op.pauliProbabilities codes) draw) := by
  have hcode := selectPauli_le (op.pauliProbabilities codes) draw
  rw [Op.pauliProbabilities, List.length_map, List.length_range', ← Op.pauliProbabilities] at hcode
  rw [pauliCode, demand_of ⟨hpos, hle⟩, ok_bind]
  dsimp only
  rw [demand_of (by omega), ok_bind]
  rfl

theorem tensor_eq {first second : List (Cplx R)} (hfirst : first.length = 4)
    (hsecond : second.length = 4) : tensor first second = .ok (ShotSim.tensor first second) := by
  apply mapM_eq
  intro i hi
  have hlt : i < 16 := List.mem_range.1 hi
  dsimp only
  rw [item_eq (by omega) 0, ok_bind, item_eq (by omega) 0, ok_bind]
  rfl

/-- Single-qubit Pauli noise is within bounds. -/
theorem applyPauli1_eq (s : Shot R) (op : Op R) : applyPauli1 s op = .ok (s.applyPauli1 op) := by
  rw [applyPauli1, pauliCode_eq op (by decide) (by decide), ok_bind, Shot.applyPauli1]
  split
  · rfl
  · exact inject_eq s (by omega) (length_pauliMatrix _)

/-- Two-qubit Pauli noise is within bounds. -/
theorem applyPauli2_eq (s : Shot R) (op : Op R) : applyPauli2 s op = .ok (s.applyPauli2 op) := by
  rw [applyPauli2, pauliCode_eq op (by decide) (by decide), ok_bind, Shot.applyPauli2, pauliCodes]
  split
  · rfl
  · rw [tensor_eq (length_pauliMatrix _) (length_pauliMatrix _), ok_bind]
    exact inject_eq s (by omega) (by simp [ShotSim.tensor])

/-- Loss of a qubit within bounds. -/
theorem applyLoss_eq (s : Shot R) {op : Op R} (h : op.q1 < maxQubitCount) :
    applyLoss s op = .ok (s.applyLoss op) := by
  have hword : op.q1 < wordBits := Nat.lt_trans h (by decide)
  rw [applyLoss, entry_eq op.coeffs (by decide), ok_bind, Shot.applyLoss]
  dsimp only
  rw [Op.lossProbability]
  split
  · rw [shl_one hword, ok_bind]
    exact collapse_eq _ h true
  · rfl

theorem gateMatrix_eq (s : Shot R) (op : Op R) : gateMatrix s op = .ok (s.gateMatrix op) := by
  have htable : (List.range 4).mapM (entry op.coeffs) = .ok (op.coeffs.dense 2) :=
    mapM_eq fun i hi => entry_eq op.coeffs (Nat.lt_trans (List.mem_range.1 hi) (by decide))
  unfold gateMatrix Shot.gateMatrix
  cases s.selected with
  | rx | ry | rz | id => rfl
  | _ => exact htable

theorem compose1_eq {outer inner : List (Cplx R)} (houter : outer.length = 4)
    (hinner : inner.length = 4) : compose1 outer inner = .ok (ShotSim.compose1 outer inner) := by
  apply mapM_eq
  intro i hi
  have hlt : i < 4 := List.mem_range.1 hi
  dsimp only
  rw [item_eq (by omega) 0, ok_bind, item_eq (by omega) 0, ok_bind, item_eq (by omega) 0, ok_bind,
    item_eq (by omega) 0, ok_bind]
  rfl

/-- Decay of a qubit within bounds. -/
theorem injectDecay_eq (s : Shot R) (params : IdleParams R) {op : Op R}
    (h : op.q1 < maxQubitCount) : injectDecay s params op = .ok (s.injectDecay params op) := by
  rw [injectDecay, qubit_eq s h, ok_bind, Shot.injectDecay]
  dsimp only
  split
  · rw [gateMatrix_eq, ok_bind, compose1_eq (s.length_gateMatrix op) (params.length_decay _ _ _ _),
      ok_bind, inject_eq _ (by omega) (by simp [ShotSim.compose1]), ok_bind]
    rfl
  · rfl

/-! ## The clock -/

def qubitMask (op : Op R) : Guarded Nat :=
  if op.isResetAll then return 0
  else op.qubits.foldlM (fun mask q => return mask ||| (← shl wordBits 1 q)) 0

/-- Charges time. Each qubit is looked up in the busy mask. -/
def charge (s : Shot R) (busy : Nat) (duration : R) (qubitCount : Nat) : Guarded (Shot R) :=
  if Scalar.le duration 0 then return s
  else do
    (List.range qubitCount).forM fun q => discard (shl wordBits 1 q)
    return s.charge busy duration qubitCount

def accrue (s : Shot R) (op : Op R) (params : IdleParams R) (qubitCount : Nat) : Guarded (Shot R) :=
  match op.code with
  | .parallelStart => return if s.region.active then s else { s with region := ⟨true, 0, 0⟩ }
  | .parallelEnd =>
    if s.region.active then do
      return { ← charge s s.region.qubits s.region.duration qubitCount with region := 0 }
    else return s
  | code => do
    let mask ← qubitMask op
    let duration := params.duration code
    if s.region.active then
      return { s with region :=
          { s.region with
            qubits := s.region.qubits ||| mask
            duration := Scalar.max s.region.duration duration } }
    else charge s mask duration qubitCount

omit [Scalar R] in
/-- The mask of operands below `wordBits` fits a word. -/
theorem qubitMask_eq {op : Op R} (h : ∀ q ∈ op.qubits, q < wordBits) :
    qubitMask op = .ok op.qubitMask := by
  unfold qubitMask Op.qubitMask
  split
  · rfl
  · apply foldlM_eq
    intro mask q hq
    rw [shl_one (h q hq), ok_bind]
    rfl

/-- The mask of a qubit that no circuit has is too far away. -/
example : qubitMask (Op.identity 40 : Op Float32) = .error (.shift 32 40) := rfl

theorem charge_eq (s : Shot R) (busy : Nat) (duration : R) {n : Nat} (hn : n ≤ wordBits) :
    charge s busy duration n = .ok (s.charge busy duration n) := by
  unfold charge
  split
  · rename_i hle
    rw [Shot.charge, if_pos hle]
    rfl
  · rw [forM_eq, ok_bind]
    · rfl
    · intro q hq
      rw [shl_one (Nat.lt_of_lt_of_le (List.mem_range.1 hq) hn)]
      rfl

/-- Idle time accounting is within bounds. -/
theorem accrue_eq (s : Shot R) {op : Op R} (h : ∀ q ∈ op.qubits, q < wordBits)
    (params : IdleParams R) {n : Nat}
    (hn : n ≤ wordBits) : accrue s op params n = .ok (s.accrue op params n) := by
  unfold accrue Shot.accrue
  cases op.code with
  | parallelStart => rfl
  | parallelEnd =>
      dsimp only
      split
      · rw [charge_eq s _ _ hn, ok_bind]
        rfl
      · rfl
  | _ =>
      dsimp only
      rw [qubitMask_eq h, ok_bind]
      split
      · rfl
      · exact charge_eq s _ _ hn

/-! ## Resolving an operation -/

def operands (op : Op R) : Guarded (List Nat) := do
  let words := opSize / wordSize
  demand (1 + op.code.arity ≤ words) (.range words 1 (1 + op.code.arity))
  return op.qubits

/-- Whether all qubits are in the circuit and each differs from its predecessors. -/
def validQubits (qubitCount : Nat) (qs : List Nat) : Guarded Bool :=
  qs.zipIdx.allM fun (q, i) => do
    let before ← slice qs.toArray 0 i
    return decide (q < qubitCount) && !before.contains q

def isLost (s : Shot R) (q : Nat) : Guarded Bool := do
  return s.lost &&& (← shl wordBits 1 q) != 0

def measure (r : Register R) (job : Job R) (op : Op R) (lost : Bool) : Guarded (Register R) := do
  let outcome := if lost then .lost else Outcome.ofBit (r.shot.readsOne op.q1)
  let shot ← if lost then pure r.shot else collapse r.shot op.q1 (op.code != .mz)
  return if op.code = .reset then { r with shot := shot }
    else { r with shot := shot }.setSlot job.resultCount op.q2 outcome

def select (r : Register R) (job : Job R) (op : Op R) (lost : Bool) : Guarded (Register R) :=
  match op.code with
  | .id | .move | .parallelStart | .parallelEnd => return r
  | .mEveryZ => return { r with shot := { r.shot with selected := .mEveryZ } }
  | .mz | .mResetZ | .reset => measure r job op lost
  | .pauli1 => if lost then return r else return { r with shot := ← applyPauli1 r.shot op }
  | .pauli2 => if lost then return r else return { r with shot := ← applyPauli2 r.shot op }
  | .loss => if lost then return r else return { r with shot := ← applyLoss r.shot op }
  | code => return if lost then r else { r with shot := { r.shot with selected := code } }

/-- Resolves an operation. Operands are read only if the opcode is known, and used only if all are
in the circuit. -/
def resolve (r : Register R) (job : Job R) (op : Op R) (opIdx : Nat) : Guarded (Register R) :=
  if !op.code.isKnown || op.code = .injected then
    return { r with shot := r.shot.fail .unsupportedOp opIdx }
  else do
    -- Operands that the opcode does not have are never looked at.
    let qs ← operands op
    let valid ← validQubits job.batch.qubits qs
    if !valid then
      return { r with shot := r.shot.fail .invalidQubit opIdx }
    else
      let lost ← qs.anyM (isLost r.shot)
      let r ← select r job op lost
      let shot ←
        if !lost && op.code.takesDecay then injectDecay r.shot job.idle op else pure r.shot
      return { r with shot := ← accrue shot op job.idle job.batch.qubits }

omit [Scalar R] in
theorem operands_eq (op : Op R) : operands op = .ok op.qubits := by
  have harity : op.code.arity ≤ 3 := by
    cases op.code <;> simp [Opcode.arity]
  have hwords : opSize / wordSize = 136 := rfl
  rw [operands, demand_of (by omega), ok_bind]
  rfl

omit [Scalar R] in
theorem isLost_eq (s : Shot R) {q : Nat} (h : q < wordBits) : isLost s q = .ok (s.isLost q) := by
  rw [isLost, shl_one h, ok_bind, Nat.one_shiftLeft, Nat.and_two_pow, Shot.isLost]
  cases s.lost.testBit q with
  | true =>
      have hpos := Nat.two_pow_pos q
      simp [pure, Except.pure]
  | false => simp [pure, Except.pure]

/-- Looking back from each qubit finds the same duplicates as looking ahead. -/
theorem all_notMem_take (n : Nat) (qs : List Nat) :
    qs.zipIdx.all (fun p => decide (p.1 < n) && !(qs.take p.2).contains p.1) =
      ShotSim.validQubits n qs := by
  -- Both say that no two places hold the same qubit.
  rw [Bool.eq_iff_iff, validQubits_iff, List.all_eq_true, List.Nodup, List.pairwise_iff_getElem]
  constructor
  · intro h
    have hat : ∀ i (hi : i < qs.length), qs[i] < n ∧ qs[i] ∉ qs.take i := by
      intro i hi
      simpa using h (qs[i], i) (List.mem_zipIdx_iff_getElem?.2 (List.getElem?_eq_getElem hi))
    refine ⟨?_, ?_⟩
    · intro i j hi hj hij hsame
      exact (hat j hj).2 (hsame ▸ List.mem_take_iff_getElem.2 ⟨i, by omega, rfl⟩)
    · intro q hq
      obtain ⟨i, hi, rfl⟩ := List.mem_iff_getElem.1 hq
      exact (hat i hi).1
  · rintro ⟨hdistinct, hlt⟩ ⟨q, i⟩ hmem
    have hat : qs[i]? = some q := List.mem_zipIdx_iff_getElem?.1 hmem
    obtain ⟨hi, rfl⟩ := List.getElem?_eq_some_iff.1 hat
    have hback : qs[i] ∉ qs.take i := by
      intro htake
      obtain ⟨j, hj, hsame⟩ := List.mem_take_iff_getElem.1 htake
      exact hdistinct j i (by omega) hi (by omega) hsame
    simp [hlt _ (List.getElem_mem hi), hback]

/-- The validity check itself is within bounds. -/
theorem validQubits_eq (n : Nat) (qs : List Nat) :
    validQubits n qs = .ok (ShotSim.validQubits n qs) := by
  rw [← all_notMem_take]
  apply allM_eq
  rintro ⟨q, i⟩ hmem
  have hi : i < qs.length := (List.getElem?_eq_some_iff.1 (List.mem_zipIdx_iff_getElem?.1 hmem)).1
  dsimp only
  rw [slice_of_le (Nat.zero_le i) (by simpa using Nat.le_of_lt hi), ok_bind]
  simp [pure, Except.pure]

section Resolve

variable {job : Job R} (hqubits : job.batch.qubits ≤ maxQubitCount) {op : Op R}
  (hvalid : ShotSim.validQubits job.batch.qubits op.qubits = true)

include hqubits hvalid

omit [Scalar R] in
/-- The first operand of an admitted operation is within bounds. -/
theorem q1_lt (harity : 1 ≤ op.code.arity) : op.q1 < maxQubitCount :=
  Nat.lt_of_lt_of_le (q1_lt_of_valid hvalid harity) hqubits

/-- A measurement of an admitted operation is within bounds. -/
theorem measure_eq (harity : 1 ≤ op.code.arity) (r : Register R) (lost : Bool) :
    measure r job op lost = .ok (r.measure job op lost) := by
  unfold measure Register.measure
  cases lost with
  | true => rfl
  | false =>
      dsimp only
      rw [if_neg Bool.false_ne_true, collapse_eq r.shot (q1_lt hqubits hvalid harity), ok_bind]
      rfl

/-- Branch selection for an admitted operation is within bounds. -/
theorem select_eq (r : Register R) (lost : Bool) :
    select r job op lost = .ok (r.select job op lost) := by
  unfold select Register.select
  cases hcode : op.code with
  | mz | mResetZ | reset => exact measure_eq hqubits hvalid (by rw [hcode]; decide) r lost
  | pauli1 =>
      cases lost with
      | true => rfl
      | false =>
          dsimp only
          rw [if_neg Bool.false_ne_true, applyPauli1_eq, ok_bind]
          rfl
  | pauli2 =>
      cases lost with
      | true => rfl
      | false =>
          dsimp only
          rw [if_neg Bool.false_ne_true, applyPauli2_eq, ok_bind]
          rfl
  | loss =>
      cases lost with
      | true => rfl
      | false =>
          have hq := q1_lt hqubits hvalid (by rw [hcode]; decide)
          dsimp only
          rw [if_neg Bool.false_ne_true, applyLoss_eq _ hq, ok_bind]
          rfl
  | _ => rfl

end Resolve

/-- Every operation resolves without a breach, valid or not. -/
theorem resolve_eq {job : Job R} (hqubits : job.batch.qubits ≤ maxQubitCount) (r : Register R)
    (op : Op R) (opIdx : Nat) : resolve r job op opIdx = .ok (r.resolve job op opIdx) := by
  have hword : maxQubitCount ≤ wordBits := by decide
  unfold resolve Register.resolve
  split
  · rfl
  · rw [operands_eq, ok_bind, validQubits_eq, ok_bind]
    cases hvalid : ShotSim.validQubits job.batch.qubits op.qubits with
    | false => rfl
    | true =>
        -- From here on every operand is a qubit of the circuit, and a circuit has fewer qubits than
        -- a word.
        have hlt : ∀ q ∈ op.qubits, q < wordBits := by
          intro q hq
          have := lt_of_validQubits hvalid q hq
          omega
        have hlost : op.qubits.anyM (isLost r.shot) = .ok (op.qubits.any r.shot.isLost) :=
          anyM_eq fun q hq => isLost_eq r.shot (hlt q hq)
        dsimp only
        rw [Bool.not_true, if_neg Bool.false_ne_true, if_neg Bool.false_ne_true, hlost, ok_bind,
          select_eq hqubits hvalid, ok_bind]
        split
        · rename_i hdecay
          -- Decay acts on operations with one operand, so the first operand is one of the qubits
          -- checked.
          have harity : 1 ≤ op.code.arity := by
            rw [Bool.and_eq_true] at hdecay
            revert hdecay
            cases op.code <;> simp [Opcode.takesDecay, Opcode.arity]
          rw [injectDecay_eq _ _ (q1_lt hqubits hvalid harity), ok_bind,
            accrue_eq _ hlt _ (by omega), ok_bind]
          rfl
        · rw [pure_bind, accrue_eq _ hlt _ (by omega), ok_bind]
          rfl

/-! ## The whole decision -/

/-- Reads the collation: each workgroup has a slot for every qubit. -/
def takeCollation (s : Shot R) (sums : Array (Sums R)) (qubitCount : Nat) : Guarded (Shot R) := do
  if s.collects then
    (List.range qubitCount).forM fun q => sums.toList.forM fun wg =>
      discard (read wg.ones.toArray q)
  return s.takeCollation sums qubitCount

def restart (lane : Lane R) (job : Job R) (shotIdx : Nat) : Guarded (Lane R) := do
  discard (fit wordBits (job.batch.firstShot.toNat + shotIdx))
  return lane.restart job shotIdx

def advance (lane : Lane R) (job : Job R) (op : Op R) (opIdx : Nat) : Guarded (Lane R) := do
  let shot ← takeCollation lane.shot.draw lane.sums job.batch.qubits
  let shot := { shot with selected := .id, injectedArity := 0 }
  if shot.status = .ok then
    let r ← resolve ⟨shot, lane.slots⟩ job op opIdx
    return { lane with shot := r.shot, slots := r.slots }
  else return { lane with shot := shot }

def prepare (lane : Lane R) (job : Job R) (shotIdx : Nat) : Guarded (Lane R) :=
  let opIdx := lane.shot.nextOp
  match job.ops[opIdx]? with
  | none => return { lane with shot := { lane.shot with selected := .id, renormalize := 1 } }
  | some op => do
    let lane ← if op.isResetAll then restart lane job shotIdx else advance lane job op opIdx
    let next ← fit wordBits (opIdx + 1)
    return { lane with
      shot := { lane.shot with
        collect := if job.readsProbabilities next then 1 else 0
        opIdx := opIdx
        nextOp := next } }

/-- Reading a collation is within bounds. -/
theorem takeCollation_eq (s : Shot R) (sums : Array (Sums R)) {n : Nat} (h : n ≤ collationQubits) :
    takeCollation s sums n = .ok (s.takeCollation sums n) := by
  have hread : ∀ q ∈ List.range n, ∀ wg ∈ sums.toList, discard (read wg.ones.toArray q) =
      .ok ⟨⟩ := by
    intro q hq wg _
    have hsome : wg.ones.toArray[q]? = some (wg.one q) := by
      have hlt : q < collationQubits := Nat.lt_of_lt_of_le (List.mem_range.1 hq) h
      simp [Sums.one, hlt]
    rw [read_of_some hsome]
    rfl
  unfold takeCollation
  split
  · rw [forM_eq fun q hq => forM_eq (hread q hq), ok_bind]
    rfl
  · rfl

/-- The shot id of a restart fits a word. -/
theorem restart_eq (lane : Lane R) {job : Job R} {shotIdx : Nat}
    (h : job.batch.firstShot.toNat + shotIdx < 2 ^ wordBits) :
    restart lane job shotIdx = .ok (lane.restart job shotIdx) := by
  rw [restart, fit_of_lt h]
  rfl

/-- `advance` is within bounds on circuits of at most `maxQubitCount` qubits. -/
theorem advance_eq {job : Job R} (hqubits : job.batch.qubits ≤ maxQubitCount) (lane : Lane R)
    (op : Op R) (opIdx : Nat) : advance lane job op opIdx = .ok (lane.advance job op opIdx) := by
  rw [advance, takeCollation_eq _ _ (hqubits.trans (by decide)), ok_bind, Lane.advance]
  dsimp only
  split
  · rw [resolve_eq hqubits, ok_bind]
    rfl
  · rfl

/-- Every step is prepared without a breach, whatever the operation and the memory of the lane. -/
theorem prepare_eq {job : Job R} (hqubits : job.batch.qubits ≤ maxQubitCount)
    (hops : job.ops.size < 2 ^ wordBits) (lane : Lane R) {shotIdx : Nat}
    (hid : job.batch.firstShot.toNat + shotIdx < 2 ^ wordBits) :
    prepare lane job shotIdx = .ok (lane.prepare job shotIdx) := by
  unfold prepare Lane.prepare
  dsimp only
  cases hop : job.ops[lane.shot.nextOp]? with
  | none => rfl
  | some op =>
      -- The operation exists, so the index after it is no larger than their number.
      have hlt : lane.shot.nextOp < job.ops.size := (Array.getElem?_eq_some_iff.1 hop).1
      have hnext : fit wordBits (lane.shot.nextOp + 1) = .ok (lane.shot.nextOp + 1) :=
        fit_of_lt (by omega)
      dsimp only
      cases op.isResetAll with
      | true =>
          rw [if_pos rfl, if_pos rfl, restart_eq lane hid, ok_bind, hnext, ok_bind]
          rfl
      | false =>
          rw [if_neg Bool.false_ne_true, if_neg Bool.false_ne_true, advance_eq hqubits,
            ok_bind, hnext, ok_bind]
          rfl

end Guarded

/-- A prepared step is sound. -/
theorem Lane.sound_prepare (lane : Lane R) {job : Job R} (shotIdx : Nat)
    (hroom : job.batch.qubits ≤ job.layout.qubitCount) :
    (lane.prepare job shotIdx).shot.Sound job := by
  have hplaced := lane.placed_prepare job shotIdx hroom
  cases hop : job.ops[lane.shot.nextOp]? with
  | none =>
      have hid : (lane.prepare job shotIdx).shot.selected = .id := by
        rw [prepare, hop]
      refine ⟨hplaced, ?_, by rw [hid]; decide⟩
      intro hgate
      rw [Shot.mode_of_id hid] at hgate
      cases hgate
  | some op =>
      refine ⟨hplaced, ?_, ?_⟩
      · intro _
        have hidx : (lane.prepare job shotIdx).shot.opIdx = lane.shot.nextOp := by
          rw [prepare, hop]
        rw [hidx]
        exact (Array.getElem?_eq_some_iff.1 hop).1
      · -- Noise is drawn before it is carried out, and a shot that restarts does nothing else.
        intro hnoise
        cases hreset : op.isResetAll with
        | true =>
            rw [prepare, hop] at hnoise
            dsimp only at hnoise
            rw [hreset, if_pos rfl] at hnoise
            cases hnoise
        | false =>
            have hkind := lane.selectable_prepare hop hreset shotIdx
            rw [hnoise] at hkind
            rcases hkind with h | h | ⟨h, hquiet⟩
            · cases h
            · cases h
            · rw [← h] at hquiet
              cases hquiet

end ShotSim
