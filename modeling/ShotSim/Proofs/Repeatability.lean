import ShotSim.Proofs.BasisStates
import ShotSim.Proofs.ExactArithmetic
import ShotSim.Proofs.Freshness
import ShotSim.Proofs.FrozenShots
import ShotSim.Proofs.PermutationGates

/-!
# Repeatability — a qubit that is read twice reads the same

A measurement leaves nothing in the half of the amplitudes that its outcome excludes.  Operations on
other qubits cannot bring that half back, and then the second measurement is no game of chance: the
probability it reads is one or zero to the last bit.

* `Collapsed` — the amplitudes in which a qubit does not read a given bit are null;
* `Lane.Holds`, `holds_step_of_mz`, `Holds.after` — a measurement makes it so, and it stays so;
* `collation_of_collapsed` — the sums of such a block;
* `Lane.Holds.oneProbability`, `Lane.reads_again` — what is read off them;
* `Lane.AtBasis.step_of_mz`, `step_of_permutation` — measurements and gates in a basis state;
* `measurement_repeatable` — the outcome of the second measurement.
-/

namespace ShotSim

open BasisIndex

variable {R : Type} [Scalar R]

/-! ## Measurements -/

def Op.isReading {R : Type} (op : Op R) : Bool := op.code = .mz || op.code = .mResetZ

theorem Op.isReading_iff {R : Type} {op : Op R} :
    op.isReading = true ↔ op.code = .mz ∨ op.code = .mResetZ := by
  simp [isReading]

theorem Op.qubits_of_isReading {R : Type} {op : Op R} (h : op.isReading = true) :
    op.qubits = [op.q1] := by
  rcases isReading_iff.1 h with hc | hc <;> simp [qubits, hc, Opcode.arity]

theorem Op.qubits_eq_of_isReading {R : Type} {op other : Op R} (h : op.isReading = true)
    (hother : other.isReading = true) (hsame : op.q1 = other.q1) : op.qubits = other.qubits := by
  rw [qubits_of_isReading h, qubits_of_isReading hother, hsame]

theorem Op.not_isResetAll_of_isReading {R : Type} {op : Op R} (h : op.isReading = true) :
    op.isResetAll = false := by
  rcases isReading_iff.1 h with hc | hc <;> simp [isResetAll, hc]

/-- A measurement of a present qubit collapses it and stores the outcome. -/
theorem Register.resolve_of_isReading {r : Register R} {job : Job R} {op : Op R}
    (hreading : op.isReading = true) (hvalid : validQubits job.batch.qubits op.qubits = true)
    (hpresent : r.shot.isLost op.q1 = false) (opIdx : Nat) :
    (r.resolve job op opIdx).shot.decision =
        (r.shot.collapse op.q1 (op.code != .mz)).decision ∧
      (r.resolve job op opIdx).slots =
        if op.q2 < job.resultCount then r.slots.setIfInBounds op.q2 (.ofBit (r.shot.readsOne op.q1))
        else r.slots := by
  have hlost : op.qubits.any r.shot.isLost = false := by
    rw [Op.qubits_of_isReading hreading]
    simp [hpresent]
  have hcode := Op.isReading_iff.1 hreading
  have hsupported : (!op.code.isKnown || op.code = .injected) = false := by
    rcases hcode with hc | hc <;> simp [hc, Opcode.isKnown]
  have hdecay : op.code.takesDecay = false := by
    rcases hcode with hc | hc <;> simp [hc, Opcode.takesDecay]
  have hselect : r.select job op false = r.measure job op false := by
    rcases hcode with hc | hc <;> simp [select, hc]
  unfold resolve
  rw [if_neg (by simp [hsupported]), if_neg (by simp [hvalid]), hlost]
  dsimp only
  rw [hselect, hdecay, Bool.and_false, if_neg Bool.false_ne_true]
  refine ⟨?_, ?_⟩
  · rw [Shot.decision_accrue, shot_measure, if_neg Bool.false_ne_true]
  · have hkeeps : op.code ≠ .reset := by
      rcases hcode with hc | hc <;> simp [hc]
    unfold measure setSlot
    dsimp only
    rw [if_neg hkeeps]
    split <;> rfl

/-- `resolve` replaces a reset by a collapse. -/
theorem Register.selected_resolve_ne_reset {r : Register R} (hid : r.shot.selected = .id)
    (job : Job R) (op : Op R) (opIdx : Nat) : (r.resolve job op opIdx).shot.selected ≠ .reset := by
  intro h
  rcases selectable_resolve hid job op opIdx with hsel | hsel | ⟨hsel, _⟩
  · rw [hsel] at h
    cases h
  · rw [hsel] at h
    cases h
  · have hcode : op.code = .reset := hsel.symm.trans h
    have hselect : ∀ lost, (r.select job op lost).shot.selected ≠ .reset := by
      intro lost
      have hmeasure : r.select job op lost = r.measure job op lost := by simp [select, hcode]
      rw [hmeasure, shot_measure]
      split
      · rw [hid]
        decide
      · exact Opcode.noConfusion
    have hdecay : op.code.takesDecay = false := by
      rw [hcode]
      rfl
    revert h
    unfold resolve
    split
    · exact Opcode.noConfusion
    · split
      · exact Opcode.noConfusion
      · dsimp only
        rw [Shot.selected_accrue, hdecay, Bool.and_false, if_neg Bool.false_ne_true]
        exact hselect _

namespace Lane

/-- The current operation of a prepared step. -/
theorem current_prepare {lane : Lane R} {job : Job R} {op : Op R}
    (hop : job.ops[lane.shot.nextOp]? = some op) (shotIdx : Nat) :
    job.current (lane.prepare job shotIdx).shot = op := by
  have hidx : (lane.prepare job shotIdx).shot.opIdx = lane.shot.nextOp := by
    rw [prepare, hop]
  rw [Job.current, hidx, hop]
  rfl

/-- `prepare` of a successful shot on an operation that is not a restart. -/
theorem prepare_of_ok {lane : Lane R} {job : Job R} {op : Op R}
    (hop : job.ops[lane.shot.nextOp]? = some op) (hreset : op.isResetAll = false)
    (hok : lane.shot.status = .ok) (shotIdx : Nat) :
    (lane.prepare job shotIdx).shot.decision =
        (Register.resolve ⟨lane.ready job, lane.slots⟩ job op lane.shot.nextOp).shot.decision ∧
      (lane.prepare job shotIdx).slots =
        (Register.resolve ⟨lane.ready job, lane.slots⟩ job op lane.shot.nextOp).slots := by
  have hready : (lane.ready job).status = .ok := (lane.status_ready job).trans hok
  rw [prepare, hop]
  dsimp only
  rw [hreset, if_neg Bool.false_ne_true, advance_of_ok hready]
  exact ⟨rfl, rfl⟩

theorem isLost_ready (lane : Lane R) (job : Job R) (q : Nat) :
    (lane.ready job).isLost q = lane.shot.isLost q := by
  rw [Shot.isLost, lost_ready]
  rfl

/-- A measurement prepares a collapse. -/
theorem decision_prepare_of_mz {lane : Lane R} {job : Job R} {op : Op R}
    (hop : job.ops[lane.shot.nextOp]? = some op) (hmz : op.code = .mz)
    (hok : lane.shot.status = .ok) (hvalid : validQubits job.batch.qubits op.qubits = true)
    (hpresent : lane.shot.isLost op.q1 = false) (shotIdx : Nat) :
    (lane.prepare job shotIdx).shot.decision =
      ((lane.ready job).collapse op.q1 false).decision := by
  have hreading : op.isReading = true := Op.isReading_iff.2 (Or.inl hmz)
  have hlost : (lane.ready job).isLost op.q1 = false := (lane.isLost_ready job op.q1).trans hpresent
  have hcollapse :=
    (Register.resolve_of_isReading (r := ⟨lane.ready job, lane.slots⟩) hreading hvalid
    hlost lane.shot.nextOp).1
  rw [hmz] at hcollapse
  exact (prepare_of_ok hop (Op.not_isResetAll_of_isReading hreading) hok shotIdx).1.trans hcollapse

/-- A step acts on operands of its operation. -/
theorem operands_prepare_subset {lane : Lane R} {job : Job R} {op : Op R}
    (hop : job.ops[lane.shot.nextOp]? = some op) (hreset : op.isResetAll = false) (shotIdx : Nat) :
    (lane.prepare job shotIdx).shot.mode.operands op ⊆ op.qubits := by
  by_cases hok : lane.shot.status = .ok
  · have hmode := Shot.mode_eq_of_decision (prepare_of_ok hop hreset hok shotIdx).1
    rw [hmode]
    rcases Register.arity_mode_resolve_le ⟨lane.ready job, lane.slots⟩ job op lane.shot.nextOp rfl
      with hempty | ⟨_, hle⟩
    · rw [hempty]
      exact List.nil_subset _
    · exact (Mode.isPrefix_operands hle).subset
  · -- A failed shot only rescales.
    have hstill : (lane.prepare job shotIdx).shot.status ≠ .ok := by
      have hverdict := verdict_prepare_of_failed shotIdx (fun other hother => by
        rw [hop] at hother
        exact Option.some.inj hother ▸ hreset) hok
      rw [show (lane.prepare job shotIdx).shot.status = lane.shot.status from
        congrArg Prod.fst hverdict]
      exact hok
    rw [(prepare_of_failed hop hreset hstill).2.1]
    exact List.nil_subset _

/-- Only a restart prepares `resetAll`. -/
theorem mode_prepare_ne_resetAll {lane : Lane R} {job : Job R} {op : Op R}
    (hop : job.ops[lane.shot.nextOp]? = some op) (hreset : op.isResetAll = false) (shotIdx : Nat) :
    (lane.prepare job shotIdx).shot.mode ≠ .resetAll := by
  have hselected : (lane.prepare job shotIdx).shot.selected ≠ .reset := by
    rw [prepare, hop]
    dsimp only
    rw [hreset, if_neg Bool.false_ne_true]
    by_cases hready : (lane.ready job).status = .ok
    · rw [advance_of_ok hready]
      exact Register.selected_resolve_ne_reset rfl job op _
    · rw [advance_of_failed hready]
      exact Opcode.noConfusion
  unfold Shot.mode
  split
  · exact fun _ => hselected ‹_›
  · exact Mode.noConfusion
  · unfold Mode.ofArity
    split <;> exact Mode.noConfusion
  · exact Mode.noConfusion
  · unfold Mode.ofArity
    split <;> exact Mode.noConfusion

end Lane

/-! ## The half that an outcome excludes -/

/-- Amplitudes whose bit `q` differs from `b` are null. -/
def Collapsed (q : Nat) (b : Bool) (block : Array (Cplx R)) : Prop :=
  ∀ i, i.testBit q = !b → (block.getD i 0).Null

/-- A collapse without reset has an empty row for the other outcome. -/
theorem Shot.scratch_collapse_other (s : Shot R) (q : Nat) {col : Nat} (hcol : col < 2) :
    (s.collapse q false).scratch.get ((!s.readsOne q).toNat * 2 + col) = 0 := by
  unfold collapse inject projector
  dsimp only
  obtain rfl | rfl : col = 0 ∨ col = 1 := by omega
  · cases s.readsOne q with
    | true => exact get_overlay _ rfl (by decide)
    | false => exact get_overlay _ rfl (by decide)
  · cases s.readsOne q with
    | true => exact get_overlay _ rfl (by decide)
    | false => exact get_overlay _ rfl (by decide)

namespace Lane

/-- Qubit `q` is present and collapsed onto `b`. -/
structure Holds (lane : Lane R) (q : Nat) (b : Bool) : Prop where
  collapsed : Collapsed q b lane.block
  present : lane.shot.isLost q = false

/-- An operation on other qubits keeps the loss flag. -/
theorem isLost_prepare_of_other {lane : Lane R} {job : Job R} {op : Op R}
    (hop : job.ops[lane.shot.nextOp]? = some op) (hreset : op.isResetAll = false) {q : Nat}
    (hother : q ∉ op.qubits) (shotIdx : Nat) :
    (lane.prepare job shotIdx).shot.isLost q = lane.shot.isLost q := by
  have htreats := lane.treats_prepare job shotIdx
  rw [current_prepare hop shotIdx] at htreats
  cases htreats with
  | restarts reset none => exact absurd reset (mode_prepare_ne_resetAll hop hreset shotIdx)
  | spares kept free => rw [Shot.isLost, kept, Shot.isLost]
  | loses grown circuit present selected arity empty =>
      have hmode : (lane.prepare job shotIdx).shot.mode = .gate1 := by
        rw [Shot.mode, selected, arity]
        rfl
      have hmem : op.q1 ∈ op.qubits := by
        apply operands_prepare_subset hop hreset shotIdx
        rw [hmode]
        exact List.mem_cons_self
      have hne : op.q1 ≠ q := fun h => hother (h ▸ hmem)
      rw [Shot.isLost, grown, Nat.testBit_or, testBit_one_shiftLeft, decide_eq_false hne,
        Bool.or_false, Shot.isLost]

section Steps

variable [Scalar.NullLaws R] {job : Job R} {e w : Nat} (ht : job.layout.Tiled e w)
  (hroom : job.batch.qubits ≤ job.layout.qubitCount)

include ht hroom

/-- A measurement establishes `Holds` for its outcome. -/
theorem holds_step_of_mz {lane : Lane R} (hblock : lane.block.size = job.layout.entriesPerShot)
    {op : Op R} (hop : job.ops[lane.shot.nextOp]? = some op) (hmz : op.code = .mz)
    (hok : lane.shot.status = .ok) (hvalid : validQubits job.batch.qubits op.qubits = true)
    (hpresent : lane.shot.isLost op.q1 = false) (shotIdx : Nat) :
    (lane.step job shotIdx).Holds op.q1 ((lane.ready job).readsOne op.q1) := by
  have hdecision := decision_prepare_of_mz hop hmz hok hvalid hpresent shotIdx
  have hcurrent := current_prepare hop shotIdx
  refine ⟨?_, ?_⟩
  · intro i hi
    rw [block_step ht hroom hblock]
    refine Parked.null_of_empty_row ht (placed_prepare lane job shotIdx hroom) hblock
      (congrArg (·.1) hdecision) (congrArg (·.2.1) hdecision) fun col hcol => ?_
    -- The row of the operator that makes amplitude `i` is that of the other outcome.
    have hscratch : (lane.prepare job shotIdx).shot.scratch =
        ((lane.ready job).collapse op.q1 false).scratch := congrArg (·.2.2.1) hdecision
    rw [hcurrent, hi, hscratch]
    exact Shot.scratch_collapse_other _ _ hcol
  · have hkept : (lane.prepare job shotIdx).shot.lost = (lane.ready job).lost :=
      congrArg (·.2.2.2) hdecision
    rw [shot_step, Shot.isLost, hkept, lost_ready]
    exact hpresent

/-- Operations on other qubits preserve `Holds`. -/
theorem Holds.step {lane : Lane R} {q : Nat} {b : Bool} (h : lane.Holds q b)
    (hblock : lane.block.size = job.layout.entriesPerShot) {op : Op R}
    (hop : job.ops[lane.shot.nextOp]? = some op) (hreset : op.isResetAll = false)
    (hother : q ∉ op.qubits) (shotIdx : Nat) : (lane.step job shotIdx).Holds q b := by
  have hcurrent := current_prepare hop shotIdx
  have hoperands := operands_prepare_subset hop hreset shotIdx
  refine ⟨?_, ?_⟩
  · intro i hi
    rw [block_step ht hroom hblock]
    -- The groups of the step lie within one half: its operands do not include `q`.
    refine Parked.null_of_closed ht (placed_prepare lane job shotIdx hroom) hblock
      (fun i => i.testBit q = !b) ?_ ?_ h.collapsed hi
    · intro j hj value
      rw [hcurrent, testBit_place_of_notMem j value fun hq => hother (hoperands hq), hj]
    · exact fun hmode => absurd hmode (mode_prepare_ne_resetAll hop hreset shotIdx)
  · rw [shot_step, isLost_prepare_of_other hop hreset hother, h.present]

/-- `Holds` is preserved while no operation addresses the qubit or restarts the shot. -/
theorem Holds.after {lane : Lane R} {q : Nat} {b : Bool} (h : lane.Holds q b)
    {resultsPerShot resultCount : Nat} (hfits : lane.Fits job.layout resultsPerShot resultCount)
    (shotIdx : Nat) {count : Nat}
    (hlater : ∀ k < count, ∃ op, job.ops[lane.shot.nextOp + k]? = some op ∧ op.isResetAll = false ∧
      q ∉ op.qubits) : (lane.after job shotIdx count).Holds q b := by
  induction count generalizing lane with
  | zero => exact h
  | succ count ih =>
      obtain ⟨op, hop, hreset, hother⟩ := hlater 0 (Nat.succ_pos count)
      have hnext : (lane.step job shotIdx).shot.nextOp = lane.shot.nextOp + 1 := by
        rw [shot_step, nextOp_prepare shotIdx hop]
      refine ih (h.step ht hroom hfits.block hop hreset hother shotIdx)
        (fits_step ht hfits shotIdx) fun k hk => ?_
      rw [hnext, Nat.add_assoc, Nat.add_comm 1]
      exact hlater (k + 1) (Nat.succ_lt_succ hk)

end Steps

end Lane

/-! ## Sums without chance -/

section Sums

variable [Scalar.ExactLaws R]

open Scalar Scalar.ExactLaws

theorem Scalar.sum_eq_zero {xs : List R} (h : ∀ x ∈ xs, x = 0) : sum xs = 0 := by
  have hzero : (0 : R) + 0 = 0 := Scalar.ExactLaws.add_zero .zero
  rw [sum]
  induction xs with
  | nil => rfl
  | cons x rest ih =>
      rw [List.forall_mem_cons] at h
      rw [List.foldl_cons, h.1, hzero]
      exact ih h.2

/-- Zero summands can be filtered out. -/
theorem Scalar.sum_filter {visits : List (Visit R)} {p : Visit R → Bool}
    (hweight : ∀ v ∈ visits, Weight v.probability)
    (hzero : ∀ v ∈ visits, p v = false → v.probability = 0) :
    sum ((visits.filter p).map (·.probability)) = sum (visits.map (·.probability)) := by
  -- The running sum is a weight all along, and a weight does not change when zero is added.
  have hfold : ∀ acc : R, Weight acc →
      ((visits.filter p).map (·.probability)).foldl (· + ·) acc =
        (visits.map (·.probability)).foldl (· + ·) acc := by
    induction visits with
    | nil => exact fun _ _ => rfl
    | cons v rest ih =>
        rw [List.forall_mem_cons] at hweight hzero
        intro acc hacc
        have hrest := ih hweight.2 hzero.2
        cases hv : p v with
        | true =>
            rw [List.filter_cons_of_pos hv]
            exact hrest _ (hacc.add hweight.1)
        | false =>
            rw [List.filter_cons_of_neg (by simp [hv]), List.map_cons, List.foldl_cons, hzero.1 hv,
              Scalar.ExactLaws.add_zero hacc]
            exact hrest acc hacc
  exact hfold 0 .zero

def Cplx.IsFinite (a : Cplx R) : Prop := isFinite a.re = true ∧ isFinite a.im = true

/-- A null finite amplitude has probability zero. -/
theorem Cplx.normSqr_eq_zero {a : Cplx R} (hnull : a.Null) (hfinite : a.IsFinite) :
    a.normSqr = 0 := by
  rw [normSqr, square_eq_zero hnull.1 hfinite.1, square_eq_zero hnull.2 hfinite.2]
  exact Scalar.ExactLaws.add_zero .zero

/-- In a collapsed block the sum of the qubit is the total or zero. -/
theorem collation_of_collapsed {job : Job R} {shot : Shot R} (hcollects : shot.collects = true)
    {block : Array (Cplx R)} {q : Nat} (hq : q < job.batch.qubits) (hcap : q < collationQubits)
    {b : Bool} (h : Collapsed q b block) (hfinite : ∀ i, (block.getD i 0).IsFinite)
    (workgroup : Nat) :
    (job.collation shot block workgroup).one q =
      if b then (job.collation shot block workgroup).total else 0 := by
  let threads : List (List (Visit R)) :=
    (workerItems workgroup threadsPerWorkgroup).map fun worker =>
    (job.workerShare shot worker).flatten.map fun i => ⟨i, (block.getD i 0).normSqr⟩
  -- Every visit is that of an amplitude of the block.
  have hvisit : ∀ visits ∈ threads, ∀ v ∈ visits,
      v.probability = (block.getD v.index 0).normSqr := by
    intro visits hvisits v hv
    obtain ⟨worker, _, rfl⟩ := List.mem_map.1 hvisits
    obtain ⟨i, _, rfl⟩ := List.mem_map.1 hv
    rfl
  have hnone : ∀ visits ∈ threads, ∀ v ∈ visits, v.index.testBit q = !b → v.probability = 0 := by
    intro visits hvisits v hv hbit
    rw [hvisit visits hvisits v hv]
    exact Cplx.normSqr_eq_zero (h _ hbit) (hfinite _)
  have hone : (job.collation shot block workgroup).one q = sum (threads.map fun visits =>
      sum ((visits.filter (·.index.testBit q)).map (·.probability))) := by
    simp [Job.collation, Sums.ofThreads, Sums.one, hcollects, hq, hcap, threads]
  have htotal : (job.collation shot block workgroup).total =
      sum (threads.map fun visits => sum (visits.map (·.probability))) := rfl
  cases b with
  | true =>
      rw [hone, htotal, if_pos rfl]
      congr 1
      apply List.map_congr_left
      intro visits hvisits
      refine sum_filter (fun v hv => ?_) fun v hv => hnone visits hvisits v hv
      rw [hvisit visits hvisits v hv]
      exact Cplx.weight_normSqr _
  | false =>
      rw [hone, if_neg Bool.false_ne_true]
      refine sum_eq_zero fun x hx => ?_
      obtain ⟨visits, hvisits, rfl⟩ := List.mem_map.1 hx
      refine sum_eq_zero fun y hy => ?_
      obtain ⟨v, hv, rfl⟩ := List.mem_map.1 hy
      obtain ⟨hmem, hbit⟩ := List.mem_filter.1 hv
      exact hnone visits hvisits v hmem hbit

omit [Scalar.ExactLaws R] in
theorem weight_total_collation (job : Job R) (shot : Shot R) (block : Array (Cplx R))
    (workgroup : Nat) : Weight (job.collation shot block workgroup).total := by
  refine weight_sum fun x hx => ?_
  obtain ⟨visits, hvisits, rfl⟩ := List.mem_map.1 hx
  obtain ⟨worker, _, rfl⟩ := List.mem_map.1 hvisits
  refine weight_sum fun y hy => ?_
  obtain ⟨v, hv, rfl⟩ := List.mem_map.1 hy
  obtain ⟨i, _, rfl⟩ := List.mem_map.1 hv
  exact Cplx.weight_normSqr _

/-- If the sum is the total or zero, `oneProbability` is one or zero. -/
theorem QubitState.oneProbability_of_certain {state : QubitState R} {total : R}
    (hweight : Weight total) (hpos : Positive total) {b : Bool}
    (hone : state.one = if b then total else 0)
    (hzero : state.zero = Scalar.max (total - state.one) 0) :
    state.oneProbability = if b then 1 else 0 := by
  cases b with
  | true =>
      rw [if_pos rfl] at hone ⊢
      rw [hone, Scalar.ExactLaws.sub_self hpos, max_zero_zero] at hzero
      rw [oneProbability, hone, hzero, Scalar.ExactLaws.zero_add hweight, if_pos hpos.1,
        Scalar.ExactLaws.div_self hpos, clamp_one]
  | false =>
      rw [if_neg Bool.false_ne_true] at hone ⊢
      rw [hone, Scalar.ExactLaws.sub_zero hpos, max_zero hpos] at hzero
      rw [oneProbability, hone, hzero, Scalar.ExactLaws.add_zero hweight, if_pos hpos.1,
        Scalar.ExactLaws.zero_div hpos, clamp_zero]

end Sums

/-! ## The second reading -/

namespace Lane

section Readings

variable [Scalar.ExactLaws R] {job : Job R} {e w : Nat} (ht : job.layout.Tiled e w)
  (hroom : job.batch.qubits ≤ job.layout.qubitCount) (hcap : job.batch.qubits ≤ maxQubitCount)

include ht hroom hcap

/-- Under `Holds`, `oneProbability` is one or zero. -/
theorem Holds.oneProbability {lane : Lane R} {shotIdx : Nat} {op : Op R} {b : Bool}
    (h : (lane.step job shotIdx).Holds op.q1 b)
    (hblock : lane.block.size = job.layout.entriesPerShot)
    (hop : job.ops[lane.shot.nextOp + 1]? = some op) (hreading : op.isReading = true)
    (hvalid : validQubits job.batch.qubits op.qubits = true)
    (hfinite : ∀ a ∈ (lane.step job shotIdx).block, a.IsFinite)
    (htotal : Scalar.Positive (Scalar.sum ((lane.step job shotIdx).sums.toList.map (·.total)))) :
    (((lane.step job shotIdx).ready job).qubit op.q1).oneProbability = if b then 1 else 0 := by
  have hconsults : ((lane.step job shotIdx).ready job).Consults job op op.q1 := by
    refine ⟨rfl, hvalid, ?_, ?_⟩
    · rw [Op.qubits_of_isReading hreading]
      simpa [isLost_ready] using h.present
    · rcases Op.isReading_iff.1 hreading with hc | hc
      · exact .inl hc
      · exact .inr (.inl hc)
  obtain ⟨hcollects, hsums, _, hone, hzero⟩ :=
    ready_of_consults ht hroom hcap hblock shotIdx hop hconsults
  have hall : ∀ i, ((lane.step job shotIdx).block.getD i 0).IsFinite := by
    intro i
    rw [Array.getD_eq_getD_getElem?]
    cases ha : (lane.step job shotIdx).block[i]? with
    | none => exact ⟨Scalar.ExactLaws.finite_zero, Scalar.ExactLaws.finite_zero⟩
    | some a => exact hfinite a (Array.mem_of_getElem? ha)
  have hlt := hconsults.lt
  have hroomy : op.q1 < collationQubits :=
    Nat.lt_of_lt_of_le (Nat.lt_of_lt_of_le hlt hcap) (by decide)
  -- Workgroup by workgroup, and so in the sum of all of them.
  have hcertain : Scalar.sum ((lane.step job shotIdx).sums.toList.map (·.one op.q1)) =
      if b then Scalar.sum ((lane.step job shotIdx).sums.toList.map (·.total)) else 0 := by
    have hworkgroups := collation_of_collapsed hcollects hlt hroomy h.collapsed hall
    rw [hsums, List.map_map, List.map_map]
    cases b with
    | true =>
        rw [if_pos rfl]
        congr 1
        exact List.map_congr_left fun workgroup _ => hworkgroups workgroup
    | false =>
        rw [if_neg Bool.false_ne_true]
        refine Scalar.sum_eq_zero fun x hx => ?_
        obtain ⟨workgroup, _, rfl⟩ := List.mem_map.1 hx
        exact hworkgroups workgroup
  have hweight :
      Scalar.Weight (Scalar.sum ((lane.step job shotIdx).sums.toList.map (·.total))) := by
    refine Scalar.weight_sum fun x hx => ?_
    rw [hsums, List.map_map] at hx
    obtain ⟨workgroup, _, rfl⟩ := List.mem_map.1 hx
    exact weight_total_collation job _ _ workgroup
  exact QubitState.oneProbability_of_certain hweight htotal (hone.trans hcertain)
    (by rw [hzero, hone])

omit ht hroom hcap in
/-- With probability one or zero, the outcome is independent of the draw. -/
theorem readsOne_of_oneProbability {lane : Lane R} {q : Nat} {b : Bool}
    (h : ((lane.ready job).qubit q).oneProbability = if b then 1 else 0) :
    (lane.ready job).readsOne q = b := by
  rw [Shot.readsOne, h, draws_ready]
  cases b with
  | true => exact Scalar.ExactLaws.fraction_lt_one _
  | false => exact Scalar.ExactLaws.fraction_not_lt_zero _

end Readings

/-! ### Shots that have not failed -/

section Status

variable {lane : Lane R} {job : Job R} {shotIdx : Nat}

/-- A shot that is successful after a step other than a restart was successful before it. -/
theorem status_of_step (hquiet : ∀ op, job.ops[lane.shot.nextOp]? = some op → op.isResetAll = false)
    (h : (lane.step job shotIdx).shot.status = .ok) : lane.shot.status = .ok := by
  by_contra hfailed
  have hverdict := verdict_prepare_of_failed shotIdx hquiet hfailed
  rw [shot_step] at h
  exact hfailed ((congrArg Prod.fst hverdict).symm.trans h)

/-- A successful shot was successful at every step since its last restart. -/
theorem status_of_after {count : Nat}
    (hquiet : ∀ k < count, ∃ op, job.ops[lane.shot.nextOp + k]? = some op ∧ op.isResetAll = false)
    (h : (lane.after job shotIdx count).shot.status = .ok) : lane.shot.status = .ok := by
  induction count generalizing lane with
  | zero => exact h
  | succ count ih =>
      obtain ⟨op, hop, hreset⟩ := hquiet 0 (Nat.succ_pos count)
      have hnext : (lane.step job shotIdx).shot.nextOp = lane.shot.nextOp + 1 := by
        rw [shot_step, nextOp_prepare shotIdx hop]
      have hstep : (lane.step job shotIdx).shot.status = .ok := by
        refine ih (fun k hk => ?_) h
        rw [hnext, Nat.add_assoc, Nat.add_comm 1]
        exact hquiet (k + 1) (Nat.succ_lt_succ hk)
      refine status_of_step (fun other hother => ?_) hstep
      obtain rfl : op = other := Option.some.inj (hop.symm.trans hother)
      exact hreset

/-- An operation that did not fail the shot has valid operands. -/
theorem valid_of_status {op : Op R} (hop : job.ops[lane.shot.nextOp]? = some op)
    (hreset : op.isResetAll = false) (hok : lane.shot.status = .ok)
    (h : (lane.step job shotIdx).shot.status = .ok) :
    validQubits job.batch.qubits op.qubits = true := by
  have hverdict := verdict_prepare shotIdx hop
  rw [verdictAfter_of_ok _ hreset hok, ← shot_step lane job shotIdx] at hverdict
  have hstatus : (lane.step job shotIdx).shot.verdict.1 = .ok := h
  by_contra hinvalid
  rw [hverdict] at hstatus
  split at hstatus
  · cases hstatus
  · rw [if_pos (by simpa using hinvalid)] at hstatus
    cases hstatus

/-- A measurement stores its outcome if there is a slot for it. -/
theorem slots_step_of_isReading {op : Op R} (hop : job.ops[lane.shot.nextOp]? = some op)
    (hreading : op.isReading = true) (hok : lane.shot.status = .ok)
    (hvalid : validQubits job.batch.qubits op.qubits = true)
    (hpresent : lane.shot.isLost op.q1 = false) (hslot : op.q2 < job.resultCount)
    (hsize : op.q2 < lane.slots.size) :
    (lane.step job shotIdx).slots[op.q2]? = some (.ofBit ((lane.ready job).readsOne op.q1)) := by
  have hlost : (lane.ready job).isLost op.q1 = false := (lane.isLost_ready job op.q1).trans hpresent
  have hslots :=
    (Register.resolve_of_isReading (r := ⟨lane.ready job, lane.slots⟩) hreading hvalid hlost
    lane.shot.nextOp).2
  rw [step, slots_execute,
    (prepare_of_ok hop (Op.not_isResetAll_of_isReading hreading) hok shotIdx).2, hslots,
    if_pos hslot]
  simp [hsize]

end Status

section Again

variable [Scalar.NullLaws R] [Scalar.ExactLaws R] {job : Job R} {e w : Nat}
    (ht : job.layout.Tiled e w)
  (hroom : job.batch.qubits ≤ job.layout.qubitCount) (hcap : job.batch.qubits ≤ maxQubitCount)

include ht hroom hcap

/-- Two measurements of a qubit on one lane have the same outcome. -/
theorem reads_again {lane : Lane R} {resultsPerShot resultCount : Nat}
    (hfits : lane.Fits job.layout resultsPerShot resultCount) {shotIdx : Nat} {first again : Op R}
    (hfirst : job.ops[lane.shot.nextOp]? = some first) (hmz : first.code = .mz) {count : Nat}
    (hbetween : ∀ k < count, ∃ op, job.ops[lane.shot.nextOp + 1 + k]? = some op ∧
      op.isResetAll = false ∧ first.q1 ∉ op.qubits)
    (hagain : job.ops[lane.shot.nextOp + 1 + count]? = some again)
    (hreading : again.isReading = true) (hsame : again.q1 = first.q1)
    (hpresent : lane.shot.isLost first.q1 = false)
    (hok : (lane.after job shotIdx (count + 1)).shot.status = .ok)
    (hfinite : ∀ a ∈ (lane.after job shotIdx (count + 1)).block, a.IsFinite)
    (htotal : Scalar.Positive
      (Scalar.sum ((lane.after job shotIdx (count + 1)).sums.toList.map (·.total)))) :
    lane.shot.status = .ok ∧ validQubits job.batch.qubits first.qubits = true ∧
      (lane.after job shotIdx (count + 1)).shot.isLost first.q1 = false ∧
      ((lane.after job shotIdx (count + 1)).ready job).readsOne first.q1 =
        (lane.ready job).readsOne first.q1 := by
  have hmeasures : first.isReading = true := Op.isReading_iff.2 (Or.inl hmz)
  have hreset := Op.not_isResetAll_of_isReading hmeasures
  have hnext : (lane.step job shotIdx).shot.nextOp = lane.shot.nextOp + 1 := by
    rw [shot_step, nextOp_prepare shotIdx hfirst]
  -- The shot has not failed at the first measurement, or it would be failed still.
  have hstepOk : (lane.step job shotIdx).shot.status = .ok := by
    have hquiet : ∀ k < count, ∃ op, job.ops[(lane.step job shotIdx).shot.nextOp + k]? = some op ∧
        op.isResetAll = false := by
      intro k hk
      obtain ⟨op, hop, hreset, _⟩ := hbetween k hk
      exact ⟨op, by rw [hnext, hop], hreset⟩
    exact status_of_after hquiet hok
  have hfirstOk : lane.shot.status = .ok := by
    refine status_of_step (fun other hother => ?_) hstepOk
    obtain rfl : first = other := Option.some.inj (hfirst.symm.trans hother)
    exact hreset
  have hvalid := valid_of_status hfirst hreset hfirstOk hstepOk
  -- From then on the other half of the amplitudes is null.
  have hholds :
      (lane.after job shotIdx (count + 1)).Holds first.q1 ((lane.ready job).readsOne first.q1) := by
    refine (holds_step_of_mz ht hroom hfits.block hfirst hmz hfirstOk hvalid hpresent shotIdx).after
      ht hroom
      (fits_step ht hfits shotIdx) shotIdx ?_
    intro k hk
    rw [hnext]
    exact hbetween k hk
  refine ⟨hfirstOk, hvalid, hholds.present, ?_⟩
  have hinside := (Array.getElem?_eq_some_iff.1 hagain).1
  have hplace : (lane.after job shotIdx count).shot.nextOp = lane.shot.nextOp + count :=
    nextOp_after shotIdx (by omega)
  have hop : job.ops[(lane.after job shotIdx count).shot.nextOp + 1]? = some again := by
    rw [hplace, Nat.add_right_comm, hagain]
  have hvalidAgain : validQubits job.batch.qubits again.qubits = true := by
    rw [Op.qubits_eq_of_isReading hreading hmeasures hsame]
    exact hvalid
  rw [after_succ] at hfinite htotal hholds ⊢
  rw [← hsame] at hholds ⊢
  exact readsOne_of_oneProbability (hholds.oneProbability ht hroom hcap
    (fits_after ht hfits shotIdx count).block hop hreading hvalidAgain hfinite htotal)

end Again

end Lane

/-! ## Basis states -/

/-- A projection keeps the amplitude it projects onto. -/
theorem Operator.apply_projection {coeffs : Coeffs Float32} {bit : Bool}
    (hkeep : coeffs.get (3 * bit.toNat) = 1)
    (hdrop : ∀ k < 4, k ≠ 3 * bit.toNat → coeffs.get k = 0) {a : Cplx Float32}
    (ha : a = 0 ∨ a = 1) :
    (⟨2, .dense, coeffs⟩ : Operator Float32).apply
        [(if bit then 0 else a).scale 1, (if bit then a else 0).scale 1] =
      [if bit then 0 else a, if bit then a else 0] := by
  have hrows : ∀ x y : Cplx Float32, (⟨2, .dense, coeffs⟩ : Operator Float32).apply [x, y] =
      [0 + coeffs.get 0 * x + coeffs.get 1 * y, 0 + coeffs.get 2 * x + coeffs.get 3 * y] :=
    fun _ _ => rfl
  rw [hrows, hdrop 1 (by decide) (by cases bit <;> decide),
    hdrop 2 (by decide) (by cases bit <;> decide)]
  cases bit with
  | false =>
      rw [show coeffs.get 0 = 1 from hkeep, hdrop 3 (by decide) (by decide)]
      rcases ha with rfl | rfl <;> decide +kernel
  | true =>
      rw [show coeffs.get 3 = 1 from hkeep, hdrop 0 (by decide) (by decide)]
      rcases ha with rfl | rfl <;> decide +kernel

/-- Projecting a qubit onto its value keeps a basis state. -/
theorem isBasis_of_projection {job : Job Float32} {shot : Shot Float32} {e w : Nat}
    (ht : job.layout.Tiled e w) (hplaced : shot.Placed (job.current shot) job.layout.qubitCount)
    {block : Array (Cplx Float32)} (hblock : block.size = job.layout.entriesPerShot) {b : Nat}
    (hbasis : IsBasis b block) (hselected : shot.selected = .injected)
    (harity : shot.injectedArity = 1) (hnorm : shot.renormalize = 1)
    (hkeep : shot.scratch.get (3 * (b.testBit (job.current shot).q1).toNat) = 1)
    (hdrop : ∀ k < 4, k ≠ 3 * (b.testBit (job.current shot).q1).toNat → shot.scratch.get k = 0) :
    IsBasis b (job.blockAfter shot block) := by
  generalize hq : (job.current shot).q1 = q at hkeep hdrop
  have hmode : shot.mode = .gate1 := by rw [Shot.mode, hselected, harity]; rfl
  have hoperands : shot.mode.operands (job.current shot) = [q] := by rw [hmode, ← hq]; rfl
  have hoperator : shot.operator (job.current shot) = ⟨2, .dense, shot.scratch⟩ := by
    rw [Shot.operator, hselected, harity]
  intro i
  change (job.blockAfter shot block).getD i 0 = _
  rw [Array.getD_eq_getD_getElem?]
  by_cases hi : i < job.layout.entriesPerShot
  · have hbit : ∀ l : Bool, (place [q] i l.toNat).testBit q = l := by
      intro l
      cases l <;> simp [place, testBit_setBit]
    -- In a group only the member that reads as `b` does can be `b`.
    have hgroup : (List.range (2 ^ shot.mode.arity)).map (fun l =>
        (block.getD (place [q] i l) 0).scale shot.renormalize) =
        [(if b.testBit q then 0 else if place [q] i (b.testBit q).toNat = b then 1 else 0 :
            Cplx Float32).scale 1,
          (if b.testBit q then if place [q] i (b.testBit q).toNat = b then 1 else 0 else 0 :
            Cplx Float32).scale 1] := by
      rw [hmode, hnorm]
      change [(block.getD (place [q] i false.toNat) 0).scale 1,
        (block.getD (place [q] i true.toNat) 0).scale 1] = _
      rw [hbasis.getD, hbasis.getD]
      cases hread : b.testBit q with
      | false =>
          have hne : place [q] i true.toNat ≠ b := by
            rintro rfl
            rw [hbit true] at hread
            cases hread
          rw [if_neg hne]
          rfl
      | true =>
          have hne : place [q] i false.toNat ≠ b := by
            rintro rfl
            rw [hbit false] at hread
            cases hread
          rw [if_neg hne]
          rfl
    have hrow : localIndex [q] i = (i.testBit q).toNat := by simp [localIndex]
    have hself := place_localIndex [q] i
    rw [hrow] at hself
    rw [getElem?_blockAfter_of_gate ht hplaced hblock (by rw [hmode]; decide) hi, hoperands,
      hoperator, hgroup, Operator.apply_projection hkeep hdrop (by split <;> simp), hrow]
    by_cases hread : i.testBit q = b.testBit q
    · rw [← hread, hself]
      cases i.testBit q <;> rfl
    · have hne : i ≠ b := fun h => hread (h ▸ rfl)
      rw [if_neg hne]
      cases hib : i.testBit q <;> cases hbb : b.testBit q <;> simp_all
  · have hlt := hbasis.lt
    rw [Array.getElem?_eq_none (by rw [Job.size_blockAfter, hblock]; omega), if_neg (by omega)]
    rfl

theorem IsBasis.isFinite {b : Nat} {block : Array (Cplx Float32)} (h : IsBasis b block) :
    ∀ a ∈ block, a.IsFinite := by
  intro a ha
  obtain ⟨i, hi, rfl⟩ := Array.mem_iff_getElem.1 ha
  have hget := h.getD i
  rw [Array.getD_eq_getD_getElem?, Array.getElem?_eq_getElem hi, Option.getD_some] at hget
  rw [hget]
  split <;> exact ⟨rfl, rfl⟩

/-- A basis state is collapsed at every qubit. -/
theorem IsBasis.collapsed {b : Nat} {block : Array (Cplx Float32)} (h : IsBasis b block) (q : Nat) :
    Collapsed q (b.testBit q) block := by
  intro i hi
  have hne : i ≠ b := by
    rintro rfl
    cases hbit : i.testBit q <;> simp [hbit] at hi
  rw [h.getD, if_neg hne]
  exact Cplx.null_zero

omit [Scalar R] in
theorem Op.not_isResetAll_of_isPermutation {op : Op R} (h : op.code.isPermutation = true) :
    op.isResetAll = false := by
  cases hcode : op.code <;> simp_all [isResetAll, Opcode.isPermutation]

omit [Scalar R] in
theorem Op.not_isUnsupported_of_isPermutation {op : Op R} (h : op.code.isPermutation = true) :
    op.isUnsupported = false := by
  cases hcode : op.code <;> simp_all [isUnsupported, Opcode.isKnown, Opcode.isPermutation]

/-- Without decay due, a permutation gate on present qubits is selected as is. -/
theorem Register.decision_resolve_of_permutation {r : Register R} {job : Job R} {op : Op R}
    (hcode : op.code.isPermutation = true) (hvalid : validQubits job.batch.qubits op.qubits = true)
    (hpresent : op.qubits.any r.shot.isLost = false) (hidle : job.idle.enabled = false)
    (opIdx : Nat) :
    (r.resolve job op opIdx).shot.decision = { r.shot with selected := op.code }.decision := by
  have hsupported : (!op.code.isKnown || op.code = .injected) = false :=
    Op.not_isUnsupported_of_isPermutation hcode
  have hselect :
      r.select job op false = { r with shot := { r.shot with selected := op.code } } := by
    unfold select
    cases hop : op.code <;> simp_all [Opcode.isPermutation]
  have hdue : ∀ q, job.idle.isDue q = false := fun q => by simp [IdleParams.isDue, hidle]
  unfold resolve
  rw [if_neg (by simp [hsupported]), if_neg (by simp [hvalid]), hpresent]
  dsimp only
  rw [Shot.decision_accrue, hselect]
  split
  · rw [Shot.injectDecay]
    simp only [hdue, Bool.false_eq_true, if_false]
  · rfl

namespace Lane.AtBasis

theorem isLost {lane : Lane Float32} {b : Nat} (h : lane.AtBasis b) (q : Nat) :
    lane.shot.isLost q = false := by
  rw [Shot.isLost, h.lost, Nat.zero_testBit]

theorem positive {lane : Lane Float32} {b : Nat} (h : lane.AtBasis b) :
    Scalar.Positive (Scalar.sum (lane.sums.toList.map (·.total))) := by
  rw [h.total]
  exact ⟨by decide, rfl⟩

theorem status_prepare {lane : Lane Float32} {b : Nat} (h : lane.AtBasis b) {job : Job Float32}
    {op : Op Float32} (hop : job.ops[lane.shot.nextOp]? = some op)
    (hharmless : op.Harmless job.batch.qubits) (shotIdx : Nat) :
    (lane.prepare job shotIdx).shot.status = .ok := by
  have hverdict := verdict_prepare shotIdx hop
  rw [hharmless.verdictAfter_eq] at hverdict
  exact (congrArg Prod.fst hverdict).trans h.status

section Steps

variable {job : Job Float32} {e w : Nat} (ht : job.layout.Tiled e w)
  (hroom : job.batch.qubits ≤ job.layout.qubitCount)

include ht hroom

/-- In a basis state a measurement reads the bit of its qubit and keeps the state. -/
theorem step_of_mz (hcap : job.batch.qubits ≤ maxQubitCount) {lane : Lane Float32}
    (hblock : lane.block.size = job.layout.entriesPerShot) {shotIdx b : Nat}
    (h : (lane.step job shotIdx).AtBasis b)
    (hsize : (lane.step job shotIdx).block.size = job.layout.entriesPerShot)
    (hplace : (lane.step job shotIdx).shot.nextOp = lane.shot.nextOp + 1) {op : Op Float32}
    (hop : job.ops[lane.shot.nextOp + 1]? = some op) (hmz : op.code = .mz)
    (hvalid : validQubits job.batch.qubits op.qubits = true) :
    ((lane.step job shotIdx).step job shotIdx).AtBasis b := by
  have hreading : op.isReading = true := Op.isReading_iff.2 (Or.inl hmz)
  have hpresent := h.isLost op.q1
  have hholds : (lane.step job shotIdx).Holds op.q1 (b.testBit op.q1) :=
    ⟨h.block.collapsed op.q1, hpresent⟩
  have hp :=
    hholds.oneProbability ht hroom hcap hblock hop hreading hvalid h.block.isFinite h.positive
  have hreads := readsOne_of_oneProbability hp
  rw [← hplace] at hop
  have hcurrent := current_prepare hop shotIdx
  have hdecision := decision_prepare_of_mz hop hmz h.status hvalid hpresent shotIdx
  -- The outcome is certain, so the projector is renormalized by exactly one.
  have hscratch : ((lane.step job shotIdx).prepare job shotIdx).shot.scratch =
      ((lane.step job shotIdx).ready job).scratch.overlay
      (projector (b.testBit op.q1) false 1) := by
    have hcollapse : ((lane.step job shotIdx).prepare job shotIdx).shot.scratch =
        (((lane.step job shotIdx).ready job).collapse op.q1 false).scratch :=
      congrArg (·.2.2.1) hdecision
    rw [hcollapse]
    unfold Shot.collapse Shot.inject
    rw [hreads, hp]
    cases b.testBit op.q1 with
    | false =>
        have hunit : (1 : Float32) / Scalar.sqrt (1 - 0) = 1 := by decide +kernel
        simp only [Bool.false_eq_true, if_false, hunit]
        rfl
    | true =>
        have hunit : (1 : Float32) / Scalar.sqrt 1 = 1 := by decide +kernel
        simp only [if_true, hunit]
        rfl
  -- The projector keeps the entry of `b`, and all other entries are null already.
  have hbasis : IsBasis b ((lane.step job shotIdx).step job shotIdx).block := by
    rw [block_step ht hroom hsize]
    refine isBasis_of_projection ht (placed_prepare _ job shotIdx hroom) hsize h.block
      (congrArg (·.1) hdecision) (congrArg (·.2.1) hdecision)
      (h.renormalize_prepare hop (Op.not_isResetAll_of_isReading hreading) shotIdx) ?_ ?_
    · rw [hcurrent, hscratch]
      cases b.testBit op.q1 <;> exact Shot.get_overlay _ rfl (by decide)
    · rw [hcurrent, hscratch]
      intro k hk hne
      cases hbit : b.testBit op.q1 <;> rw [hbit] at hne <;>
        obtain rfl | rfl | rfl | rfl : k = 0 ∨ k = 1 ∨ k = 2 ∨ k = 3 := by omega
      all_goals first | exact absurd rfl hne | exact Shot.get_overlay _ rfl (by decide)
  have hharmless : op.Harmless job.batch.qubits :=
    ⟨Op.not_isResetAll_of_isReading hreading, by simp [Op.isUnsupported, hmz, Opcode.isKnown],
      hvalid⟩
  refine ⟨hbasis, total_step ht hroom hsize hbasis, ?_, ?_⟩
  · rw [shot_step, h.status_prepare hop hharmless]
  · have hkept : ((lane.step job shotIdx).prepare job shotIdx).shot.lost =
        ((lane.step job shotIdx).ready job).lost := congrArg (·.2.2.2) hdecision
    rw [shot_step, hkept, lost_ready, h.lost]

/-- A permutation gate maps basis states to basis states. -/
theorem step_of_permutation (hidle : job.idle.enabled = false) {lane : Lane Float32} {b : Nat}
    (h : lane.AtBasis b) (hblock : lane.block.size = job.layout.entriesPerShot) {op : Op Float32}
    (hop : job.ops[lane.shot.nextOp]? = some op) (hcode : op.code.isPermutation = true)
    (hvalid : validQubits job.batch.qubits op.qubits = true) (shotIdx : Nat) :
    (lane.step job shotIdx).AtBasis (op.code.source op.qubits b) := by
  have hharmless : op.Harmless job.batch.qubits :=
    ⟨Op.not_isResetAll_of_isPermutation hcode, Op.not_isUnsupported_of_isPermutation hcode, hvalid⟩
  have hpresent : op.qubits.any (lane.ready job).isLost = false :=
    List.any_eq_false.2 fun q _ => by rw [isLost_ready, h.isLost]; exact Bool.false_ne_true
  have hdecision := (prepare_of_ok hop hharmless.notReset h.status shotIdx).1.trans
    (Register.decision_resolve_of_permutation (r := ⟨lane.ready job, lane.slots⟩) hcode hvalid
      hpresent hidle lane.shot.nextOp)
  have hplaced := placed_prepare lane job shotIdx hroom
  have hselected : (lane.prepare job shotIdx).shot.selected = op.code := congrArg (·.1) hdecision
  have hgate : (lane.prepare job shotIdx).shot.selected.isPermutation = true := by
    rw [hselected, hcode]
  have hoperands : (lane.prepare job shotIdx).shot.mode.operands
      (job.current (lane.prepare job shotIdx).shot) = op.qubits := by
    rw [current_prepare hop shotIdx, Mode.operands, Shot.arity_mode_of_permutation hgate, hselected]
    rfl
  have hnodup := hplaced.nodup
  have hin := hplaced.lt
  rw [hoperands] at hnodup hin
  have hlength : op.qubits.length = op.code.arity := by
    rw [← hoperands, Mode.length_operands, Shot.arity_mode_of_permutation hgate, hselected]
  have hmoved : op.code.source op.qubits b < job.layout.entriesPerShot :=
    source_lt hin (hblock.symm ▸ h.block.lt : b < job.layout.entriesPerShot)
  have hbasis : IsBasis (op.code.source op.qubits b) (lane.step job shotIdx).block := by
    rw [block_step ht hroom hblock]
    intro i
    change (job.blockAfter _ lane.block).getD i 0 = _
    rw [Array.getD_eq_getD_getElem?]
    by_cases hi : i < job.layout.entriesPerShot
    · -- A permutation gate is its own inverse.
      have hback : op.code.source op.qubits i = b ↔ i = op.code.source op.qubits b :=
        ⟨fun hto => by rw [← hto, source_source hcode hlength hnodup],
          fun hfrom => by rw [hfrom, source_source hcode hlength hnodup]⟩
      rw [getElem?_blockAfter_of_permutation ht hplaced hblock hgate hi, hoperands, hselected,
        h.renormalize_prepare hop hharmless.notReset, Option.getD_some,
        Cplx.scale_one Single.mul_one, h.block.getD]
      simp only [hback]
    · rw [Array.getElem?_eq_none (by rw [Job.size_blockAfter, hblock]; omega), if_neg (by omega)]
      rfl
  refine ⟨hbasis, total_step ht hroom hblock hbasis, ?_, ?_⟩
  · rw [shot_step, h.status_prepare hop hharmless]
  · have hkept : (lane.prepare job shotIdx).shot.lost = (lane.ready job).lost :=
      congrArg (·.2.2.2) hdecision
    rw [shot_step, hkept, lost_ready, h.lost]

end Steps

end Lane.AtBasis

/-! ## Batches -/

/-- At step `i` of a batch a shot measures `b`, by its draw and in the slot of the measurement, if
there is one. -/
def Machine.Reads (m : Machine R) (batch : Batch R) (shotIdx i : Nat) (op : Op R)
    (b : Bool) : Prop :=
  ∃ before after, ((m.beginBatch batch).run i).lanes[shotIdx]? = some before ∧
    ((m.beginBatch batch).run (i + 1)).lanes[shotIdx]? = some after ∧
    (before.ready (m.batchJob batch)).readsOne op.q1 = b ∧
    (op.q2 < m.resultCount → after.slots[op.q2]? = some (.ofBit b))

/-- A measurement in a successful shot stores its outcome. -/
theorem Machine.reads_of_isReading {m : Machine R} {batch : Batch R} {shotIdx : Nat}
    (hshot : shotIdx < batch.shots) {i : Nat} {lane : Lane R}
    (hlane : ((m.beginBatch batch).run i).lanes[shotIdx]? = some lane)
    (hfits : lane.Fits m.layout m.resultsPerShot m.resultCount) (hplace : lane.shot.nextOp = i)
    {op : Op R} (hop : m.ops[i]? = some op) (hreading : op.isReading = true)
    (hok : lane.shot.status = .ok) (hvalid : validQubits batch.qubits op.qubits = true)
    (hpresent : lane.shot.isLost op.q1 = false) :
    m.Reads batch shotIdx i op ((lane.ready (m.batchJob batch)).readsOne op.q1) := by
  have hnext : ((m.beginBatch batch).run (i + 1)).lanes[shotIdx]? =
      some (lane.step (m.batchJob batch) shotIdx) := by
    rw [m.getElem?_lanes_run hshot, Option.map_eq_some_iff] at hlane ⊢
    obtain ⟨old, hold, rfl⟩ := hlane
    exact ⟨old, hold, Lane.after_succ ..⟩
  refine ⟨lane, _, hlane, hnext, rfl, fun hslot => ?_⟩
  refine Lane.slots_step_of_isReading ?_ hreading hok hvalid hpresent hslot ?_
  · rw [hplace]
    exact hop
  · rw [hfits.slots]
    exact Nat.lt_of_lt_of_le hslot (Nat.le_max_left _ _)

/-- Measurement is repeatable. Let a shot of a batch measure a qubit twice with no operation in
between that addresses the qubit or restarts the shot. If the qubit is present at the first
measurement, it is at the second. If moreover the shot is successful, its amplitudes are finite and
the norm collected before the second measurement is finite and positive, then both outcomes are
equal. -/
theorem measurement_repeatable (m : Machine Float32) {n perWorkgroup : Nat}
    (hlayout : m.layout = .ofCircuit n perWorkgroup) (hmin : minQubitsPerWorkgroup ≤ perWorkgroup)
    (hmax : perWorkgroup ≤ maxQubitsPerWorkgroup) (hfits : m.Fits) (batch : Batch Float32)
    (hroom : batch.qubits ≤ m.layout.qubitCount) (hcap : batch.qubits ≤ maxQubitCount)
    {shotIdx : Nat} (hshot : shotIdx < batch.shots) {i j : Nat} (hij : i < j)
    {first again : Op Float32} (hfirst : m.ops[i]? = some first) (hmz : first.code = .mz)
    (hagain : m.ops[j]? = some again) (hcode : again.code = .mz ∨ again.code = .mResetZ)
    (hsame : again.q1 = first.q1)
    (hbetween : ∀ k op, i < k → k < j → m.ops[k]? = some op →
      op.isResetAll = false ∧ first.q1 ∉ op.qubits) {before later : Lane Float32}
    (hbefore : ((m.beginBatch batch).run i).lanes[shotIdx]? = some before)
    (hlater : ((m.beginBatch batch).run j).lanes[shotIdx]? = some later)
    (hpresent : before.shot.isLost first.q1 = false)
    (hok : later.shot.status = .ok) (hfinite : ∀ a ∈ later.block, a.IsFinite)
    (htotal : Scalar.Positive (Scalar.sum (later.sums.toList.map (·.total)))) :
    later.shot.isLost first.q1 = false ∧
      ∃ b, m.Reads batch shotIdx i first b ∧ m.Reads batch shotIdx j again b := by
  let job := m.batchJob batch
  obtain ⟨e, w, htiled⟩ := Layout.exists_tiled_ofCircuit n hmin hmax
  have ht : job.layout.Tiled e w := by
    rw [← hlayout] at htiled
    exact htiled
  have hreading : again.isReading = true := Op.isReading_iff.2 hcode
  have hinside : j < m.ops.size := (Array.getElem?_eq_some_iff.1 hagain).1
  obtain ⟨old, hold, rfl⟩ : ∃ old, m.lanes[shotIdx]? = some old ∧
      Lane.after { old with shot := 0 } job shotIdx i = before := by
    rw [m.getElem?_lanes_run hshot, Option.map_eq_some_iff] at hbefore
    exact hbefore
  let begun : Lane Float32 := { old with shot := 0 }
  have hlanes : ∀ count, ((m.beginBatch batch).run count).lanes[shotIdx]? =
      some (begun.after job shotIdx count) := by
    intro count
    rw [m.getElem?_lanes_run hshot, hold]
    rfl
  obtain rfl : begun.after job shotIdx j = later := Option.some.inj ((hlanes j).symm.trans hlater)
  have hroomy :
      ∀ count, (begun.after job shotIdx count).Fits m.layout m.resultsPerShot m.resultCount :=
    Lane.fits_after ht (hfits old (Array.mem_of_getElem? hold)).begun shotIdx
  have hplace : ∀ count ≤ j, (begun.after job shotIdx count).shot.nextOp = count := by
    intro count hcount
    have hzero : begun.shot.nextOp = 0 := rfl
    have hsize : job.ops.size = m.ops.size := rfl
    rw [Lane.nextOp_after shotIdx (by omega), hzero, Nat.zero_add]
  -- The lane at step `j` is the lane at step `i`, `count + 1` steps on.
  obtain ⟨count, rfl⟩ := Nat.exists_eq_add_of_lt hij
  have hsplit : begun.after job shotIdx (i + count + 1) =
      (begun.after job shotIdx i).after job shotIdx (count + 1) :=
        begun.after_add job shotIdx i (count + 1)
  have hmeasures : first.isReading = true := Op.isReading_iff.2 (Or.inl hmz)
  have hhere := hplace i (by omega)
  have hnow : job.ops[(begun.after job shotIdx i).shot.nextOp]? = some first := by
    rw [hhere]; exact hfirst
  have hmiddle : ∀ k < count, ∃ op,
      job.ops[(begun.after job shotIdx i).shot.nextOp + 1 + k]? = some op ∧
      op.isResetAll = false ∧ first.q1 ∉ op.qubits := by
    intro k hk
    have hlt : i + 1 + k < m.ops.size := by omega
    rw [hhere]
    exact ⟨m.ops[i + 1 + k], Array.getElem?_eq_getElem hlt,
      hbetween (i + 1 + k) _ (by omega) (by omega) (Array.getElem?_eq_getElem hlt)⟩
  have hthen : job.ops[(begun.after job shotIdx i).shot.nextOp + 1 + count]? = some again := by
    rw [hhere, Nat.add_right_comm]
    exact hagain
  obtain ⟨hfirstOk, hvalid, hthere, hreads⟩ := Lane.reads_again ht hroom hcap
    (hroomy i) hnow hmz hmiddle hthen hreading hsame hpresent
    (hsplit ▸ hok) (hsplit ▸ hfinite) (hsplit ▸ htotal)
  rw [← hsplit] at hthere hreads
  have hvalidAgain : validQubits batch.qubits again.qubits = true := by
    rw [Op.qubits_eq_of_isReading hreading hmeasures hsame]
    exact hvalid
  -- What was read is what both measurements have written down.
  refine ⟨hthere, _,
    Machine.reads_of_isReading hshot (hlanes i) (hroomy i) hhere hfirst hmeasures hfirstOk
    hvalid hpresent, ?_⟩
  rw [← hreads, ← hsame]
  exact Machine.reads_of_isReading hshot (hlanes _) (hroomy _) (hplace _ (Nat.le_refl _)) hagain
    hreading hok
    hvalidAgain (hsame ▸ hthere)

def repeatedReading : List (Op Float32) := [.resetAll, .x 0, .mz 0 0, .x 1, .mz 0 1]

/-- The basis states before the two measurements of `repeatedReading` are 1 and 3. -/
theorem Lane.atBasis_after_repeatedReading {job : Job Float32} {e w : Nat}
    (ht : job.layout.Tiled e w) (hops : job.ops = repeatedReading.toArray)
    (hqubits : job.batch.qubits = 2) (hroom : job.batch.qubits ≤ job.layout.qubitCount)
    (hidle : job.idle.enabled = false) {lane : Lane Float32} {resultsPerShot resultCount : Nat}
    (hfits : lane.Fits job.layout resultsPerShot resultCount) (hstart : lane.shot.nextOp = 0) :
    (lane.after job 0 2).AtBasis 1 ∧ (lane.after job 0 4).AtBasis 3 := by
  have hsize : ∀ count, (lane.after job 0 count).block.size = job.layout.entriesPerShot :=
    fun count => (fits_after ht hfits 0 count).block
  have hplace : ∀ count ≤ 5, (lane.after job 0 count).shot.nextOp = count := by
    intro count hcount
    have hlength : job.ops.size = 5 := by rw [hops]; rfl
    rw [nextOp_after 0 (by omega), hstart, Nat.zero_add]
  have hnow : ∀ count ≤ 5, job.ops[(lane.after job 0 count).shot.nextOp]? =
      repeatedReading[count]? := by
    intro count hcount
    rw [hplace count hcount, hops, List.getElem?_toArray]
  have hvalid : ∀ op ∈ repeatedReading.tail, validQubits job.batch.qubits op.qubits = true := by
    rw [hqubits]
    decide
  -- One fact for each step: restart, flip, measurement, flip.
  have hfresh : (lane.after job 0 1).AtBasis 0 :=
    atBasis_step_of_resetAll ht hroom hfits.block (hnow 0 (by decide)) rfl 0
  have hflipped : (lane.after job 0 2).AtBasis 1 := by
    rw [after_succ]
    exact hfresh.step_of_permutation ht hroom hidle (hsize 1) (hnow 1 (by decide)) rfl
      (hvalid _ (by simp [repeatedReading])) 0
  have hmeasured : (lane.after job 0 3).AtBasis 1 := by
    have hnext : (lane.after job 0 2).shot.nextOp = (lane.after job 0 1).shot.nextOp + 1 := by
      rw [hplace 1 (by decide), hplace 2 (by decide)]
    have hreads := hnow 2 (by decide)
    have hwide := hsize 2
    rw [hnext] at hreads
    rw [after_succ] at hflipped hnext hwide
    rw [after_succ, after_succ]
    exact hflipped.step_of_mz ht hroom (by rw [hqubits]; decide) (hsize 1) hwide hnext hreads rfl
      (hvalid _ (by simp [repeatedReading]))
  refine ⟨hflipped, ?_⟩
  rw [after_succ]
  exact hmeasured.step_of_permutation ht hroom hidle (hsize 3) (hnow 3 (by decide)) rfl
    (hvalid _ (by simp [repeatedReading])) 0

def repeatingMachine : Machine Float32 :=
  (Machine.fresh.load repeatedReading 0).prepareRun ⟨2, .ofCircuit 2 12, 2, 4, 1, 1, 1, 5⟩

/-- A qubit in state 1, measured twice with a gate on another qubit in between. -/
theorem measurement_repeatable_flipped :
    ∃ before later, ((repeatingMachine.beginBatch ⟨0, 0, 1, 2, 0⟩).run 2).lanes[0]? = some before ∧
      ((repeatingMachine.beginBatch ⟨0, 0, 1, 2, 0⟩).run 4).lanes[0]? = some later ∧
      before.AtBasis 1 ∧ later.AtBasis 3 ∧
      ∃ b, repeatingMachine.Reads ⟨0, 0, 1, 2, 0⟩ 0 2 (.mz 0 0) b ∧
        repeatingMachine.Reads ⟨0, 0, 1, 2, 0⟩ 0 4 (.mz 0 1) b := by
  have hfits : repeatingMachine.Fits := Machine.fits_prepareRun _ _
  have hin : 0 < repeatingMachine.lanes.size := by
    rw [repeatingMachine, Machine.size_lanes_prepareRun]
    decide
  obtain ⟨old, hold⟩ : ∃ old, repeatingMachine.lanes[0]? = some old :=
    ⟨_, Array.getElem?_eq_getElem hin⟩
  have hlanes : ∀ count, ((repeatingMachine.beginBatch ⟨0, 0, 1, 2, 0⟩).run count).lanes[0]? =
      some (Lane.after { old with shot := 0 } (repeatingMachine.batchJob ⟨0, 0, 1, 2, 0⟩)
        0 count) := by
    intro count
    rw [repeatingMachine.getElem?_lanes_run (by decide), hold, Option.map_some]
  obtain ⟨e, w, ht⟩ : ∃ e w, (repeatingMachine.batchJob ⟨0, 0, 1, 2, 0⟩).layout.Tiled e w :=
    Layout.exists_tiled_ofCircuit 2 (by decide : minQubitsPerWorkgroup ≤ 12) (by decide)
  obtain ⟨hbefore, hlater⟩ := Lane.atBasis_after_repeatedReading ht rfl rfl (by decide) rfl
    (hfits old (Array.mem_of_getElem? hold)).begun rfl
  -- The flip of qubit 1 is all that happens between the two measurements.
  have hbetween : ∀ k op, 2 < k → k < 4 → repeatingMachine.ops[k]? = some op →
      op.isResetAll = false ∧ (Op.mz 0 0 : Op Float32).q1 ∉ op.qubits := by
    intro k op hlow hhigh hop
    obtain rfl : k = 3 := by omega
    obtain rfl : Op.x 1 = op := Option.some.inj hop
    exact ⟨rfl, by decide⟩
  refine ⟨_, _, hlanes 2, hlanes 4, hbefore, hlater, ?_⟩
  exact (measurement_repeatable repeatingMachine rfl (by decide) (by decide) hfits
    ⟨0, 0, 1, 2, 0⟩ (by decide) (by decide) (by decide) (by decide : 2 < 4) rfl rfl rfl (Or.inl rfl)
    rfl hbetween (hlanes 2) (hlanes 4) (hbefore.isLost _) hlater.status hlater.block.isFinite
    hlater.positive).2

end ShotSim
