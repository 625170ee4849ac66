import Mathlib.Data.List.Basic
import ShotSim.Proofs.MachineRun

/-!
# Resolve — what an operation can do to a control block

An operation decides on a step, may collapse or lose a qubit and moves the clock.  Who the shot is
and where its random stream stands are none of its business, and it acts on no qubit that is lost.

* `Shot.Keeps`, `keeps_resolve` — what deciding does not touch;
* `id_after` — after a restart a shot goes by its own id;
* `Shot.Treats`, `treats_prepare` — how a decided step treats the qubits that are lost.
-/

namespace ShotSim

variable {R : Type} [Scalar R]

/-- The fields that resolving an operation keeps. -/
structure Shot.Keeps (s s' : Shot R) : Prop where
  id : s'.id = s.id
  nextOp : s'.nextOp = s.nextOp
  rng : s'.rng = s.rng
  draws : s'.draws = s.draws
  renormalize : s'.renormalize = s.renormalize

namespace Shot

omit [Scalar R] in
theorem Keeps.rfl {s : Shot R} : Keeps s s := ⟨.refl _, .refl _, .refl _, .refl _, .refl _⟩

omit [Scalar R] in
/-- `Keeps` is transitive. -/
theorem Keeps.trans {s t u : Shot R} (h : Keeps s t) (h' : Keeps t u) : Keeps s u :=
  ⟨h'.id.trans h.id, h'.nextOp.trans h.nextOp, h'.rng.trans h.rng, h'.draws.trans h.draws,
    h'.renormalize.trans h.renormalize⟩

theorem keeps_charge (s : Shot R) (busy : Nat) (duration : R) (n : Nat) :
    s.Keeps (s.charge busy duration n) := by
  unfold charge
  split <;> constructor <;> rfl

theorem keeps_accrue (s : Shot R) (op : Op R) (params : IdleParams R) (n : Nat) :
    s.Keeps (s.accrue op params n) := by
  unfold accrue
  -- A region opens, a region closes, or time passes inside or outside of one.
  split
  · split <;> constructor <;> rfl
  · split
    · exact (keeps_charge s _ _ n).trans ⟨rfl, rfl, rfl, rfl, rfl⟩
    · exact .rfl
  · dsimp only
    split
    · constructor <;> rfl
    · exact keeps_charge s _ _ n

theorem keeps_injectDecay (s : Shot R) (params : IdleParams R) (op : Op R) :
    s.Keeps (s.injectDecay params op) := by
  unfold injectDecay
  dsimp only
  split <;> constructor <;> rfl

theorem keeps_applyPauli1 (s : Shot R) (op : Op R) : s.Keeps (s.applyPauli1 op) := by
  unfold applyPauli1
  dsimp only
  split <;> constructor <;> rfl

theorem keeps_applyPauli2 (s : Shot R) (op : Op R) : s.Keeps (s.applyPauli2 op) := by
  unfold applyPauli2
  dsimp only
  split <;> constructor <;> rfl

theorem keeps_applyLoss (s : Shot R) (op : Op R) : s.Keeps (s.applyLoss op) := by
  unfold applyLoss
  split <;> constructor <;> rfl

end Shot

namespace Register

/-- A measurement satisfies `Keeps`. -/
theorem keeps_measure (r : Register R) (job : Job R) (op : Op R) (lost : Bool) :
    r.shot.Keeps (r.measure job op lost).shot := by
  unfold measure setSlot
  dsimp only
  split <;> [skip; split] <;> cases lost <;> constructor <;> rfl

/-- Branch selection satisfies `Keeps`. -/
theorem keeps_select (r : Register R) (job : Job R) (op : Op R) (lost : Bool) :
    r.shot.Keeps (r.select job op lost).shot := by
  exact select_cases (P := fun r' => r.shot.Keeps r'.shot) r job op lost .rfl
    (fun _ => ⟨rfl, rfl, rfl, rfl, rfl⟩) (fun _ => r.keeps_measure job op lost)
    (fun _ => r.shot.keeps_applyPauli1 op) (fun _ => r.shot.keeps_applyPauli2 op)
    (fun _ _ => r.shot.keeps_applyLoss op)

/-- `resolve` satisfies `Keeps`. -/
theorem keeps_resolve (r : Register R) (job : Job R) (op : Op R) (opIdx : Nat) :
    r.shot.Keeps (r.resolve job op opIdx).shot := by
  unfold resolve
  split
  · constructor <;> rfl
  · split
    · constructor <;> rfl
    · have hselect := r.keeps_select job op (op.qubits.any r.shot.isLost)
      dsimp only
      -- First the operation, then the decay that is due, then the clock.
      refine Shot.Keeps.trans ?_ (Shot.keeps_accrue _ op job.idle job.batch.qubits)
      split
      · exact hselect.trans (Shot.keeps_injectDecay _ job.idle op)
      · exact hselect

end Register

namespace Lane

theorem id_advance (lane : Lane R) (job : Job R) (op : Op R) (opIdx : Nat) :
    (lane.advance job op opIdx).shot.id = lane.shot.id := by
  by_cases hok : (lane.ready job).status = .ok
  · rw [advance_of_ok hok]
    exact (Register.keeps_resolve ⟨lane.ready job, lane.slots⟩ job op opIdx).id.trans
      (lane.id_ready job)
  · rw [advance_of_failed hok]
    exact lane.id_ready job

/-- A step keeps the id or sets it to that of the lane. -/
theorem id_prepare (lane : Lane R) (job : Job R) (shotIdx : Nat) :
    (lane.prepare job shotIdx).shot.id =
      if job.ops[lane.shot.nextOp]?.any Op.isResetAll
        then job.batch.firstShot + UInt32.ofNat shotIdx
      else lane.shot.id := by
  unfold prepare
  dsimp only
  cases job.ops[lane.shot.nextOp]? with
  | none => rfl
  | some op =>
      dsimp only [Option.any_some]
      split
      · rfl
      · exact lane.id_advance job op lane.shot.nextOp

/-- From its restart on a shot has the id of its lane. -/
theorem id_after {lane : Lane R} {job : Job R} (shotIdx : Nat) {op : Op R}
    (hop : job.ops[lane.shot.nextOp]? = some op) (hreset : op.isResetAll = true) {count : Nat}
    (hcount : 0 < count) :
    (lane.after job shotIdx count).shot.id = job.batch.firstShot + UInt32.ofNat shotIdx := by
  refine after_of_steps (fun lane => lane.shot.id = job.batch.firstShot + UInt32.ofNat shotIdx)
    ?_ ?_ hcount
  · rw [shot_step, id_prepare, hop, Option.any_some, hreset]
    rfl
  · intro lane h
    -- Another restart gives the shot the same id again.
    rw [shot_step, id_prepare, h]
    exact ite_self _

end Lane

/-! ## Lost qubits -/

namespace Shot

/-- Treatment of lost qubits by a prepared step: all are present again, or no lost qubit is an
operand, or one more is lost and left in 0. -/
inductive Treats (n lost : Nat) (op : Op R) (s : Shot R) : Prop
  | restarts (reset : s.mode = .resetAll) (none : s.lost = 0)
  | spares (kept : s.lost = lost)
      (free : ∀ q ∈ s.mode.operands op, q < n ∧ lost.testBit q = false)
  | loses (grown : s.lost = lost ||| 1 <<< op.q1) (circuit : op.q1 < n)
      (present : lost.testBit op.q1 = false) (selected : s.selected = .injected)
      (arity : s.injectedArity = 1) (empty : s.scratch.get 2 = 0 ∧ s.scratch.get 3 = 0)

/-- A step without operands treats the lost qubits correctly. -/
theorem Treats.of_arity_zero {n : Nat} {op : Op R} {s : Shot R} {lost : Nat} (kept : s.lost = lost)
    (h : s.mode.arity = 0) : Treats n lost op s := by
  refine .spares kept ?_
  rw [Mode.operands, h]
  simp

/-- The prepared step of a shot and its loss flags. -/
def decision (s : Shot R) : Opcode × Nat × Coeffs R × Nat :=
  (s.selected, s.injectedArity, s.scratch, s.lost)

omit [Scalar R] in
theorem mode_eq_of_decision {s t : Shot R} (h : s.decision = t.decision) : s.mode = t.mode := by
  have hselected : s.selected = t.selected := congrArg (·.1) h
  have harity : s.injectedArity = t.injectedArity := congrArg (·.2.1) h
  rw [mode, mode, hselected, harity]

/-- `Treats` depends on the decision only. -/
theorem Treats.of_decision {n lost : Nat} {op : Op R} {s t : Shot R} (h : s.decision = t.decision)
    (ht : Treats n lost op t) : Treats n lost op s := by
  have hmode := mode_eq_of_decision h
  have hlost : s.lost = t.lost := congrArg (·.2.2.2) h
  have hscratch : s.scratch = t.scratch := congrArg (·.2.2.1) h
  cases ht with
  | restarts reset none => exact .restarts (hmode.trans reset) (hlost.trans none)
  | spares kept free => exact .spares (hlost.trans kept) (hmode ▸ free)
  | loses grown circuit present selected arity empty =>
      exact .loses (hlost.trans grown) circuit present ((congrArg (·.1) h).trans selected)
        ((congrArg (·.2.1) h).trans arity) (hscratch ▸ empty)

theorem decision_charge (s : Shot R) (busy : Nat) (duration : R) (n : Nat) :
    (s.charge busy duration n).decision = s.decision := by
  unfold charge
  split <;> rfl

/-- `accrue` keeps the decision. -/
theorem decision_accrue (s : Shot R) (op : Op R) (params : IdleParams R) (n : Nat) :
    (s.accrue op params n).decision = s.decision := by
  unfold accrue
  split
  · split <;> rfl
  · split
    · exact decision_charge s _ _ n
    · rfl
  · dsimp only
    split
    · rfl
    · exact decision_charge s _ _ n

theorem lost_injectDecay (s : Shot R) (params : IdleParams R) (op : Op R) :
    (s.injectDecay params op).lost = s.lost := by
  unfold injectDecay
  dsimp only
  split <;> rfl

/-- `overlay` sets the leading coefficients. -/
theorem get_overlay (m : Coeffs R) {entries : List (Cplx R)} {i : Nat} {a : Cplx R}
    (h : entries[i]? = some a) (hi : i < coeffCapacity) : (m.overlay entries).get i = a := by
  simp [Coeffs.get, Coeffs.overlay, hi, h]

/-- A collapse with reset has an empty row of 1. -/
theorem scratch_collapse_reset (s : Shot R) (q : Nat) :
    (s.collapse q true).scratch.get 2 = 0 ∧ (s.collapse q true).scratch.get 3 = 0 := by
  unfold collapse inject projector
  dsimp only
  cases s.readsOne q with
  | true => exact ⟨get_overlay _ rfl (by decide), get_overlay _ rfl (by decide)⟩
  | false => exact ⟨get_overlay _ rfl (by decide), get_overlay _ rfl (by decide)⟩

end Shot

namespace Register

variable (r : Register R) (job : Job R) (op : Op R)

theorem lost_measure (lost : Bool) : (r.measure job op lost).shot.lost = r.shot.lost := by
  unfold measure setSlot
  dsimp only
  split <;> [skip; split] <;> cases lost <;> rfl

/-- Only a loss that fires changes the loss flags. -/
theorem lost_select {lost : Bool}
    (h : op.code = .loss → lost = false → Scalar.lt r.shot.draws.loss op.lossProbability = false) :
    (r.select job op lost).shot.lost = r.shot.lost := by
  refine select_cases (P := fun r' => r'.shot.lost = r.shot.lost) r job op lost rfl (fun _ => rfl)
    (fun _ => lost_measure r job op lost) ?pauli1 ?pauli2 ?loss
  case pauli1 =>
    intro _
    unfold Shot.applyPauli1
    dsimp only
    split <;> rfl
  case pauli2 =>
    intro _
    unfold Shot.applyPauli2
    dsimp only
    split <;> rfl
  case loss =>
    intro hcode hpresent
    simp only [Shot.applyLoss, h hcode hpresent, Bool.false_eq_true, if_false]

/-- No gate is selected for a lost qubit. -/
theorem arity_mode_select_of_lost (hid : r.shot.selected = .id) :
    (r.select job op true).shot.mode.arity = 0 := by
  have hnone : r.shot.mode.arity = 0 := by
    rw [Shot.mode_of_id hid]
    rfl
  have hmeasure : (r.measure job op true).shot = r.shot := by
    unfold measure setSlot
    dsimp only
    split <;> [rfl; (split <;> rfl)]
  unfold select
  split
  case h_5 => rfl
  case h_6 | h_7 | h_8 => rw [hmeasure, hnone]
  all_goals exact hnone

/-- A loss that fires flags its qubit and collapses it to 0. -/
theorem treats_select_of_fires {n : Nat} (hcode : op.code = .loss)
    (hfires : Scalar.lt r.shot.draws.loss op.lossProbability = true) (hcircuit : op.q1 < n)
    (hpresent : r.shot.lost.testBit op.q1 = false) :
    (r.select job op false).shot.Treats n r.shot.lost op := by
  have hselect : (r.select job op false).shot =
      ({ r.shot with lost := r.shot.lost ||| 1 <<< op.q1 } : Shot R).collapse op.q1 true := by
    simp [select, hcode, Shot.applyLoss, hfires]
  rw [hselect]
  exact .loses rfl hcircuit hpresent rfl rfl (Shot.scratch_collapse_reset _ _)

/-- `resolve` satisfies `Treats`. -/
theorem treats_resolve (opIdx : Nat) (hid : r.shot.selected = .id) :
    (r.resolve job op opIdx).shot.Treats job.batch.qubits r.shot.lost op := by
  have hplace := arity_mode_resolve_le r job op opIdx hid
  revert hplace
  unfold resolve
  split
  · exact fun _ => .of_arity_zero rfl rfl
  · split
    · exact fun _ => .of_arity_zero rfl rfl
    · rename_i hvalid
      have hvalid' : validQubits job.batch.qubits op.qubits = true := by simpa using hvalid
      generalize hany : op.qubits.any r.shot.isLost = lost
      dsimp only
      rw [Shot.mode_accrue]
      intro hplace
      -- The clock comes last and has no say.
      refine .of_decision (Shot.decision_accrue _ op job.idle job.batch.qubits) ?_
      cases lost with
      | true =>
          -- An operation with a lost qubit does nothing to the amplitudes.
          exact .of_arity_zero (lost_select r job op fun _ h => absurd h.symm Bool.false_ne_true)
            (arity_mode_select_of_lost r job op hid)
      | false =>
          have hpresent : ∀ q ∈ op.qubits, r.shot.lost.testBit q = false := by
            intro q hq
            exact Bool.eq_false_of_not_eq_true fun h => by
              simpa using List.any_eq_false.1 hany q hq h
          by_cases hfires : op.code = .loss ∧ Scalar.lt r.shot.draws.loss op.lossProbability = true
          · obtain ⟨hcode, hlt⟩ := hfires
            have hmem : op.q1 ∈ op.qubits := by simp [Op.qubits, hcode, Opcode.arity]
            have hdecay : op.code.takesDecay = false := by
              rw [hcode]
              rfl
            rw [if_neg (by simp [hdecay])]
            exact treats_select_of_fires r job op hcode hlt (lt_of_validQubits hvalid' _ hmem)
              (hpresent _ hmem)
          · -- Whatever else is decided acts on operands of the operation, and none of them is lost.
            refine .spares ?_ ?_
            · have hkept : (r.select job op false).shot.lost = r.shot.lost :=
                lost_select r job op fun hcode _ =>
                  Bool.eq_false_of_not_eq_true fun hlt => hfires ⟨hcode, hlt⟩
              split
              · rw [Shot.lost_injectDecay, hkept]
              · exact hkept
            · -- The step acts on nothing, or on the first few operands.
              rcases hplace with hempty | ⟨_, hle⟩
              · rw [hempty]
                simp
              · have hinitial := Mode.isPrefix_operands hle
                intro q hq
                exact ⟨lt_of_validQubits hvalid' q (hinitial.subset hq),
                  hpresent q (hinitial.subset hq)⟩

end Register

/-- `prepare` satisfies `Treats` for the qubits lost before. -/
theorem Lane.treats_prepare (lane : Lane R) (job : Job R) (shotIdx : Nat) :
    (lane.prepare job shotIdx).shot.Treats job.batch.qubits lane.shot.lost
      (job.current (lane.prepare job shotIdx).shot) := by
  unfold prepare
  dsimp only
  split
  · exact .of_arity_zero rfl rfl
  · rename_i op hop
    have hcurrent : ∀ shot : Shot R, job.current { shot with
        collect := if job.readsProbabilities (lane.shot.nextOp + 1) then 1 else 0
        opIdx := lane.shot.nextOp
        nextOp := lane.shot.nextOp + 1 } = op := by
      intro shot
      simp [Job.current, hop]
    rw [hcurrent]
    split
    · exact .restarts rfl rfl
    · by_cases hok : (lane.ready job).status = .ok
      · rw [advance_of_ok hok, ← lane.lost_ready job]
        have hresolve := Register.treats_resolve ⟨lane.ready job, lane.slots⟩ job op
          lane.shot.nextOp rfl
        exact Shot.Treats.of_decision (by rfl) hresolve
      · rw [advance_of_failed hok]
        exact .of_arity_zero (lane.lost_ready job) rfl

end ShotSim
