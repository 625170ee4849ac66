import ShotSim.Proofs.QubitMaps
import ShotSim.Proofs.RealScalar

/-!
# Fused decay — decay and gate as one operator

A qubit that has waited long enough decays just before the next gate on it.  The step multiplies the
two matrices beforehand and goes over the amplitudes once, with a matrix that it reads off the gate
in its own way.  In exact arithmetic this is what the decay by itself and then the gate by itself
would do.

* `takesDecay_iff` — the gates that take up decay;
* `Register.decision_resolve_of_gate` — the step that is decided on, with decay and without;
* `Lane.carryOutFused`, `Lane.shows_carryOutFused` — any matrix fused with a gate;
* `Lane.shows_step_of_gate` — a step of a shot;
* `decay_fuses_with_gate` — one step against two.
-/

namespace ShotSim

variable {R : Type} [Scalar R]

/-! ## Deciding -/

/-- Exactly the single-qubit gate opcodes absorb decay. -/
theorem takesDecay_iff {code : Opcode} :
    code.takesDecay = true ↔ ∃ op : Op R, op.IsGate1 ∧ op.code = code := by
  constructor
  · intro h
    cases code with
    | id => exact ⟨_, .identity 0, rfl⟩
    | move => exact ⟨_, .move 0, rfl⟩
    | x => exact ⟨_, .x 0, rfl⟩
    | y => exact ⟨_, .y 0, rfl⟩
    | z => exact ⟨_, .z 0, rfl⟩
    | h => exact ⟨_, .h 0, rfl⟩
    | s => exact ⟨_, .s 0, rfl⟩
    | sAdj => exact ⟨_, .sAdj 0, rfl⟩
    | t => exact ⟨_, .t 0, rfl⟩
    | tAdj => exact ⟨_, .tAdj 0, rfl⟩
    | sx => exact ⟨_, .sx 0, rfl⟩
    | sxAdj => exact ⟨_, .sxAdj 0, rfl⟩
    | rx => exact ⟨_, .rx 0 0, rfl⟩
    | ry => exact ⟨_, .ry 0 0, rfl⟩
    | rz => exact ⟨_, .rz 0 0, rfl⟩
    | matrix => exact ⟨_, .matrix 0 [], rfl⟩
    | _ => cases h
  · rintro ⟨op, hop, rfl⟩
    cases hop <;> rfl

namespace Op.IsGate1

variable {op : Op R} (hop : op.IsGate1)

include hop

theorem qubits_eq : op.qubits = [op.q1] := by
  cases hop <;> rfl

theorem supported : (!op.code.isKnown || op.code = .injected) = false := by
  cases hop <;> rfl

theorem not_isResetAll : op.isResetAll = false := by
  cases hop <;> rfl

/-- A gate selects itself when no noise was selected. -/
theorem select_eq {r : Register R} (hid : r.shot.selected = .id) (job : Job R) :
    (r.select job op false).shot = { r.shot with selected := op.selection } := by
  have hsame : r.shot = { r.shot with selected := .id } := by rw [← hid]
  cases hop with
  | identity | move => exact hsame
  | _ => rfl

end Op.IsGate1

def Shot.decayOf (s : Shot R) (params : IdleParams R) (q : Nat) : List (Cplx R) :=
  params.decay (s.qubit q).idle (s.qubit q).oneProbability s.draws.damping s.draws.dephase

/-- A gate on a present qubit resolves to itself, or with decay due to the product of its matrix and
the decay matrix. -/
theorem Register.decision_resolve_of_gate {r : Register R} (hid : r.shot.selected = .id)
    {job : Job R} {op : Op R} (hop : op.IsGate1) (hvalid : op.q1 < job.batch.qubits)
    (hpresent : r.shot.isLost op.q1 = false) (opIdx : Nat) :
    (r.resolve job op opIdx).shot.decision =
      if job.idle.isDue (r.shot.qubit op.q1) then
        (.injected, 1, Coeffs.ofList (compose1 op.gate (r.shot.decayOf job.idle op.q1)),
          r.shot.lost)
      else (op.selection, r.shot.injectedArity, r.shot.scratch, r.shot.lost) := by
  have hqubits : validQubits job.batch.qubits op.qubits = true := by
    rw [hop.qubits_eq]
    simp [validQubits, hvalid]
  have hlost : op.qubits.any r.shot.isLost = false := by
    rw [hop.qubits_eq]
    simp [hpresent]
  have hdecay : op.code.takesDecay = true := takesDecay_iff.2 ⟨op, hop, rfl⟩
  have hselect := hop.select_eq hid job
  have hgate : ({ r.shot with selected := op.selection } : Shot R).gateMatrix op = op.gate :=
    Shot.gateMatrix_of_selection rfl
  unfold resolve
  rw [if_neg (by simp [hop.supported]), if_neg (by simp [hqubits]), hlost]
  dsimp only
  rw [Shot.decision_accrue, hdecay, Bool.not_false, Bool.true_and, if_pos rfl, hselect]
  unfold Shot.injectDecay
  rw [hgate]
  dsimp only
  have hstate : ({ r.shot with selected := op.selection } : Shot R).qubit op.q1 =
    r.shot.qubit op.q1 := rfl
  rw [hstate]
  split <;> rfl

/-- `decision_resolve_of_gate` for the step of a lane. -/
theorem Lane.decision_prepare_of_gate {lane : Lane R} {job : Job R} {op : Op R} (hop : op.IsGate1)
    (hthis : job.ops[lane.shot.nextOp]? = some op) (hok : lane.shot.status = .ok)
    (hvalid : op.q1 < job.batch.qubits) (hpresent : lane.shot.isLost op.q1 = false)
    (shotIdx : Nat) :
    (lane.prepare job shotIdx).shot.decision =
      if job.idle.isDue ((lane.ready job).qubit op.q1) then
        (.injected, 1, Coeffs.ofList (compose1 op.gate ((lane.ready job).decayOf job.idle op.q1)),
          (lane.ready job).lost)
      else (op.selection, (lane.ready job).injectedArity, (lane.ready job).scratch,
        (lane.ready job).lost) := by
  rw [(prepare_of_ok hthis hop.not_isResetAll hok shotIdx).1]
  exact Register.decision_resolve_of_gate (r := ⟨lane.ready job, lane.slots⟩) rfl hop hvalid
    ((lane.isLost_ready job op.q1).trans hpresent) _

/-! ## Carrying out -/

/-- The matrix of a gate given by its entries. -/
theorem Op.getD_gate_matrix (q : Nat) (k : List (Cplx R)) {i : Nat} (hi : i < 4) :
    (Op.matrix q k).gate.getD i 0 = k.getD i 0 := by
  have hcap : i < coeffCapacity := Nat.lt_of_lt_of_le hi (by decide)
  calc (Op.matrix q k).gate.getD i 0 = (Coeffs.ofList (k.take 4)).get i := Coeffs.getD_dense2 _ hi
    _ = (k.take 4).getD i 0 := Coeffs.get_ofList _ hcap
    _ = k.getD i 0 := by
        rw [List.getD_eq_getElem?_getD, List.getElem?_take_of_lt hi, ← List.getD_eq_getElem?_getD]

namespace Lane

/-- Executes a gate fused with a matrix `k` acting before it. -/
def carryOutFused (lane : Lane R) (job : Job R) (op : Op R) (k : List (Cplx R))
    (factor : R) : Lane R :=
  let shot := { lane.shot with selected := op.selection, opIdx := 0, renormalize := factor }
  execute
    { lane with
      shot := { shot with scratch := Coeffs.zero }.inject 1 (compose1 (shot.gateMatrix op) k) }
    { job with ops := #[op] }

section Execute

variable (h : Scalar.RingLaws R) {job : Job R} {e w : Nat} (ht : job.layout.Tiled e w)

include h ht

/-- The amplitudes after the fused operator. -/
theorem shows_carryOutFused {op : Op R} (hq : op.q1 < job.layout.qubitCount) {lane : Lane R}
    {amps : Nat → Cplx R} (hshows : Shows lane.block job.layout.entriesPerShot amps)
    (k : List (Cplx R)) (factor : R) :
    Shows (lane.carryOutFused job op k factor).block job.layout.entriesPerShot
      (onQubit (compose1 op.gate k) op.q1 fun i => (amps i).scale factor) := by
  let alone : Job R := { job with ops := #[op] }
  let shot : Shot R :=
    { lane.shot with selected := op.selection, opIdx := 0, renormalize := factor }
  let fused : Lane R :=
    { lane with
      shot := { shot with scratch := Coeffs.zero }.inject 1 (compose1 (shot.gateMatrix op) k) }
  have htiled : alone.layout.Tiled e w := ht
  have hfused : Shows fused.block alone.layout.entriesPerShot amps := hshows
  have hgate : shot.gateMatrix op = op.gate := Shot.gateMatrix_of_selection rfl
  have hcurrent : alone.current fused.shot = op := rfl
  have hentry : ∀ i < 4, fused.shot.scratch.get i = (compose1 op.gate k).getD i 0 := by
    intro i hi
    rw [← hgate]
    exact Coeffs.get_ofList _ (Nat.lt_of_lt_of_le hi (by decide))
  have hstep :=
    shows_execute_of_injected1 h htiled hfused (by rw [hcurrent]; exact hq) rfl rfl hentry
  rw [hcurrent] at hstep
  exact hstep

/-- The amplitudes after a decay matrix and a gate applied in sequence. -/
theorem shows_carryOut_carryOut {op : Op R} (hop : op.IsGate1) (hq : op.q1 < job.layout.qubitCount)
    {lane : Lane R} {amps : Nat → Cplx R} (hshows : Shows lane.block job.layout.entriesPerShot amps)
    (k : List (Cplx R)) (factor : R) :
    Shows ((lane.carryOut job (.matrix op.q1 k) factor).carryOut job op 1).block
      job.layout.entriesPerShot
      (onQubit (compose1 op.gate k) op.q1 fun i => (amps i).scale factor) := by
  have hfirst := shows_carryOut h ht (.matrix op.q1 k) hq hshows factor
  have hsecond := shows_carryOut h ht hop hq hfirst 1
  have hmatrix : ∀ amps, onQubit (Op.matrix op.q1 k).gate op.q1 amps = onQubit k op.q1 amps :=
    onQubit_congr (fun i hi => Op.getD_gate_matrix op.q1 k hi) _
  rw [← onQubit_onQubit h, ← hmatrix]
  simp only [Cplx.scale_one h.mul_one] at hsecond
  exact hsecond

/-- The amplitudes after a gate step, with and without decay due. -/
theorem shows_step_of_gate {op : Op R} (hop : op.IsGate1) (hq : op.q1 < job.layout.qubitCount)
    {lane : Lane R} {amps : Nat → Cplx R} (hshows : Shows lane.block job.layout.entriesPerShot amps)
    (hthis : job.ops[lane.shot.nextOp]? = some op) (hok : lane.shot.status = .ok)
    (hvalid : op.q1 < job.batch.qubits) (hpresent : lane.shot.isLost op.q1 = false)
    (shotIdx : Nat) :
    Shows (lane.step job shotIdx).block job.layout.entriesPerShot
      (onQubit (if job.idle.isDue ((lane.ready job).qubit op.q1)
          then compose1 op.gate ((lane.ready job).decayOf job.idle op.q1) else op.gate)
        op.q1 fun i => (amps i).scale (lane.ready job).renormalize) := by
  obtain ⟨hprepared, hcurrent, hscale⟩ := shows_prepare hthis hop.not_isResetAll hshows shotIdx
  have hdecision := decision_prepare_of_gate hop hthis hok hvalid hpresent shotIdx
  rw [← hscale]
  by_cases hdue : job.idle.isDue ((lane.ready job).qubit op.q1) = true
  · rw [if_pos hdue] at hdecision ⊢
    have hscratch : (lane.prepare job shotIdx).shot.scratch = Coeffs.ofList (compose1 op.gate _) :=
      congrArg (·.2.2.1) hdecision
    have hstep := shows_execute_of_injected1 h ht hprepared (by rw [hcurrent]; exact hq)
      (congrArg (·.1) hdecision) (congrArg (·.2.1) hdecision) fun i hi => by
        rw [hscratch]
        exact Coeffs.get_ofList _ (Nat.lt_of_lt_of_le hi (by decide))
    rw [hcurrent] at hstep
    exact hstep
  · rw [if_neg hdue] at hdecision ⊢
    exact shows_execute_of_gate h ht hprepared hop hq hcurrent (congrArg (·.1) hdecision)

end Execute

end Lane

/-- The product of a decay matrix and a gate matrix, applied as one operator, equals applying the
decay and then the gate in its own shape without rescaling. A step with a gate on a qubit whose
decay is due computes this product; otherwise the gate acts alone. -/
theorem decay_fuses_with_gate (h : Scalar.RingLaws R) {n m : Nat} (hmin : minQubitsPerWorkgroup ≤ m)
    (hmax : m ≤ maxQubitsPerWorkgroup) (job : Job R) (hlayout : job.layout = .ofCircuit n m)
    {op : Op R} (hop : op.IsGate1) (hq : op.q1 < job.layout.qubitCount) (lane : Lane R)
    (hblock : lane.block.size = job.layout.entriesPerShot) :
    (∀ (k : List (Cplx R)) (factor : R), (lane.carryOutFused job op k factor).block =
      ((lane.carryOut job (.matrix op.q1 k) factor).carryOut job op 1).block) ∧
    ∀ shotIdx, job.ops[lane.shot.nextOp]? = some op → lane.shot.status = .ok →
      op.q1 < job.batch.qubits → lane.shot.isLost op.q1 = false →
      let now := lane.ready job
      (job.idle.isDue (now.qubit op.q1) = true →
        (lane.prepare job shotIdx).shot.selected = .injected ∧ (lane.step job shotIdx).block =
          ((lane.carryOut job (.matrix op.q1 (now.decayOf job.idle op.q1)) now.renormalize).carryOut
            job op 1).block) ∧
      (job.idle.isDue (now.qubit op.q1) = false →
        (lane.step job shotIdx).block = (lane.carryOut job op now.renormalize).block) := by
  obtain ⟨e, w, htiled⟩ := Layout.exists_tiled_ofCircuit n hmin hmax
  have ht : job.layout.Tiled e w := hlayout ▸ htiled
  have hshows := Shows.of_size hblock
  refine ⟨fun k factor => ?_, fun shotIdx hthis hok hvalid hpresent => ?_⟩
  · exact (Lane.shows_carryOutFused h ht hq hshows k factor).eq
      (Lane.shows_carryOut_carryOut h ht hop hq hshows k factor)
  · have hdecision := Lane.decision_prepare_of_gate hop hthis hok hvalid hpresent shotIdx
    have hstep := Lane.shows_step_of_gate h ht hop hq hshows hthis hok hvalid hpresent shotIdx
    refine ⟨fun hdue => ?_, fun hdue => ?_⟩
    · rw [if_pos hdue] at hdecision hstep
      exact ⟨congrArg (·.1) hdecision,
        hstep.eq (Lane.shows_carryOut_carryOut h ht hop hq hshows _ _)⟩
    · rw [if_neg (by simp [hdue])] at hstep
      exact hstep.eq (Lane.shows_carryOut h ht hop hq hshows _)

noncomputable def waitedJob : Job ℝ where
  ops := #[.rz 1 3]
  batch := ⟨0, 0, 1, 10, 0⟩
  idle := ⟨1, 1, 0, true, Vector.replicate _ 0⟩
  layout := .ofCircuit 10 8
  resultCount := 0

noncomputable def waitedLane : Lane ℝ :=
  { Lane.blank (.ofCircuit 10 8) 0 0 with
    shot := (0 : Shot ℝ).setQubit 3 { (0 : QubitState ℝ) with idle := 1 }
    block := Array.replicate 1024 1 }

/-- A rotation on a qubit with decay due. -/
theorem decay_fuses_with_rotation :
    let now := waitedLane.ready waitedJob
    waitedJob.idle.isDue (now.qubit 3) = true ∧
      (waitedLane.step waitedJob 0).block =
        ((waitedLane.carryOut waitedJob (.matrix 3 (now.decayOf waitedJob.idle 3))
          now.renormalize).carryOut
          waitedJob (.rz 1 3) 1).block := by
  have hidle : ((waitedLane.ready waitedJob).qubit 3).idle = 1 :=
    (waitedLane.frozen_ready waitedJob).idle 3
  have hdue : waitedJob.idle.isDue ((waitedLane.ready waitedJob).qubit 3) = true := by
    rw [IdleParams.isDue, hidle]
    simp [waitedJob, Scalar.lt, Scalar.le]
  have hfuses :=
    decay_fuses_with_gate ringLaws_real (by decide) (by decide) waitedJob rfl (.rz 1 3) (by decide)
    waitedLane (Array.size_replicate ..)
  exact ⟨hdue, ((hfuses.2 0 rfl rfl (by decide) rfl).1 hdue).2⟩

end ShotSim
