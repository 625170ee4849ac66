import Mathlib.Data.List.Basic
import ShotSim.Proofs.FreshStart

/-!
# Echoes — lanes that do the same at different places

What a lane does next is decided by its own memory and by a few things that it reads.  Where in a
stream it stands is not one of them, nor which lane of which batch it is, as long as its shot has
the same id.

* `Shot.shift` — the same control block further down a stream;
* `Job.Follows` — what a lane reads that does what another one does, perhaps further down a longer
  stream, perhaps with another threshold for reports or another schedule;
* `Lane.Echoes` — the two lanes have the same memory but for their places;
* `Lane.Echoes.after` — they go on doing the same.
-/

namespace ShotSim

variable {R : Type} [Scalar R]

/-! ## Control blocks further down a stream -/

namespace Shot

/-- The control block `p` operations further down a stream. Only a failed shot records an operation
index. -/
def shift (p : Nat) (s : Shot R) : Shot R :=
  { s with
    nextOp := p + s.nextOp
    opIdx := p + s.opIdx
    statusOp := if s.status = .ok then s.statusOp else p + s.statusOp }

variable (p : Nat) (s : Shot R)

omit [Scalar R] in
@[simp] theorem shift_zero : s.shift 0 = s := by
  obtain ⟨⟩ := s
  simp [shift]

/-! Nothing that a step computes looks at the place, so all of it commutes with a shift. -/

/-- Collating workgroup sums commutes with shifting the program counter. -/
theorem takeCollation_shift (sums : Array (Sums R)) (n : Nat) :
    (s.shift p).takeCollation sums n = (s.takeCollation sums n).shift p := by
  unfold takeCollation
  dsimp only
  rw [apply_ite (shift p)]
  rfl

/-- Single-qubit Pauli noise commutes with `shift`. -/
theorem applyPauli1_shift (op : Op R) :
    (s.shift p).applyPauli1 op = (s.applyPauli1 op).shift p := by
  unfold applyPauli1
  dsimp only
  rw [apply_ite (shift p)]
  rfl

/-- Two-qubit Pauli noise commutes with `shift`. -/
theorem applyPauli2_shift (op : Op R) :
    (s.shift p).applyPauli2 op = (s.applyPauli2 op).shift p := by
  unfold applyPauli2
  dsimp only
  rw [apply_ite (shift p)]
  rfl

/-- Loss commutes with `shift`. -/
theorem applyLoss_shift (op : Op R) : (s.shift p).applyLoss op = (s.applyLoss op).shift p := by
  unfold applyLoss
  rw [apply_ite (shift p)]
  rfl

/-- Decay injection commutes with `shift`. -/
theorem injectDecay_shift (params : IdleParams R) (op : Op R) :
    (s.shift p).injectDecay params op = (s.injectDecay params op).shift p := by
  unfold injectDecay
  dsimp only
  rw [apply_ite (shift p)]
  rfl

theorem charge_shift (busy : Nat) (duration : R) (n : Nat) :
    (s.shift p).charge busy duration n = (s.charge busy duration n).shift p := by
  unfold charge
  dsimp only
  rw [apply_ite (shift p)]
  rfl

/-- Idle time accounting commutes with `shift`. -/
theorem accrue_shift (op : Op R) (params : IdleParams R) (n : Nat) :
    (s.shift p).accrue op params n = (s.accrue op params n).shift p := by
  unfold accrue
  split
  · rw [apply_ite (shift p)]
    rfl
  · rw [apply_ite (shift p), charge_shift]
    rfl
  · dsimp only
    rw [apply_ite (shift p), charge_shift]
    rfl

omit [Scalar R] in
/-- A failure at `p + opIdx` is the shifted failure at `opIdx`. -/
theorem fail_shift {code : StatusCode} (h : code ≠ .ok) (opIdx : Nat) :
    (s.shift p).fail code (p + opIdx) = (s.fail code opIdx).shift p := by
  simp [fail, shift, h]

end Shot

namespace Register

/-- The register with its control block shifted. -/
def shift (p : Nat) (r : Register R) : Register R := { r with shot := r.shot.shift p }

variable (p : Nat) (r : Register R) (job : Job R) (op : Op R)

/-- Measurement commutes with `shift`. -/
theorem measure_shift (lost : Bool) :
    (r.shift p).measure job op lost = (r.measure job op lost).shift p := by
  unfold measure setSlot
  cases lost <;> simp only [apply_ite (shift p)] <;> rfl

/-- Branch selection commutes with `shift`. -/
theorem select_shift (lost : Bool) :
    (r.shift p).select job op lost = (r.select job op lost).shift p := by
  unfold select
  split
  -- Only measurements, noise and gates do more than pick the next action.
  case h_6 | h_7 | h_8 => exact measure_shift p r job op lost
  case h_9 =>
    cases lost with
    | true => rfl
    | false => exact congrArg (Register.mk · r.slots) (r.shot.applyPauli1_shift p op)
  case h_10 =>
    cases lost with
    | true => rfl
    | false => exact congrArg (Register.mk · r.slots) (r.shot.applyPauli2_shift p op)
  case h_11 =>
    cases lost with
    | true => rfl
    | false => exact congrArg (Register.mk · r.slots) (r.shot.applyLoss_shift p op)
  case h_12 => cases lost <;> rfl
  all_goals rfl

/-- `resolve` commutes with `shift`; only a failure records the operation index. -/
theorem resolve_shift (opIdx : Nat) :
    (r.shift p).resolve job op (p + opIdx) = (r.resolve job op opIdx).shift p := by
  unfold resolve
  split
  · exact congrArg (Register.mk · r.slots) (r.shot.fail_shift p (by decide) opIdx)
  · split
    · exact congrArg (Register.mk · r.slots) (r.shot.fail_shift p (by decide) opIdx)
    · have hlost : op.qubits.any (r.shift p).shot.isLost = op.qubits.any r.shot.isLost := rfl
      dsimp only
      rw [hlost, select_shift]
      simp only [shift]
      rw [Shot.injectDecay_shift, ← apply_ite (Shot.shift p), Shot.accrue_shift]

end Register

/-! ## Jobs that a shot cannot tell apart -/

/-- From operation `p` on the stream of `job'` is that of `job`, and shots `i` and `i'` read the
same data. Under `alike`, thresholds and schedules agree as well. -/
structure Job.Follows (alike : Prop) (p : Nat) (job job' : Job R) (i i' : Nat) : Prop where
  ops : ∀ j, job'.ops[p + j]? = job.ops[j]?
  idle : job'.idle = job.idle
  layout : job'.layout = job.layout
  resultCount : job'.resultCount = job.resultCount
  qubits : job'.batch.qubits = job.batch.qubits
  seed : job'.batch.seed = job.batch.seed
  id : job'.batch.firstShot + UInt32.ofNat i' = job.batch.firstShot + UInt32.ofNat i
  threshold : alike → job'.batch.threshold = job.batch.threshold
  schedule : alike → ∀ id idx, job'.schedule id (p + idx) = job.schedule id idx

namespace Job.Follows

variable {alike : Prop} {p i i' : Nat} {job job' : Job R} (h : Follows alike p job job' i i')

include h

omit [Scalar R] in
/-- The look-ahead of the longer job at `p + idx` is that of the suffix at `idx`. -/
theorem readsProbabilities_eq (idx : Nat) :
    job'.readsProbabilities (p + idx) = job.readsProbabilities idx := by
  simp only [readsProbabilities, h.ops, h.idle]

theorem resolve_eq (r : Register R) (op : Op R) (opIdx : Nat) :
    r.resolve job' op opIdx = r.resolve job op opIdx := by
  simp only [Register.resolve, Register.select, Register.measure, h.resultCount, h.qubits, h.idle]

/-- A restart is the same in both jobs. -/
theorem restart_eq (s : Shot R) : s.restart job'.batch i' = s.restart job.batch i := by
  simp only [Shot.restart, h.id, h.seed, h.qubits]

/-- Shifted shots see the same current operation. -/
theorem current_eq (s : Shot R) : job'.current (s.shift p) = job.current s := by
  simp only [current, Shot.shift, h.ops]

theorem action_eq (s : Shot R) : job'.action (s.shift p) = job.action s := by
  simp only [action, h.current_eq]
  rfl

theorem workerShare_eq (s : Shot R) : job'.workerShare (s.shift p) = job.workerShare s := by
  funext worker
  simp only [workerShare, h.current_eq, h.layout]
  rfl

theorem share_eq (s : Shot R) : job'.share (s.shift p) = job.share s := by
  funext workgroup
  simp only [share, h.current_eq, h.layout]
  rfl

theorem shares_eq (s : Shot R) : job'.shares (s.shift p) = job.shares s := by
  simp only [shares, h.share_eq, h.layout]

/-- Shifted shots have the same block after a step. -/
theorem blockAfter_eq (s : Shot R) (block : Array (Cplx R)) :
    job'.blockAfter (s.shift p) block = job.blockAfter s block := by
  simp only [blockAfter, h.action_eq, h.shares_eq]

theorem shareSums_eq (s : Shot R) (w : Window R) :
    job'.shareSums (s.shift p) w = job.shareSums s w := by
  funext workgroup
  simp only [shareSums, h.action_eq, h.workerShare_eq, h.qubits]
  rfl

/-- With equal thresholds, shifted shots make the same reports. -/
theorem reportsOf_eq (halike : alike) (s : Shot R) (w : Window R) (gs : List (List Nat)) :
    job'.reportsOf (s.shift p) w gs = job.reportsOf s w gs := by
  simp only [reportsOf, h.threshold halike]
  rfl

/-- With equal schedules, shifted shots have the same arrivals. -/
theorem arrivals_eq (halike : alike) (s : Shot R) (block : Array (Cplx R)) :
    job'.arrivals (s.shift p) block = job.arrivals s block := by
  have hschedule : job'.schedule (s.shift p).id (s.shift p).opIdx = job.schedule s.id s.opIdx :=
    h.schedule halike s.id s.opIdx
  simp only [arrivals, hschedule, h.layout, h.share_eq, h.reportsOf_eq halike]

end Job.Follows

/-! ## Lanes that do the same -/

/-- Lane `b` equals lane `a` shifted by `p` operations. Under `alike`, their logs agree as well. -/
structure Lane.Echoes (alike : Prop) (p : Nat) (a b : Lane R) : Prop where
  shot : b.shot = a.shot.shift p
  block : b.block = a.block
  sums : b.sums = a.sums
  slots : b.slots = a.slots
  log : alike → b.log = a.log

namespace Lane.Echoes

variable {alike : Prop} {p i i' : Nat} {job job' : Job R} (h : job.Follows alike p job' i i')
  {a b : Lane R}

include h

/-- `advance` preserves `Echoes`. -/
theorem advance (hab : Echoes alike p a b) (op : Op R) (opIdx : Nat) :
    Echoes alike p (a.advance job op opIdx) (b.advance job' op (p + opIdx)) := by
  -- Both lanes go into the operation with the same draws and the same collation.
  have hready : b.ready job' = (a.ready job).shift p := by
    have hdraw : (a.shot.shift p).draw = a.shot.draw.shift p := rfl
    simp only [Lane.ready, hab.shot, hab.sums, h.qubits, hdraw, Shot.takeCollation_shift]
    rfl
  have hresolve : Register.resolve ⟨b.ready job', b.slots⟩ job' op (p + opIdx) =
      (Register.resolve ⟨a.ready job, a.slots⟩ job op opIdx).shift p := by
    rw [h.resolve_eq, hready, hab.slots]
    exact Register.resolve_shift p ⟨a.ready job, a.slots⟩ job op opIdx
  by_cases hok : (a.ready job).status = .ok
  · have hok' : (b.ready job').status = .ok := by
      rw [hready]
      exact hok
    rw [advance_of_ok hok, advance_of_ok hok', hresolve]
    exact ⟨rfl, hab.block, hab.sums, rfl, hab.log⟩
  · have hok' : (b.ready job').status ≠ .ok := by
      rw [hready]
      exact hok
    rw [advance_of_failed hok, advance_of_failed hok', hready]
    exact ⟨rfl, hab.block, hab.sums, hab.slots, hab.log⟩

/-- `prepare` preserves `Echoes`. -/
theorem prepare (hab : Echoes alike p a b) :
    Echoes alike p (a.prepare job i) (b.prepare job' i') := by
  have hadvance := advance h hab
  -- With both lanes taken apart, `b` is `a` with its place moved, up to the log.
  obtain ⟨shot, block, sums, log, slots⟩ := a
  obtain ⟨shot', block', sums', log', slots'⟩ := b
  obtain ⟨hshot, hblock, hsums, hslots, hlog⟩ := hab
  dsimp only at hshot hblock hsums hslots hlog
  subst hshot hblock hsums hslots
  have hnext : (shot.shift p).nextOp = p + shot.nextOp := rfl
  have hreads : job'.readsProbabilities (p + shot.nextOp + 1) =
      job.readsProbabilities (shot.nextOp + 1) := h.readsProbabilities_eq (shot.nextOp + 1)
  unfold Lane.prepare
  dsimp only
  rw [hnext, h.ops, hreads]
  cases job.ops[shot.nextOp]? with
  | none => exact ⟨rfl, rfl, rfl, rfl, hlog⟩
  | some op =>
      dsimp only
      split
      · -- A restart keeps nothing of the shot but its place.
        refine ⟨?_, rfl, rfl, ?_, ?_⟩
        · simp only [restart, h.restart_eq]
          rfl
        · simp only [restart, h.resultCount]
        · intro halike
          simp only [restart, hlog halike]
      · have hop := hadvance op shot.nextOp
        refine ⟨?_, hop.block, hop.sums, hop.slots, hop.log⟩
        dsimp only
        rw [hop.shot]
        rfl

section Tiled

variable {e w : Nat} (ht : job.layout.Tiled e w)

include ht

/-- `execute` preserves `Echoes` on well-placed lanes. -/
theorem execute (hab : Echoes alike p a b)
    (hplaced : a.shot.Placed (job.current a.shot) job.layout.qubitCount)
    (hblock : a.block.size = job.layout.entriesPerShot) :
    Echoes alike p (a.execute job) (b.execute job') := by
  have ht' : job'.layout.Tiled e w := h.layout ▸ ht
  have hplaced' : b.shot.Placed (job'.current b.shot) job'.layout.qubitCount := by
    rw [hab.shot, h.current_eq, h.layout]
    exact ⟨hplaced.nodup, hplaced.lt⟩
  have hblock' : b.block.size = job'.layout.entriesPerShot := by
    rw [hab.block, h.layout, hblock]
  -- In closed form a step reads the place, the threshold and the schedule only for its reports.
  rw [execute_eq ht hplaced hblock, execute_eq ht' hplaced' hblock']
  refine ⟨hab.shot, ?_, ?_, hab.slots, ?_⟩
  · rw [hab.shot, hab.block, h.blockAfter_eq]
  · rw [hab.shot, hab.block, h.shareSums_eq, h.layout]
  · intro halike
    rw [hab.shot, hab.block, h.arrivals_eq halike, hab.log halike]

/-- A run of steps preserves `Echoes`. -/
theorem after (hroom : job.batch.qubits ≤ job.layout.qubitCount) (hab : Echoes alike p a b)
    {resultsPerShot resultCount : Nat} (ha : a.Fits job.layout resultsPerShot resultCount)
    (count : Nat) : Echoes alike p (a.after job i count) (b.after job' i' count) := by
  induction count generalizing a b with
  | zero => exact hab
  | succ count ih =>
      have hblock : (a.prepare job i).block.size = job.layout.entriesPerShot := by
        rw [(a.prepare_frame job i).1, ha.block]
      have hstep : Echoes alike p (a.step job i) (b.step job' i') :=
        (hab.prepare h).execute h ht (placed_prepare a job i hroom) hblock
      exact ih hstep (fits_step ht ha i)

end Tiled

end Lane.Echoes

end ShotSim
