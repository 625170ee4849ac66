import Mathlib.Data.List.Basic
import ShotSim.Proofs.MachineRun
import ShotSim.Proofs.Workgroups

/-!
# Restarts — what is left in memory leaves no trace

The memory of a machine outlives its batches.  A stream begins by starting every shot over, and from
then on nothing that a shot reports can depend on what the memory held before.

* `ReportLog.Agree`, `Lane.Agree` — equal in all that can still be read;
* `agree_step_of_resetAll` — a restart makes any two lanes agree;
* `execute_appends` — what carrying out a step reads, and what it leaves of the rest;
* `Agree.after` — lanes that agree go on to agree;
* `runStream_outcome_eq` — the outcome of a stream does not depend on the machine.
-/

namespace ShotSim

variable {R : Type} [Scalar R]

/-! ## Logs -/

section Logs

variable {R : Type}

/-- Equal cursors and capacities, and equal slots below the cursor. -/
structure ReportLog.Agree (a b : ReportLog R) : Prop where
  cursor : a.cursor = b.cursor
  room : a.slots.size = b.slots.size
  kept : ∀ i < a.cursor.toNat, a.slots[i]? = b.slots[i]?

namespace ReportLog.Agree

/-- Empty logs of equal capacity agree. -/
theorem of_cursor_zero {a b : ReportLog R} (ha : a.cursor = 0) (hb : b.cursor = 0)
    (hroom : a.slots.size = b.slots.size) : a.Agree b := by
  refine ⟨ha.trans hb.symm, hroom, ?_⟩
  intro i hi
  rw [ha] at hi
  exact absurd hi (Nat.not_lt_zero i)

theorem push {a b : ReportLog R} (h : a.Agree b) (record : Record R) :
    (a.push record).Agree (b.push record) := by
  refine ⟨by simp only [ReportLog.push, h.cursor], by simp [ReportLog.push, h.room], ?_⟩
  intro i hi
  simp only [ReportLog.push, Array.getElem?_setIfInBounds, ← h.cursor, ← h.room]
  by_cases hlast : a.cursor.toNat = i
  · simp [hlast]
  · -- Below the new report, unless the count of reports has come round to zero.
    have hbelow : i < a.cursor.toNat := by
      simp only [ReportLog.push, UInt32.toNat_add] at hi
      have hle := Nat.mod_le (a.cursor.toNat + (1 : UInt32).toNat) (2 ^ 32)
      have hone : (1 : UInt32).toNat = 1 := rfl
      omega
    simp [hlast, h.kept i hbelow]

/-- Pushing the same records keeps logs in agreement. -/
theorem foldl_push {a b : ReportLog R} (h : a.Agree b) (records : List (Record R)) :
    (records.foldl ReportLog.push a).Agree (records.foldl ReportLog.push b) := by
  induction records generalizing a b with
  | nil => exact h
  | cons record rest ih => exact ih (h.push record)

/-- Agreeing logs keep the same records. -/
theorem kept_eq {a b : ReportLog R} (h : a.Agree b) : ReportLog.kept a = ReportLog.kept b := by
  apply List.ext_getElem?
  intro i
  simp only [ReportLog.kept, List.getElem?_take, Array.getElem?_toList, ← h.cursor]
  split
  · rename_i hi
    exact h.kept i hi
  · rfl

end ReportLog.Agree

@[simp] theorem size_slots_foldl_push (records : List (Record R)) (log : ReportLog R) :
    (records.foldl ReportLog.push log).slots.size = log.slots.size := by
  induction records generalizing log with
  | nil => rfl
  | cons record rest ih => rw [List.foldl_cons, ih, ReportLog.push, Array.size_setIfInBounds]

end Logs

/-! ## Measurement slots -/

/-- The write of a step to the measurement slots: at most one. -/
def writeSlot (write : Option (Nat × Outcome)) (slots : Array Outcome) : Array Outcome :=
  match write with
  | none => slots
  | some (slot, outcome) => slots.setIfInBounds slot outcome

theorem size_writeSlot (write : Option (Nat × Outcome)) (slots : Array Outcome) :
    (writeSlot write slots).size = slots.size := by
  cases write with
  | none => rfl
  | some w => simp [writeSlot]

/-- `writeSlot` preserves agreement at a slot. -/
theorem getElem?_writeSlot_congr (write : Option (Nat × Outcome)) {a b : Array Outcome}
    (hsize : a.size = b.size) {i : Nat} (h : a[i]? = b[i]?) :
    (writeSlot write a)[i]? = (writeSlot write b)[i]? := by
  cases write with
  | none => exact h
  | some w =>
      simp only [writeSlot, Array.getElem?_setIfInBounds, hsize, h]

namespace Register

/-- The control block after a measurement is independent of the slots, and at most one slot is
written. -/
theorem measure_writes (shot : Shot R) (job : Job R) (op : Op R) (lost : Bool) :
    ∃ write, ∀ slots, measure ⟨shot, slots⟩ job op lost =
      ⟨(measure ⟨shot, #[]⟩ job op lost).shot, writeSlot write slots⟩ := by
  unfold measure setSlot
  dsimp only
  by_cases hreset : op.code = .reset
  · exact ⟨none, fun slots => by simp only [if_pos hreset]; rfl⟩
  · by_cases hslot : op.q2 < job.resultCount
    · exact ⟨some (op.q2, _), fun slots => by simp only [if_neg hreset, if_pos hslot]; rfl⟩
    · exact ⟨none, fun slots => by simp only [if_neg hreset, if_neg hslot]; rfl⟩

/-- `measure_writes` for branch selection. -/
theorem select_writes (shot : Shot R) (job : Job R) (op : Op R) (lost : Bool) :
    ∃ write, ∀ slots, select ⟨shot, slots⟩ job op lost =
      ⟨(select ⟨shot, #[]⟩ job op lost).shot, writeSlot write slots⟩ := by
  unfold select
  split
  -- Only measurements write.
  case h_6 | h_7 | h_8 => exact measure_writes shot job op lost
  case h_9 | h_10 | h_11 | h_12 => cases lost <;> exact ⟨none, fun slots => rfl⟩
  all_goals exact ⟨none, fun slots => rfl⟩

/-- `measure_writes` for a whole operation. -/
theorem resolve_writes (shot : Shot R) (job : Job R) (op : Op R) (opIdx : Nat) :
    ∃ write, ∀ slots, resolve ⟨shot, slots⟩ job op opIdx =
      ⟨(resolve ⟨shot, #[]⟩ job op opIdx).shot, writeSlot write slots⟩ := by
  unfold resolve
  split
  · exact ⟨none, fun slots => rfl⟩
  · split
    · exact ⟨none, fun slots => rfl⟩
    · rcases select_writes shot job op (op.qubits.any shot.isLost) with ⟨write, hselect⟩
      refine ⟨write, fun slots => ?_⟩
      dsimp only
      rw [hselect slots]

end Register

/-! ## Lanes -/

/-- The buffers of a lane have the sizes set by the machine. -/
structure Lane.Fits (lane : Lane R) (layout : Layout) (resultsPerShot resultCount : Nat) :
    Prop where
  block : lane.block.size = layout.entriesPerShot
  room : lane.log.slots.size = resultsPerShot
  slots : lane.slots.size = max resultCount 1

/-- Replacing the control block preserves `Fits`. -/
theorem Lane.Fits.begun {lane : Lane R} {layout : Layout} {resultsPerShot resultCount : Nat}
    (h : lane.Fits layout resultsPerShot resultCount) :
    Fits { lane with shot := 0 } layout resultsPerShot resultCount :=
  ⟨h.block, h.room, h.slots⟩

/-- Equality of lanes in everything readable but their logs. -/
structure Lane.Matches (resultCount : Nat) (a b : Lane R) : Prop where
  shot : a.shot = b.shot
  block : a.block = b.block
  sums : a.sums = b.sums
  slotCount : a.slots.size = b.slots.size
  slots : ∀ i < resultCount, a.slots[i]? = b.slots[i]?

/-- Equality of lanes in everything readable. -/
structure Lane.Agree (resultCount : Nat) (a b : Lane R) :
    Prop extends Lane.Matches resultCount a b where
  log : a.log.Agree b.log

namespace Lane

omit [Scalar R] in
/-- Matching lanes read the same outcomes. -/
theorem Matches.measured {a b : Lane R} {resultCount : Nat} (h : Matches resultCount a b) :
    a.slots.toList.take resultCount = b.slots.toList.take resultCount := by
  apply List.ext_getElem?
  intro i
  simp only [List.getElem?_take, Array.getElem?_toList]
  split
  · rename_i hi
    exact h.slots i hi
  · rfl

omit [Scalar R] in
/-- Agreeing lanes have the same result. -/
theorem Agree.result_eq {a b : Lane R} {resultCount : Nat} (h : Agree resultCount a b)
    (stream : Stream R) (qubits : Nat) :
    a.result stream qubits resultCount = b.result stream qubits resultCount := by
  have hsorted : a.log.sorted = b.log.sorted := by
    rw [ReportLog.sorted, ReportLog.sorted, h.log.kept_eq]
  have hdropped : a.log.dropped = b.log.dropped := by
    rw [ReportLog.dropped, ReportLog.dropped, h.log.cursor, h.log.room]
  simp only [result, RunResults.shotResult, h.shot, h.measured, hsorted, hdropped]

/-! ### Deciding -/

/-- Frame of `prepare`: the block, the sums and the log slots are untouched, and the measurement
slots keep their number. -/
theorem prepare_frame (lane : Lane R) (job : Job R) (shotIdx : Nat) :
    (lane.prepare job shotIdx).block = lane.block ∧ (lane.prepare job shotIdx).sums = lane.sums ∧
      (lane.prepare job shotIdx).log.slots = lane.log.slots ∧
      (lane.prepare job shotIdx).slots.size = lane.slots.size := by
  unfold prepare
  dsimp only
  split
  · exact ⟨rfl, rfl, rfl, rfl⟩
  · split
    · exact ⟨rfl, rfl, rfl, by simp [restart, Register.clearSlots]⟩
    · unfold advance
      dsimp only
      split
      · rename_i op _ _ _
        rcases Register.resolve_writes
          { lane.shot.draw.takeCollation lane.sums job.batch.qubits with
            selected := .id, injectedArity := 0 } job op lane.shot.nextOp with ⟨write, hresolve⟩
        refine ⟨rfl, rfl, rfl, ?_⟩
        dsimp only
        rw [hresolve, size_writeSlot]
      · exact ⟨rfl, rfl, rfl, rfl⟩

/-- A restart resolves to `resetAll` from the restarted lane. -/
theorem prepare_of_resetAll {lane : Lane R} {job : Job R} {op : Op R}
    (hop : job.ops[lane.shot.nextOp]? = some op) (hreset : op.isResetAll = true) (shotIdx : Nat) :
    lane.prepare job shotIdx =
      { lane.restart job shotIdx with
        shot := { lane.shot.restart job.batch shotIdx with
          collect := if job.readsProbabilities (lane.shot.nextOp + 1) then 1 else 0
          opIdx := lane.shot.nextOp
          nextOp := lane.shot.nextOp + 1 } } := by
  rw [prepare, hop]
  dsimp only
  rw [if_pos hreset]
  rfl

/-- Clearing makes the visible slots equal. -/
theorem getElem?_clearSlots_congr {a b : Array Outcome} (hsize : a.size = b.size)
    {resultCount i : Nat} (hi : i < resultCount) :
    (Register.clearSlots a resultCount)[i]? = (Register.clearSlots b resultCount)[i]? := by
  simp only [Register.clearSlots, Array.getElem?_mapIdx, hi, if_true]
  by_cases hin : i < a.size
  · simp [hin, hsize ▸ hin]
  · simp [hin, hsize ▸ hin]

/-- `prepare` preserves `Matches`. -/
theorem Matches.prepare {a b : Lane R} {job : Job R} (h : Matches job.resultCount a b)
    (shotIdx : Nat) : Matches job.resultCount (a.prepare job shotIdx) (b.prepare job shotIdx) := by
  obtain ⟨shot, block, sums, log, slots⟩ := a
  obtain ⟨shot', block', sums', log', slots'⟩ := b
  obtain ⟨rfl, rfl, rfl, hcount, hslots⟩ := h
  unfold Lane.prepare
  dsimp only
  split
  · -- The program is over.
    exact ⟨rfl, rfl, rfl, hcount, hslots⟩
  · rename_i op _
    split
    · -- A restart empties the slots.
      refine ⟨rfl, rfl, rfl, ?_, ?_⟩
      · simpa [restart, Register.clearSlots] using hcount
      · intro i hi
        exact getElem?_clearSlots_congr hcount hi
    · unfold advance
      dsimp only
      split
      · -- Both lanes resolve the operation alike and write the same slot.
        rcases Register.resolve_writes { shot.draw.takeCollation sums job.batch.qubits with
            selected := .id, injectedArity := 0 } job op shot.nextOp with ⟨write, hresolve⟩
        rw [hresolve slots, hresolve slots']
        refine ⟨rfl, rfl, rfl, ?_, ?_⟩
        · simpa only [size_writeSlot] using hcount
        · intro i hi
          exact getElem?_writeSlot_congr write hcount (hslots i hi)
      · exact ⟨rfl, rfl, rfl, hcount, hslots⟩

/-- `prepare` keeps the log unless the shot restarts. -/
theorem log_prepare_eq (lane : Lane R) (job : Job R) (shotIdx : Nat) :
    (lane.prepare job shotIdx).log =
      if (job.ops[lane.shot.nextOp]?.map Op.isResetAll) = some true
        then { lane.log with cursor := 0 }
      else lane.log := by
  rw [prepare]
  cases hop : job.ops[lane.shot.nextOp]? with
  | none => rfl
  | some op =>
      cases hreset : op.isResetAll with
      | true => simp [hreset, restart]
      | false =>
          simp only [Option.map_some, hreset, Bool.false_eq_true, if_false, Option.some.injEq]
          unfold advance
          dsimp only
          split <;> rfl

/-- `prepare` preserves `Agree`. -/
theorem Agree.prepare {a b : Lane R} {job : Job R} (h : Agree job.resultCount a b) (shotIdx : Nat) :
    Agree job.resultCount (a.prepare job shotIdx) (b.prepare job shotIdx) := by
  refine ⟨h.toMatches.prepare shotIdx, ?_⟩
  rw [log_prepare_eq, log_prepare_eq, ← h.shot]
  split
  · exact .of_cursor_zero rfl rfl h.log.room
  · exact h.log

end Lane

/-! ### Carrying out -/

section Appends

variable (job : Job R) (shot : Shot R)

namespace Lane

/-- The amplitudes after a sequence of workgroups are independent of the log, and their reports are
appended to it. -/
theorem runWhole_appends (order : List Nat) (w : Window R) :
    ∃ (w' : Window R) (reports : List (Record R)) (sums : List (Sums R)), ∀ log,
      runWhole job shot order ⟨w, log⟩ = (⟨w', reports.foldl ReportLog.push log⟩, sums) := by
  induction order generalizing w with
  | nil => exact ⟨w, [], [], fun _ => rfl⟩
  | cons workgroup rest ih =>
      rcases ih (w.runWorkgroup job shot workgroup).1 with ⟨w', reports, sums, hrest⟩
      refine ⟨w', w.workgroupReports job shot workgroup ++ reports,
        (w.runWorkgroup job shot workgroup).2 :: sums, fun log => ?_⟩
      rw [runWhole, Bench.runWorkgroup]
      dsimp only
      rw [hrest, List.foldl_append]

/-- `execute` is a function of the control block and the amplitudes: it replaces the sums, appends
to the log and keeps the slots. -/
theorem execute_appends (block : Array (Cplx R)) :
    ∃ (block' : Array (Cplx R)) (sums' : Array (Sums R)) (reports : List (Record R)),
      ∀ sums log slots, execute ⟨shot, block, sums, log, slots⟩ job =
        ⟨shot, block', sums', reports.foldl ReportLog.push log, slots⟩ := by
  by_cases hfits : fitsShard job shot = true
  · let run := runShards job shot block (List.range job.layout.workgroups)
    let owned := job.layout.workgroups * job.layout.entriesPerWorkgroup
    refine ⟨run.1 ++ block.extract owned block.size, run.2.toArray, shardReports job shot block,
      fun sums log slots => ?_⟩
    rw [execute, if_pos hfits]
    rfl
  · rcases runWhole_appends job shot (List.range job.layout.workgroups) ⟨0, block⟩ with
      ⟨w', reports, sums', hrun⟩
    refine ⟨w'.amps, sums'.toArray, reports, fun sums log slots => ?_⟩
    rw [execute, if_neg hfits, executeWhole, hrun]

end Lane

end Appends

namespace Lane

/-- `execute` preserves `Matches`, whatever the logs. -/
theorem Matches.execute {a b : Lane R} {resultCount : Nat} (h : Matches resultCount a b)
    (job : Job R) : Matches resultCount (a.execute job) (b.execute job) := by
  obtain ⟨shot, block, sums, log, slots⟩ := a
  obtain ⟨shot', block', sums', log', slots'⟩ := b
  obtain ⟨rfl, rfl, rfl, hcount, hslots⟩ := h
  rcases execute_appends job shot block with ⟨amps, left, reports, hrun⟩
  rw [hrun, hrun]
  exact ⟨rfl, rfl, rfl, hcount, hslots⟩

/-- `execute` preserves `Agree`. -/
theorem Agree.execute {a b : Lane R} {resultCount : Nat} (h : Agree resultCount a b) (job : Job R) :
    Agree resultCount (a.execute job) (b.execute job) := by
  obtain ⟨shot, block, sums, log, slots⟩ := a
  obtain ⟨shot', block', sums', log', slots'⟩ := b
  obtain ⟨⟨rfl, rfl, rfl, hcount, hslots⟩, hlog⟩ := h
  rcases execute_appends job shot block with ⟨amps, left, reports, hrun⟩
  rw [hrun, hrun]
  exact ⟨⟨rfl, rfl, rfl, hcount, hslots⟩, hlog.foldl_push reports⟩

/-- A run of steps preserves `Agree`. -/
theorem Agree.after {a b : Lane R} {job : Job R} (h : Agree job.resultCount a b)
    (shotIdx count : Nat) :
    Agree job.resultCount (a.after job shotIdx count) (b.after job shotIdx count) := by
  induction count generalizing a b with
  | zero => exact h
  | succ count ih => exact ih ((h.prepare shotIdx).execute job)

section Tiled

variable {job : Job R} {e w : Nat} (ht : job.layout.Tiled e w)

include ht

/-- `execute` establishes `Agree` if amplitudes, sums and reports coincide. -/
theorem agree_execute {a b : Lane R} {resultCount : Nat} (hshot : b.shot = a.shot)
    (hplaced : a.shot.Placed (job.current a.shot) job.layout.qubitCount)
    (hblock : a.block.size = job.layout.entriesPerShot)
    (hblock' : b.block.size = job.layout.entriesPerShot)
    (hamps : job.blockAfter a.shot a.block = job.blockAfter a.shot b.block)
    (hsums : job.shareSums a.shot ⟨0, a.block⟩ = job.shareSums a.shot ⟨0, b.block⟩)
    (hreports : job.arrivals a.shot a.block = job.arrivals a.shot b.block)
    (hlog : a.log.Agree b.log) (hcount : a.slots.size = b.slots.size)
    (hslots : ∀ i < resultCount, a.slots[i]? = b.slots[i]?) :
    Agree resultCount (a.execute job) (b.execute job) := by
  have hplaced' : b.shot.Placed (job.current b.shot) job.layout.qubitCount := hshot ▸ hplaced
  rw [execute_eq ht hplaced hblock, execute_eq ht hplaced' hblock', hshot, hamps, hsums, hreports]
  exact ⟨⟨rfl, rfl, rfl, hcount, hslots⟩, hlog.foldl_push _⟩

/-- The block after a restart is independent of the block before. -/
theorem blockAfter_of_resetAll {shot : Shot R} (hmode : shot.mode = .resetAll)
    (hplaced : shot.Placed (job.current shot) job.layout.qubitCount) {block block' : Array (Cplx R)}
    (hblock : block.size = job.layout.entriesPerShot)
    (hblock' : block'.size = job.layout.entriesPerShot) :
    job.blockAfter shot block = job.blockAfter shot block' := by
  have haction : job.action shot = .ground := by rw [Job.action, Action.ofShot, hmode]
  apply Array.ext_getElem?
  intro i
  by_cases hi : i < job.layout.entriesPerShot
  · -- The group of `i` becomes a ground state, whatever it held.
    have hmem : i ∈ (job.shares shot).flatten :=
      (perm_flatten_shares ht hplaced).mem_iff.2 (List.mem_range.2 hi)
    rcases List.mem_flatten.1 hmem with ⟨g, hg, hig⟩
    rcases List.getElem?_of_mem hig with ⟨p, hp⟩
    rw [← getElem?_act_eq_blockAfter ht hplaced hblock hg hp,
      ← getElem?_act_eq_blockAfter ht hplaced hblock' hg hp, haction]
    rfl
  · have hout := Nat.le_of_not_lt hi
    rw [Array.getElem?_eq_none (by rw [Job.size_blockAfter, hblock]; exact hout),
      Array.getElem?_eq_none (by rw [Job.size_blockAfter, hblock']; exact hout)]

omit ht in
/-- The sums after a restart are independent of the block before. -/
theorem shareSums_of_resetAll {shot : Shot R} (hmode : shot.mode = .resetAll) (v v' : Window R) :
    job.shareSums shot v = job.shareSums shot v' := by
  have haction : job.action shot = .ground := by rw [Job.action, Action.ofShot, hmode]
  funext workgroup
  rw [Job.shareSums, Job.shareSums, haction]
  rfl

/-- A restart makes any two lanes agree. -/
theorem agree_step_of_resetAll {a b : Lane R} (hshot : a.shot = b.shot) {op : Op R}
    (hop : job.ops[a.shot.nextOp]? = some op) (hreset : op.isResetAll = true) {resultsPerShot : Nat}
    (ha : a.Fits job.layout resultsPerShot job.resultCount)
    (hb : b.Fits job.layout resultsPerShot job.resultCount) (shotIdx : Nat) :
    Agree job.resultCount (a.step job shotIdx) (b.step job shotIdx) := by
  have hprepared := prepare_of_resetAll hop hreset shotIdx
  have hprepared' := prepare_of_resetAll (hshot ▸ hop) hreset shotIdx
  rw [← hshot] at hprepared'
  have hmode : (a.prepare job shotIdx).shot.mode = .resetAll := by
    rw [hprepared]
    rfl
  have hplaced : (a.prepare job shotIdx).shot.Placed (job.current (a.prepare job shotIdx).shot)
      job.layout.qubitCount := .of_operands_nil (by rw [hmode]; rfl)
  have hblock : (a.prepare job shotIdx).block.size = job.layout.entriesPerShot := by
    rw [(a.prepare_frame job shotIdx).1, ha.block]
  have hblock' : (b.prepare job shotIdx).block.size = job.layout.entriesPerShot := by
    rw [(b.prepare_frame job shotIdx).1, hb.block]
  have hquiet : ∀ block, job.arrivals (a.prepare job shotIdx).shot block = [] :=
    fun block => job.arrivals_of_not_extract block (by rw [hmode]; decide)
  refine agree_execute ht (by rw [hprepared, hprepared']) hplaced hblock hblock'
    (blockAfter_of_resetAll ht hmode hplaced hblock hblock') (shareSums_of_resetAll hmode _ _)
    (by rw [hquiet, hquiet]) ?_ ?_ ?_
  · -- Reports from before lie beyond the cursor.
    rw [hprepared, hprepared']
    exact .of_cursor_zero rfl rfl (ha.room.trans hb.room.symm)
  · rw [(a.prepare_frame job shotIdx).2.2.2, (b.prepare_frame job shotIdx).2.2.2,
      ha.slots, hb.slots]
  · intro i hi
    rw [hprepared, hprepared']
    exact getElem?_clearSlots_congr (ha.slots.trans hb.slots.symm) hi

/-- Lanes whose stream begins with a restart agree at the end, whatever their memory held. -/
theorem agree_after_of_blank {a b : Lane R} {op : Op R} (hop : job.ops[0]? = some op)
    (hreset : op.isResetAll = true) {resultsPerShot : Nat}
    (ha : a.Fits job.layout resultsPerShot job.resultCount)
    (hb : b.Fits job.layout resultsPerShot job.resultCount) (shotIdx : Nat) {count : Nat}
    (hcount : 0 < count) :
    Agree job.resultCount (after { a with shot := 0 } job shotIdx count)
      (after { b with shot := 0 } job shotIdx count) := by
  cases count with
  | zero => exact absurd hcount (Nat.lt_irrefl 0)
  | succ count =>
      have hshot : ({ a with shot := 0 } : Lane R).shot = ({ b with shot := 0 } : Lane R).shot :=
        rfl
      have hstep := agree_step_of_resetAll ht hshot hop hreset ha.begun hb.begun shotIdx
      exact hstep.after shotIdx count

theorem fits_step {lane : Lane R} {resultsPerShot resultCount : Nat}
    (h : lane.Fits job.layout resultsPerShot resultCount) (shotIdx : Nat) :
    (lane.step job shotIdx).Fits job.layout resultsPerShot resultCount := by
  rcases lane.prepare_frame job shotIdx with ⟨hblock, _, hlog, hslots⟩
  have hsize : (lane.prepare job shotIdx).block.size = job.layout.entriesPerShot := by
    rw [hblock, h.block]
  refine ⟨size_block_execute ht hsize, ?_, ?_⟩
  · rw [step, log_execute ht hsize, size_slots_foldl_push, hlog, h.room]
  · rw [step, slots_execute, hslots, h.slots]

/-- A run of steps preserves `Fits`. -/
theorem fits_after {lane : Lane R} {resultsPerShot resultCount : Nat}
    (h : lane.Fits job.layout resultsPerShot resultCount) (shotIdx count : Nat) :
    (lane.after job shotIdx count).Fits job.layout resultsPerShot resultCount := by
  induction count generalizing lane with
  | zero => exact h
  | succ count ih => exact ih (fits_step ht h shotIdx)

end Tiled

end Lane

/-! ## Machines -/

namespace Machine

/-- Every lane of the machine satisfies `Lane.Fits`. -/
def Fits (m : Machine R) : Prop :=
  ∀ lane ∈ m.lanes, lane.Fits m.layout m.resultsPerShot m.resultCount

/-- Machines with the same program and buffer sizes, whatever their memory holds. -/
structure SameSetup (m m' : Machine R) : Prop where
  ops : m'.ops = m.ops
  idle : m'.idle = m.idle
  layout : m'.layout = m.layout
  resultsPerShot : m'.resultsPerShot = m.resultsPerShot
  resultCount : m'.resultCount = m.resultCount
  fits : m.Fits
  fits' : m'.Fits

/-- `SameSetup` with equally many lanes and one schedule. -/
structure Alike (m m' : Machine R) : Prop extends SameSetup m m' where
  count : m'.lanes.size = m.lanes.size
  schedule : m'.pool.schedule = m.pool.schedule

omit [Scalar R] in
/-- Equally set up machines have the same job for a batch. -/
theorem SameSetup.batchJob_eq {m m' : Machine R} (h : SameSetup m m')
    (hschedule : m'.pool.schedule = m.pool.schedule) (batch : Batch R) :
    m'.batchJob batch = m.batchJob batch := by
  simp only [batchJob, h.ops, h.idle, h.layout, h.resultCount, hschedule]

/-- `prepareRun` allocates buffers that fit. -/
theorem fits_prepareRun (m : Machine R) (plan : Plan) : (m.prepareRun plan).Fits := by
  intro lane hlane
  simp only [prepareRun, Array.mem_map] at hlane
  rcases hlane with ⟨i, _, rfl⟩
  exact ⟨by simp [piece, prepareRun], by simp [piece, prepareRun], by simp [piece, prepareRun]⟩

/-- Loading the same stream makes any two machines equally set up. -/
theorem sameSetup_prepareRun (m m' : Machine R) (ops : List (Op R)) (idle : IdleParams R)
    (plan : Plan) :
    ((m.load ops idle).prepareRun plan).SameSetup ((m'.load ops idle).prepareRun plan) where
  ops := rfl
  idle := rfl
  layout := rfl
  resultsPerShot := rfl
  resultCount := rfl
  fits := fits_prepareRun _ plan
  fits' := fits_prepareRun _ plan

/-- `prepareRun` makes machines with one schedule alike. -/
theorem alike_prepareRun {m m' : Machine R} (h : m'.pool.schedule = m.pool.schedule)
    (ops : List (Op R)) (idle : IdleParams R) (plan : Plan) :
    ((m.load ops idle).prepareRun plan).Alike ((m'.load ops idle).prepareRun plan) where
  toSameSetup := sameSetup_prepareRun m m' ops idle plan
  count := by rw [size_lanes_prepareRun, size_lanes_prepareRun]
  schedule := h

section Batch

variable {m : Machine R} {batch : Batch R} {e w : Nat} (ht : m.layout.Tiled e w)

include ht

/-- Alike machines show the same active lanes after a batch that begins with a restart. -/
theorem Alike.map_active_eq {m' : Machine R} (h : Alike m m') {op : Op R}
    (hop : m.ops[0]? = some op) (hreset : op.isResetAll = true) {count : Nat} (hcount : 0 < count)
    {β : Type} (f : Lane R → β) (hf : ∀ a b, Lane.Agree m.resultCount a b → f a = f b) :
    ((m.beginBatch batch).run count).active.map f =
      ((m'.beginBatch batch).run count).active.map f := by
  have htiled : (m.batchJob batch).layout.Tiled e w := ht
  rw [active_run_beginBatch, active_run_beginBatch, h.batchJob_eq h.schedule]
  apply List.ext_getElem?
  intro i
  simp only [List.getElem?_map, List.getElem?_mapIdx, List.getElem?_take, Array.getElem?_toList]
  by_cases hi : i < batch.shots
  · by_cases hin : i < m.lanes.size
    · -- A lane of the batch: it begins with a restart.
      have hin' : i < m'.lanes.size := h.count ▸ hin
      have hfits := h.fits _ (Array.getElem_mem hin)
      have hfits' := h.fits' _ (Array.getElem_mem hin')
      rw [h.layout, h.resultsPerShot, h.resultCount] at hfits'
      have hagree := Lane.agree_after_of_blank htiled hop hreset hfits hfits' i hcount
      simp only [hi, if_true, Array.getElem?_eq_getElem hin, Array.getElem?_eq_getElem hin',
        Option.map_some, hf _ _ hagree]
    · have hin' : ¬ i < m'.lanes.size := h.count ▸ hin
      simp [hin, hin']
  · simp [hi]

/-- A batch preserves `Fits`. -/
theorem fits_run_beginBatch (h : m.Fits) (count : Nat) : ((m.beginBatch batch).run count).Fits := by
  have htiled : (m.batchJob batch).layout.Tiled e w := ht
  intro lane hlane
  rw [run_eq] at hlane ⊢
  rcases Array.mem_mapIdx.1 hlane with ⟨i, hi, rfl⟩
  have hblank : ((m.beginBatch batch).lanes[i]).Fits m.layout m.resultsPerShot m.resultCount := by
    rcases Array.mem_map.1 (Array.getElem_mem hi) with ⟨old, hold, hsame⟩
    rw [← hsame]
    exact (h old hold).begun
  split
  · exact Lane.fits_after htiled hblank i count
  · exact hblank

/-- A batch preserves `Alike`. -/
theorem Alike.run_beginBatch {m' : Machine R} (h : Alike m m') (count : Nat) :
    Alike ((m.beginBatch batch).run count) ((m'.beginBatch batch).run count) := by
  have ht' : m'.layout.Tiled e w := h.layout ▸ ht
  have hframe := m.run_beginBatch_frame batch count
  have hframe' := m'.run_beginBatch_frame batch count
  exact
    { ops := by rw [hframe.ops, hframe'.ops, h.ops]
      idle := by rw [hframe.idle, hframe'.idle, h.idle]
      layout := by rw [hframe.layout, hframe'.layout, h.layout]
      resultsPerShot := by rw [hframe.resultsPerShot, hframe'.resultsPerShot, h.resultsPerShot]
      resultCount := by rw [hframe.resultCount, hframe'.resultCount, h.resultCount]
      schedule := by rw [hframe.pool, hframe'.pool, h.schedule]
      count := by rw [hframe.size, hframe'.size, h.count]
      fits := fits_run_beginBatch ht h.fits count
      fits' := fits_run_beginBatch ht' h.fits' count }

end Batch

end Machine

/-! ## Sessions -/

namespace Session

/-- The part of a batch output that enters the results of a run. -/
def visible (stream : Stream R) (qubits : Nat) (out : BatchOutput R) :
    List (ShotResult R) × Option (List (Array (Cplx R))) :=
  (RunResults.batchResults stream qubits out, out.states)

omit [Scalar R] in
/-- `RunResults.collect` depends only on the visible part of the batch outputs. -/
theorem collect_congr (stream : Stream R) (plan : Plan) (capture : Bool) (device : String)
    {outs outs' : List (BatchOutput R)}
    (h : outs.map (visible stream plan.circuitQubits) =
      outs'.map (visible stream plan.circuitQubits)) :
    RunResults.collect stream plan capture device outs =
      RunResults.collect stream plan capture device outs' := by
  have hshots : outs.flatMap (RunResults.batchResults stream plan.circuitQubits) =
      outs'.flatMap (RunResults.batchResults stream plan.circuitQubits) := by
    have hmap := congrArg (List.flatMap Prod.fst) h
    rwa [List.flatMap_map, List.flatMap_map] at hmap
  have hstates : (outs.flatMap fun out =>
        (out.states.getD []).map fun block => block.extract 0 (Nat.pow 2 plan.circuitQubits)) =
      outs'.flatMap fun out =>
        (out.states.getD []).map fun block => block.extract 0 (Nat.pow 2 plan.circuitQubits) := by
    have hmap :=
      congrArg (List.flatMap fun view : List (ShotResult R) × Option (List (Array (Cplx R))) =>
      (view.2.getD []).map fun block => block.extract 0 (Nat.pow 2 plan.circuitQubits)) h
    rwa [List.flatMap_map, List.flatMap_map] at hmap
  rw [RunResults.collect, RunResults.collect, hshots, hstates]

/-- Alike machines have the same visible output in every batch. -/
theorem runBatches_congr (config : Config R) {plan : Plan} (stream : Stream R) {e w : Nat}
    {m m' : Machine R} (h : m.Alike m') (ht : m.layout.Tiled e w) {op : Op R}
    (hop : m.ops[0]? = some op) (hreset : op.isResetAll = true) (hops : 0 < plan.ops)
    (ranges : List (Nat × Nat)) (index : Nat) :
    (runBatches config plan ranges index m).2.1.map (visible stream plan.circuitQubits) =
        (runBatches config plan ranges index m').2.1.map (visible stream plan.circuitQubits) ∧
      (runBatches config plan ranges index m).2.2 =
        (runBatches config plan ranges index m').2.2 := by
  induction ranges generalizing index m m' with
  | nil => exact ⟨rfl, rfl⟩
  | cons range rest ih =>
      -- The batch shows the same on both machines and leaves them alike for the next one.
      let batch := batchOf config plan range
      let now := (m.beginBatch batch).run plan.ops
      let now' := (m'.beginBatch batch).run plan.ops
      have hnow : now.Alike now' := h.run_beginBatch ht plan.ops
      have hframe := m.run_beginBatch_frame batch plan.ops
      have hlayout : now.layout = m.layout := hframe.layout
      have hcount : now.resultCount = m.resultCount := hframe.resultCount
      have hresults : RunResults.batchResults stream plan.circuitQubits (now.read config.capture) =
          RunResults.batchResults stream plan.circuitQubits (now'.read config.capture) := by
        rw [batchResults_read, batchResults_read, hnow.resultCount, hcount]
        exact h.map_active_eq ht hop hreset hops _ fun a b hab => hab.result_eq stream _
      have hstates : (now.read config.capture).states = (now'.read config.capture).states := by
        have hblocks : now.active.map (·.block) = now'.active.map (·.block) :=
          h.map_active_eq ht hop hreset hops _ fun a b hab => hab.block
        simp only [Machine.read, hblocks]
      rcases ih hnow (hlayout ▸ ht) (hframe.ops ▸ hop) (index + 1) with
        ⟨houts, hlines⟩
      refine ⟨?_, congrArg (List.cons _) hlines⟩
      exact congrArg₂ List.cons (Prod.ext hresults hstates) houts

/-- Sessions with one configuration make ready alike machines. -/
theorem alike_readyMachine {s s' : Session R} (hconfig : s'.config = s.config) (stream : Stream R)
    (plan : Plan) (pool : Pool) :
    (s.readyMachine stream plan pool).Alike (s'.readyMachine stream plan pool) := by
  rw [readyMachine, readyMachine, hconfig]
  have hschedule : ({ s'.machine with pool := pool } : Machine R).pool.schedule =
      ({ s.machine with pool := pool } : Machine R).pool.schedule := rfl
  exact Machine.alike_prepareRun hschedule _ _ _

/-- The outcome of a stream that begins with a restart is independent of the machine. -/
theorem runStream_outcome_eq {s s' : Session R} (hconfig : s'.config = s.config)
    (hchecked : s.config.Checked) {stream : Stream R}
    (hstart : ∃ strand rest, stream = strand :: rest ∧ strand.op.isResetAll = true)
    (host : Host R) : (s.runStream stream host).2 = (s'.runStream stream host).2 := by
  rcases hstart with ⟨strand, rest, rfl, hreset⟩
  cases hplan : Plan.make s.config (strand :: rest).length with
  | error e => rw [runStream, runStream, hconfig, hplan]
  | ok plan =>
      rcases Plan.make_eq_ok hplan with ⟨_, hlayout, _, _, _, hops, _⟩
      rcases Layout.exists_tiled_ofCircuit s.config.qubits hchecked.perWorkgroup_ge
        hchecked.perWorkgroup_le with ⟨e, w, htiled⟩
      have ht : (s.readyMachine (strand :: rest) plan host.pool).layout.Tiled e w := by
        rw [← hlayout] at htiled
        exact htiled
      have hlong : 0 < plan.ops := by
        rw [hops]
        exact Nat.succ_pos _
      -- The machines have the same program and sizes; the reset makes up for what they hold.
      rcases runBatches_congr s.config
        (strand :: rest) (alike_readyMachine hconfig _ plan host.pool) ht rfl
        hreset hlong plan.batchRanges 0 with ⟨houts, hlines⟩
      have hcollect := collect_congr (strand :: rest) plan s.config.capture
        (Machine.name host.pool) houts
      rw [runStream, runStream, hconfig, hplan]
      dsimp only
      split
      · rfl
      · simp only [readyMachine, hconfig] at hcollect hlines
        dsimp only
        rw [hcollect, hlines]

end Session

end ShotSim
