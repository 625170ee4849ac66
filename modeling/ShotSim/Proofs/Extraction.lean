import ShotSim.Proofs.FrozenShots
import ShotSim.Proofs.Interleaving
import ShotSim.Proofs.Reports

/-!
# Extraction — a report loses nothing and says nothing twice

A report goes over the whole block with all workers at once, and they write to one log.  The basis
states above the threshold each take a number; those whose number has a slot are kept, and the
others are counted.

* `Job.found`, `Job.crew` — the basis states to report, and the workers that go about it;
* `pending_crew`, `Lane.execute_of_extract` — worker by worker, they are reported by rising index;
* `ReportLog.Extracted`, `extracted_foldl_push` — the log after a report, in whatever order;
* `Lane.SingleExtraction`, `Config.Checked.begins` — a shot whose log holds one report;
* `extraction_loses_nothing` — any interleaving, and the records of a run.
-/

namespace ShotSim

open BasisIndex

variable {R : Type} [Scalar R]

/-! ## What there is to report -/

/-- Probability of a basis state after the pending rescale. -/
def Shot.probability (shot : Shot R) (block : Array (Cplx R)) (i : Nat) : R :=
  (block.getD i 0).normSqr * (shot.renormalize * shot.renormalize)

namespace Job

/-- The basis states above the threshold, by rising index. -/
def found (job : Job R) (shot : Shot R) (block : Array (Cplx R)) : List Nat :=
  (List.range job.layout.entriesPerShot).filter fun i =>
    Scalar.lt job.batch.threshold (shot.probability block i)

/-- The workers of all workgroups before an extraction. Each owns the shard of its workgroup and its
own indices, and all share the log of the lane. -/
def crew (job : Job R) (lane : Lane R) : Crew R where
  workers := (List.range job.layout.workgroups).flatMap fun workgroup =>
    (workerItems workgroup threadsPerWorkgroup).map fun worker =>
      ⟨job.layout.shard lane.block workgroup, workerItems worker job.layout.entriesPerThread, .free⟩
  log := lane.log

omit [Scalar R] in
/-- The workers of a fresh crew hold no reservation. -/
theorem free_crew (job : Job R) (lane : Lane R) :
    ∀ worker ∈ (job.crew lane).workers, worker.errand = .free := by
  intro worker hworker
  obtain ⟨_, _, hmem⟩ := List.mem_flatMap.1 hworker
  obtain ⟨_, _, rfl⟩ := List.mem_map.1 hmem
  rfl

variable (job : Job R) (shot : Shot R) (block : Array (Cplx R))

/-- The basis states found are listed by rising index. -/
theorem pairwise_found : (job.found shot block).Pairwise (· < ·) :=
  List.pairwise_lt_range.filter _

/-- At most `entriesPerShot` basis states are found. -/
theorem length_found_le : (job.found shot block).length ≤ job.layout.entriesPerShot :=
  (List.length_filter_le _ _).trans_eq List.length_range

/-- The report of the whole block lists the basis states above the threshold. -/
theorem reports_range :
    reports shot.renormalize job.batch.threshold ⟨0, block⟩ (List.range job.layout.entriesPerShot) =
      (job.found shot block).map fun i => ⟨i, shot.probability block i⟩ := by
  unfold found
  induction List.range job.layout.entriesPerShot with
  | nil => rfl
  | cons i rest ih =>
      have hget : ((⟨0, block⟩ : Window R).get i).normSqr * (shot.renormalize * shot.renormalize) =
          shot.probability block i := rfl
      rw [reports_cons, List.filter_cons, hget, ih]
      split <;> rfl

end Job

/-! ## Worker by worker -/

/-- A power of two of at least `threadsPerWorkgroup` is a multiple of it. -/
theorem two_pow_div_mul {k : Nat} (h : 0 < 2 ^ k / threadsPerWorkgroup) :
    2 ^ k / threadsPerWorkgroup * threadsPerWorkgroup = 2 ^ k := by
  apply Nat.div_mul_cancel
  change 2 ^ 5 ∣ 2 ^ k
  apply Nat.pow_dvd_pow
  by_contra hsmall
  have hlt : 2 ^ k < threadsPerWorkgroup :=
    Nat.pow_lt_pow_right (n := 5) (by decide) (Nat.lt_of_not_le hsmall)
  rw [Nat.div_eq_of_lt hlt] at h
  cases h

/-- With at least one entry per thread, the workgroups tile the block. -/
theorem Layout.workgroups_mul_of_pos {n m : Nat} (h : 0 < (ofCircuit n m).entriesPerThread) :
    (ofCircuit n m).workgroups * (ofCircuit n m).entriesPerWorkgroup =
      (ofCircuit n m).entriesPerShot := by
  unfold ofCircuit entriesPerWorkgroup entriesPerShot at *
  generalize max n minQubitCount = N at h ⊢
  generalize min m maxQubitsPerWorkgroup = M at h ⊢
  simp only [Nat.pow_eq] at h ⊢
  by_cases hone : N ≤ M
  · simp only [if_pos hone, Nat.div_one, Nat.one_mul] at h ⊢
    exact two_pow_div_mul h
  · have hsplit : 2 ^ N = 2 ^ (N - M) * 2 ^ M := by
      rw [← Nat.pow_add, Nat.sub_add_cancel (Nat.le_of_not_le hone)]
    simp only [if_neg hone, hsplit, Nat.mul_div_cancel_left _ (Nat.two_pow_pos (N - M))] at h ⊢
    rw [two_pow_div_mul h]

section Stretches

variable {job : Job R} {block : Array (Cplx R)}
  (hblock : block.size = job.layout.workgroups * job.layout.entriesPerWorkgroup)

include hblock

/-- The report of a workgroup on its shard is its report on the block. -/
theorem reports_shard (factor threshold : R) {workgroup : Nat}
    (h : workgroup < job.layout.workgroups) :
    reports factor threshold (job.layout.shard block workgroup)
        (workerItems workgroup job.layout.entriesPerWorkgroup) =
      reports factor threshold ⟨0,
        block⟩ (workerItems workgroup job.layout.entriesPerWorkgroup) := by
  apply reports_congr
  intro i hi
  have hend := Nat.mul_le_mul_right job.layout.entriesPerWorkgroup (Nat.succ_le_of_lt h)
  rw [Nat.succ_mul, ← hblock] at hend
  rw [workerItems, List.mem_range'_1] at hi
  refine get_shard ⟨hi.1, ?_⟩
  simp only [Layout.shard, Array.size_extract]
  omega

/-- The reports of all shards concatenate to the report of the block. -/
theorem flatMap_reports_shard (factor threshold : R) :
    ((List.range job.layout.workgroups).flatMap fun workgroup =>
      reports factor threshold (job.layout.shard block workgroup)
        (workerItems workgroup job.layout.entriesPerWorkgroup)) =
      reports factor threshold ⟨0, block⟩ (List.range block.size) := by
  calc
    _ = (List.range job.layout.workgroups).flatMap fun workgroup =>
          reports factor threshold ⟨0,
            block⟩ (workerItems workgroup job.layout.entriesPerWorkgroup) := by
        apply List.flatMap_congr
        intro workgroup hworkgroup
        exact reports_shard hblock factor threshold (List.mem_range.1 hworkgroup)
    _ = reports factor threshold ⟨0, block⟩
          ((List.range job.layout.workgroups).flatMap
            (workerItems · job.layout.entriesPerWorkgroup)) := by
        rw [reports, List.filterMap_flatMap]
        rfl
    _ = reports factor threshold ⟨0, block⟩ (List.range block.size) := by
        rw [List.range_eq_range', flatMap_workerItems, Nat.zero_mul, ← hblock, List.range_eq_range']

end Stretches

/-- The pending reports of a crew are those of the workgroups in order. -/
theorem Job.pending_crew (job : Job R) (lane : Lane R) (factor threshold : R) :
    (job.crew lane).pending factor threshold =
      (List.range job.layout.workgroups).flatMap fun workgroup =>
        reports factor threshold (job.layout.shard lane.block workgroup)
          (workerItems workgroup job.layout.entriesPerWorkgroup) := by
  unfold Crew.pending crew
  dsimp only
  rw [List.flatMap_assoc]
  apply List.flatMap_congr
  intro workgroup _
  have hitems : workerItems workgroup job.layout.entriesPerWorkgroup =
      (workerItems workgroup threadsPerWorkgroup).flatMap
      (workerItems · job.layout.entriesPerThread) := by
    rw [workerItems, workerItems, flatMap_workerItems, Layout.entriesPerWorkgroup, Nat.mul_assoc,
      Nat.mul_comm threadsPerWorkgroup]
  rw [List.flatMap_map, hitems, reports, List.filterMap_flatMap]
  rfl

section Report

variable {job : Job R} {shot : Shot R} (hmode : shot.mode = .extract)

include hmode

/-- Extraction leaves the shard of a workgroup unchanged. -/
theorem runWorkgroup_of_extract (window : Window R) (workgroup : Nat) :
    (window.runWorkgroup job shot workgroup).1 = window := by
  rw [Window.runWorkgroup_fst, show job.action shot = .look from Action.ofShot_of_extract hmode _,
    sweep_look]

/-- The reports of a workgroup are those of its work items. -/
theorem workgroupReports_of_extract (window : Window R) (workgroup : Nat) :
    window.workgroupReports job shot workgroup =
      reports shot.renormalize job.batch.threshold window
        (workerItems workgroup job.layout.entriesPerWorkgroup) := by
  rw [Window.workgroupReports_eq, Job.reportsOf, if_pos hmode,
    share_of_contiguous (by rw [hmode]; rfl), ← List.flatMap_def, List.flatMap_singleton']
  rfl

end Report

namespace Lane

section Extract

variable {lane : Lane R} {job : Job R} (hmode : lane.shot.mode = .extract)
  (hblock : lane.block.size = job.layout.entriesPerShot)
  (hcover : job.layout.workgroups * job.layout.entriesPerWorkgroup = job.layout.entriesPerShot)

include hblock hcover

/-- A fresh crew has the found basis states pending, with their probabilities. -/
theorem pending_crew_eq_found :
    (job.crew lane).pending lane.shot.renormalize job.batch.threshold =
      (job.found lane.shot lane.block).map fun i => ⟨i, lane.shot.probability lane.block i⟩ := by
  rw [Job.pending_crew, flatMap_reports_shard (hblock.trans hcover.symm), hblock, Job.reports_range]

include hmode

/-- The workgroup reports concatenate to the records of the found basis states. -/
theorem flatten_workgroupReports :
    ((List.range job.layout.workgroups).map fun workgroup =>
      (job.layout.shard lane.block workgroup).workgroupReports job lane.shot workgroup).flatten =
        (job.found lane.shot lane.block).map fun i => ⟨i, lane.shot.probability lane.block i⟩ := by
  rw [← pending_crew_eq_found hblock hcover, Job.pending_crew, List.flatMap_def]
  simp only [workgroupReports_of_extract hmode]

/-- Extraction keeps the block and logs a permutation of the found basis states. -/
theorem execute_of_extract :
    (lane.execute job).block = lane.block ∧
      ∃ told : List (Record R),
        told.Perm ((job.found lane.shot lane.block).map fun i =>
          ⟨i, lane.shot.probability lane.block i⟩) ∧
        (lane.execute job).log = told.foldl ReportLog.push lane.log := by
  have hcontiguous : lane.shot.mode.arity = 0 := by
    rw [hmode]
    rfl
  obtain ⟨hamps, hlog, _⟩ :=
    execute_of_stretches hcontiguous (hblock.trans hcover.symm) lane.block rfl
    fun workgroup _ => runWorkgroup_of_extract hmode _ workgroup
  refine ⟨hamps, _, ?_, hlog⟩
  rw [← flatten_workgroupReports hmode hblock hcover]
  exact interleave_perm _ _

/-- Under the in-order schedule they are logged by rising index. -/
theorem execute_of_extract_inOrder :
    (lane.execute { job with schedule := .inOrder }).log =
      ((job.found lane.shot lane.block).map fun i =>
        ⟨i, lane.shot.probability lane.block i⟩).foldl ReportLog.push lane.log := by
  have hfits : fitsShard { job with schedule := .inOrder } lane.shot = true := by
    rw [fitsShard, Mode.isContiguous, hmode]
    rfl
  rw [execute, if_pos hfits, ← flatten_workgroupReports hmode hblock hcover]
  rfl

end Extract

end Lane

/-! ## The log after a report -/

namespace ReportLog

variable {R : Type}

/-- The log after an extraction of `found` from the log `start`: all are counted, as many as fit are
kept, each once, and no other slot is changed. -/
structure Extracted (start : ReportLog R) (found : List Nat) (probability : Nat → R)
    (log : ReportLog R) : Prop where
  cursor : log.cursor.toNat = start.cursor.toNat + found.length
  size : log.slots.size = start.slots.size
  filled : ∀ slot, start.cursor.toNat ≤ slot →
    slot < min start.slots.size (start.cursor.toNat + found.length) →
      ∃ i ∈ found, log.slots[slot]? = some ⟨i, probability i⟩
  distinct : ∀ a b r s, start.cursor.toNat ≤ a → a < b →
    b < min start.slots.size (start.cursor.toNat + found.length) →
      log.slots[a]? = some r → log.slots[b]? = some s → r.index ≠ s.index
  untouched : ∀ slot, slot < start.cursor.toNat ∨
    min start.slots.size (start.cursor.toNat + found.length) ≤ slot →
      log.slots[slot]? = start.slots[slot]?
  complete : start.cursor.toNat + found.length ≤ start.slots.size → ∀ i ∈ found,
    ∃ slot, start.cursor.toNat ≤ slot ∧ slot < start.cursor.toNat + found.length ∧
      log.slots[slot]? = some ⟨i, probability i⟩

/-- Record `i` is stored in slot `i` while there is room. -/
theorem getElem?_slots_foldl_push {records : List (Record R)} {log : ReportLog R}
    (hword : log.cursor.toNat + records.length < 2 ^ 32) {slot : Nat}
    (hroom : slot < log.slots.size) :
    (records.foldl push log).slots[slot]? =
      if log.cursor.toNat ≤ slot ∧ slot < log.cursor.toNat + records.length then
        records[slot - log.cursor.toNat]?
      else log.slots[slot]? := by
  induction records generalizing log with
  | nil => rw [if_neg (by simp)]; rfl
  | cons record rest ih =>
      rw [List.length_cons] at hword
      have hnext : (log.push record).cursor.toNat = log.cursor.toNat + 1 :=
        toNat_cursor_reserve (by omega)
      have hsize : (log.push record).slots.size = log.slots.size := Array.size_setIfInBounds
      have hpush : (log.push record).slots[slot]? =
          if log.cursor.toNat = slot then some record else log.slots[slot]? := by
        rw [push, Array.getElem?_setIfInBounds]
        by_cases hslot : log.cursor.toNat = slot
        · rw [if_pos hslot, if_pos (hslot ▸ hroom), if_pos hslot]
        · rw [if_neg hslot, if_neg hslot]
      rw [List.foldl_cons, ih (by rw [hnext]; omega) (hsize ▸ hroom), hnext, hpush,
        List.length_cons]
      -- Below the number, at the number, and above it.
      rcases Nat.lt_trichotomy slot log.cursor.toNat with hlt | heq | hgt
      · rw [if_neg (by omega), if_neg (by omega), if_neg (by omega)]
      · rw [if_neg (by omega), if_pos heq.symm, if_pos (by omega), heq, Nat.sub_self]
        rfl
      · have hshift : slot - log.cursor.toNat = slot - (log.cursor.toNat + 1) + 1 := by omega
        rw [if_neg (Nat.ne_of_lt hgt), hshift, List.getElem?_cons_succ]
        by_cases hin : slot < log.cursor.toNat + 1 + rest.length
        · rw [if_pos (by omega), if_pos (by omega)]
        · rw [if_neg (by omega), if_neg (by omega)]

/-- Pushing any permutation of the found records gives an `Extracted` log. -/
theorem extracted_foldl_push {start : ReportLog R} {found : List Nat} {probability : Nat → R}
    {told : List (Record R)} (hnodup : found.Nodup)
    (hword : start.cursor.toNat + found.length < 2 ^ 32)
    (htold : told.Perm (found.map fun i => ⟨i, probability i⟩)) :
    start.Extracted found probability (told.foldl push start) := by
  have hlength : told.length = found.length := htold.length_eq.trans (List.length_map _)
  rw [← hlength] at hword
  have hrecord : ∀ {p : Nat} {record : Record R}, told[p]? = some record → ∃ i ∈ found,
      record = ⟨i, probability i⟩ := by
    intro p record hp
    obtain ⟨i, hi, rfl⟩ := List.mem_map.1 (htold.mem_iff.1 (List.mem_of_getElem? hp))
    exact ⟨i, hi, rfl⟩
  have hindices : (told.map (·.index)).Nodup := by
    rw [(htold.map _).nodup_iff, List.map_map]
    simpa [Function.comp_def] using hnodup
  -- Slots from the cursor on hold the records in the order in which they were pushed.
  have hslot : ∀ slot, start.cursor.toNat ≤ slot →
      slot < min start.slots.size (start.cursor.toNat + found.length) →
        (told.foldl push start).slots[slot]? = told[slot - start.cursor.toNat]? := by
    intro slot hle hlt
    rw [getElem?_slots_foldl_push hword (by omega), if_pos (by omega)]
  refine
    { cursor := by rw [toNat_cursor_foldl_push hword, hlength]
      size := size_slots_foldl_push told start
      filled := ?_
      distinct := ?_
      untouched := ?_
      complete := ?_ }
  · intro slot hle hlt
    have hin : slot - start.cursor.toNat < told.length := by omega
    obtain ⟨i, hi, heq⟩ := hrecord (List.getElem?_eq_getElem hin)
    exact ⟨i, hi, by rw [hslot slot hle hlt, List.getElem?_eq_getElem hin, heq]⟩
  · -- Equal indices in two slots would be a duplicate in `told`.
    intro a b r s ha hab hb hr hs hsame
    rw [hslot a ha (by omega)] at hr
    rw [hslot b (by omega) hb] at hs
    have hplace : (told.map (·.index))[a - start.cursor.toNat]? =
        (told.map (·.index))[b - start.cursor.toNat]? := by
      rw [List.getElem?_map, List.getElem?_map, hr, hs, Option.map_some, Option.map_some, hsame]
    have hin : a - start.cursor.toNat < (told.map (·.index)).length := by
      rw [List.length_map]
      omega
    have heq := (List.getElem?_inj hin hindices).1 hplace
    omega
  · intro slot hout
    by_cases hroom : slot < start.slots.size
    · rw [getElem?_slots_foldl_push hword hroom, if_neg (by omega)]
    · rw [Array.getElem?_eq_none (by rw [size_slots_foldl_push]; omega),
        Array.getElem?_eq_none (Nat.le_of_not_lt hroom)]
  · -- With room for all, the position of a record in `told` gives its slot.
    intro hroom i hi
    obtain ⟨p, hp⟩ := List.getElem?_of_mem (htold.mem_iff.2 (List.mem_map_of_mem hi))
    have hin := (List.getElem?_eq_some_iff.1 hp).1
    refine ⟨start.cursor.toNat + p, Nat.le_add_right _ _, by omega, ?_⟩
    rw [hslot _ (Nat.le_add_right _ _) (by omega), Nat.add_sub_cancel_left, hp]

/-- Listed and dropped records together number the cursor. -/
theorem length_sorted_add_dropped (log : ReportLog R) :
    log.sorted.length + log.dropped = log.cursor.toNat := by
  rw [log.sorted_perm.length_eq, kept, List.length_take, Array.length_toList, dropped]
  omega

end ReportLog

/-! ## One report in a shot -/

def Lane.ReportsAt (lane : Lane R) (job : Job R) (shotIdx i : Nat) : Prop :=
  ((lane.after job shotIdx i).prepare job shotIdx).shot.mode = .extract

def Job.StartsOverAt {R : Type} (job : Job R) (i : Nat) : Prop :=
  ∃ op, job.ops[i]? = some op ∧ op.isResetAll = true

/-- Of the first `count` steps, step `j` makes the only extraction still in the log at the end: a
restart separates it from every earlier one, and neither an extraction nor a restart follows. -/
structure Lane.SingleExtraction (lane : Lane R) (job : Job R) (shotIdx count j : Nat) : Prop where
  lt : j < count
  reports : lane.ReportsAt job shotIdx j
  earlier : ∀ i < j, lane.ReportsAt job shotIdx i → ∃ s, i < s ∧ s < j ∧ job.StartsOverAt s
  later : ∀ i, j < i → i < count → ¬lane.ReportsAt job shotIdx i ∧ ¬job.StartsOverAt i

namespace Lane

section Steps

variable {job : Job R} {e w : Nat} (ht : job.layout.Tiled e w) {lane : Lane R}
  {resultsPerShot resultCount : Nat} (hfits : lane.Fits job.layout resultsPerShot resultCount)
  (hstart : lane.shot.nextOp = 0) (shotIdx : Nat)

include ht hfits hstart

omit ht hfits in
/-- After `i` steps a lane is at operation `i`. -/
theorem getElem?_nextOp_after {i : Nat} (hi : i < job.ops.size) :
    job.ops[(lane.after job shotIdx i).shot.nextOp]? = job.ops[i]? := by
  rw [nextOp_after shotIdx (by omega), hstart, Nat.zero_add]

/-- A step that neither extracts nor restarts keeps the log. -/
theorem log_after_succ {i : Nat} (hi : i < job.ops.size) (hquiet : ¬lane.ReportsAt job shotIdx i)
    (hgoes : ¬job.StartsOverAt i) :
    (lane.after job shotIdx (i + 1)).log = (lane.after job shotIdx i).log := by
  have hop : job.ops[(lane.after job shotIdx i).shot.nextOp]? = some job.ops[i] := by
    rw [getElem?_nextOp_after hstart shotIdx hi, Array.getElem?_eq_getElem hi]
  have hreset : job.ops[i].isResetAll = false :=
    Bool.eq_false_of_not_eq_true fun h => hgoes ⟨_, Array.getElem?_eq_getElem hi, h⟩
  have hblock := (fits_after ht hfits shotIdx i).block
  rw [after_add lane job shotIdx i 1]
  refine (log_step ht hblock shotIdx).trans ?_
  rw [newReports, job.arrivals_of_not_extract _ hquiet, List.foldl_nil, log_prepare hop hreset]

/-- A restart resets the cursor. -/
theorem cursor_after_succ {i : Nat} (hi : i < job.ops.size) (hover : job.StartsOverAt i) :
    (lane.after job shotIdx (i + 1)).log.cursor = 0 := by
  obtain ⟨op, hop, hreset⟩ := hover
  rw [← getElem?_nextOp_after hstart shotIdx hi] at hop
  have hblock := (fits_after ht hfits shotIdx i).block
  rw [after_add lane job shotIdx i 1]
  have hlog := log_step ht hblock shotIdx
  rw [newReports_of_resetAll hop hreset, List.foldl_nil, prepare_of_resetAll hop hreset] at hlog
  exact congrArg ReportLog.cursor hlog

/-- The cursor is zero, or there was an extraction since the last restart. -/
theorem cursor_or_reported (hempty : lane.log.cursor = 0) {count : Nat}
    (hcount : count ≤ job.ops.size) :
    (lane.after job shotIdx count).log.cursor = 0 ∨
      ∃ i < count, lane.ReportsAt job shotIdx i ∧ ∀ s, i < s → s < count → ¬job.StartsOverAt s := by
  induction count with
  | zero => exact .inl hempty
  | succ count ih =>
      by_cases hover : job.StartsOverAt count
      · exact .inl (cursor_after_succ ht hfits hstart shotIdx hcount hover)
      · by_cases hreports : lane.ReportsAt job shotIdx count
        · exact .inr ⟨count, Nat.lt_succ_self _, hreports, fun s hs hs' => absurd hs (by omega)⟩
        · -- A step of no consequence: what held before it still holds.
          rcases ih (Nat.le_of_succ_le hcount) with hzero | ⟨i, hi, htold, hnone⟩
          · rw [log_after_succ ht hfits hstart shotIdx hcount hreports hover]
            exact .inl hzero
          · refine .inr ⟨i, Nat.lt_succ_of_lt hi, htold, ?_⟩
            intro s hs hs'
            rcases Nat.lt_succ_iff_lt_or_eq.1 hs' with hlt | rfl
            · exact hnone s hs hlt
            · exact hover

variable {count j : Nat} (hsingle : lane.SingleExtraction job shotIdx count j)
  (hcount : count ≤ job.ops.size)

include hsingle hcount

/-- The first extraction after a restart starts from an empty log. -/
theorem cursor_before (hempty : lane.log.cursor = 0) :
    ((lane.after job shotIdx j).prepare job shotIdx).log.cursor = 0 := by
  have hj : j < job.ops.size := Nat.lt_of_lt_of_le hsingle.lt hcount
  obtain ⟨op, hop, hreset, _⟩ := code_of_extract hsingle.reports
  rw [log_prepare hop hreset]
  rcases cursor_or_reported ht hfits hstart shotIdx hempty hj.le with hzero | ⟨i, hi, htold, hnone⟩
  · exact hzero
  · obtain ⟨s, hs, hs', hover⟩ := hsingle.earlier i hi htold
    exact absurd hover (hnone s hs hs')

/-- The log is unchanged up to the end of the stream. -/
theorem log_later : (lane.after job shotIdx count).log = (lane.after job shotIdx (j + 1)).log := by
  obtain ⟨more, rfl⟩ : ∃ more, count = j + 1 + more := Nat.exists_eq_add_of_lt hsingle.lt |>.imp
    fun _ h => by omega
  have hlater : ∀ extra ≤ more,
      (lane.after job shotIdx (j + 1 + extra)).log = (lane.after job shotIdx (j + 1)).log := by
    intro extra hextra
    induction extra with
    | zero => rfl
    | succ extra ih =>
        obtain ⟨hquiet, hgoes⟩ := hsingle.later (j + 1 + extra) (by omega) (by omega)
        refine Eq.trans ?_ (ih (Nat.le_of_succ_le hextra))
        exact log_after_succ ht hfits hstart shotIdx (i := j + 1 + extra) (by omega) hquiet hgoes
  exact hlater more (Nat.le_refl more)

end Steps

end Lane

/-- In a solo shot a single extraction starts from a complete block and an empty log, with slots
numbered for every basis state. -/
theorem Config.Checked.begins {c : Config R} (hchecked : c.Checked) {pool : Pool}
    {stream : Stream R} {k j : Nat}
    (hsingle : c.blankLane.SingleExtraction (c.soloJob pool stream k) 0 stream.length j) :
    let job := c.soloJob pool stream k
    let lane := (c.blankLane.after job 0 j).prepare job 0
    lane.block.size = job.layout.entriesPerShot ∧ lane.log.cursor = 0 ∧
      (job.found lane.shot lane.block).length < 2 ^ 32 ∧
      (c.soloLane pool stream k).log = (lane.execute job).log := by
  intro job lane
  obtain ⟨e, w, htiled⟩ := Layout.exists_tiled_ofCircuit c.qubits hchecked.perWorkgroup_ge
    hchecked.perWorkgroup_le
  have ht : job.layout.Tiled e w := htiled
  have hsize : stream.length ≤ job.ops.size := by simp [job, Config.soloJob, Stream.ops]
  refine ⟨?_, Lane.cursor_before ht c.fits_blankLane rfl 0 hsingle hsize rfl, ?_, ?_⟩
  · rw [(Lane.prepare_frame _ _ _).1]
    exact (Lane.fits_after ht c.fits_blankLane 0 j).block
  · -- The largest circuit has 27 qubits.
    refine Nat.lt_of_le_of_lt (Job.length_found_le _ _ _) (Nat.pow_lt_pow_right (by decide) ?_)
    have hqubits : c.qubits ≤ 27 := hchecked.qubits_le
    change max c.qubits 10 < 32
    omega
  · refine (Lane.log_later ht c.fits_blankLane rfl 0 hsingle hsize).trans ?_
    rw [Lane.after_add]
    rfl

/-- The records of a shot and its dropped reports together number the cursor of its log. -/
theorem Runs.exists_counted {program : List (Op R)} {c : Config R} {host : Host R}
    (h : Runs program c host) {stream : Stream R}
    (hstream : stream = Stream.build program c.noise c.idle.isSome c.qubits) {k : Nat}
    (hk : k < c.shots) {found : Nat}
    (hcount : (c.soloLane host.pool stream k).log.cursor.toNat = found) :
    ∃ results shot, (runProgram program c host).result = .ok results ∧
      results.shots[k]? = some shot ∧ shot.records.length + shot.dropped = found := by
  obtain ⟨results, hresult, hshots, _⟩ := h.exists_results hstream
  refine ⟨results, (c.soloLane host.pool stream k).result stream c.qubits c.resultCount,
    hresult, ?_, ?_⟩
  · rw [hshots, List.getElem?_map, List.getElem?_range hk]
    rfl
  · exact (ReportLog.length_sorted_add_dropped _).trans hcount

/-- Under every interleaving of the workers, extraction keeps the amplitudes and can be run to
completion; the log then counts every basis state above the threshold and keeps as many as there are
slots, each once and with its own probability. The same holds for a step under every schedule. In
order, the kept ones are those of smallest index. Hence if the log of a shot started empty, as it
does in a run with a single extraction, its records and dropped reports together are exactly the
basis states above the threshold. -/
theorem extraction_loses_nothing (job : Job R) {n m : Nat} (hlayout : job.layout = .ofCircuit n m)
    (hthreads : 0 < job.layout.entriesPerThread) (lane : Lane R)
    (hblock : lane.block.size = job.layout.entriesPerShot) (hmode : lane.shot.mode = .extract)
    (hword : lane.log.cursor.toNat + (job.found lane.shot lane.block).length < 2 ^ 32) :
    let found := job.found lane.shot lane.block
    let probability := lane.shot.probability lane.block
    let run := (job.crew lane).run lane.shot.renormalize job.batch.threshold
    let inOrder : Job R := { job with schedule := .inOrder }
    (∀ moves, (run moves).workers.map (·.window) = (job.crew lane).workers.map (·.window) ∧
      (∃ more, (run (moves ++ more)).Idle) ∧
      ((run moves).Idle → lane.log.Extracted found probability (run moves).log ∧
        (lane.log.cursor = 0 → ∀ stream qubits shot slots,
          let result := RunResults.shotResult stream qubits shot (run moves).log slots
          result.records.length + result.dropped = found.length))) ∧
    (∃ moves, moves.Pairwise (· ≤ ·) ∧ (run moves).Idle) ∧
    (∀ moves, moves.Pairwise (· ≤ ·) → (run moves).Idle →
      (run moves).log = (lane.execute inOrder).log) ∧
    (lane.execute job).block = lane.block ∧
    lane.log.Extracted found probability (lane.execute job).log ∧
    found.Pairwise (· < ·) ∧
    (∀ p i : Nat, found[p]? = some i → lane.log.cursor.toNat + p < lane.log.slots.size →
      (lane.execute inOrder).log.slots[lane.log.cursor.toNat + p]? = some ⟨i, probability i⟩) ∧
    ∀ (program : List (Op R)) (c : Config R) (host : Host R) (stream : Stream R) (k j : Nat),
      Runs program c host → stream = Stream.build program c.noise c.idle.isSome c.qubits →
      k < c.shots →
      job = c.soloJob host.pool stream k → lane = (c.blankLane.after job 0 j).prepare job 0 →
      c.blankLane.SingleExtraction job 0 stream.length j →
        ∃ results shot, (runProgram program c host).result = .ok results ∧
          results.shots[k]? = some shot ∧ shot.records.length + shot.dropped = found.length := by
  intro found probability run inOrder
  -- Every thread has an entry, so the shards of the workgroups cover the block.
  have hcover : job.layout.workgroups * job.layout.entriesPerWorkgroup =
      job.layout.entriesPerShot := by
    rw [hlayout] at hthreads ⊢
    exact Layout.workgroups_mul_of_pos hthreads
  have hpending : (job.crew lane).pending lane.shot.renormalize job.batch.threshold =
      found.map fun i => ⟨i, probability i⟩ := Lane.pending_crew_eq_found hblock hcover
  obtain ⟨hamps, told, htold, hlog⟩ := Lane.execute_of_extract hmode hblock hcover
  have hordered := Lane.execute_of_extract_inOrder hmode hblock hcover
  -- Both the crew and the step push some permutation of the found records.
  have hextract : ∀ {told : List (Record R)}, told.Perm (found.map fun i => ⟨i, probability i⟩) →
      lane.log.Extracted found probability (told.foldl ReportLog.push lane.log) := fun htold =>
    ReportLog.extracted_foldl_push (job.pairwise_found lane.shot lane.block).nodup hword htold
  have hfree := job.free_crew lane
  have hnumbers : (job.crew lane).log.cursor.toNat +
      ((job.crew lane).pending lane.shot.renormalize job.batch.threshold).length < 2 ^ 32 := by
    rw [hpending, List.length_map]
    exact hword
  refine ⟨?_, Crew.exists_run_idle _ _ _, ?_, hamps, by rw [hlog]; exact hextract htold,
    job.pairwise_found lane.shot lane.block, ?_, ?_⟩
  · intro moves
    refine ⟨Crew.windows_run _ _ _ moves, ?_, ?_⟩
    · -- Wherever the schedule stops, it can be extended until all workers are idle.
      obtain ⟨more, _, hidle⟩ :=
        (run moves).exists_run_idle lane.shot.renormalize job.batch.threshold
      exact ⟨more, (congrArg Crew.Idle (Crew.run_append _ _ _ moves more)).mpr hidle⟩
    · intro hidle
      obtain ⟨reported, hreported, hrun⟩ := Crew.exists_told_of_idle hfree hnumbers hidle
      rw [hpending] at hreported
      have hextracted : lane.log.Extracted found probability (run moves).log := by
        rw [hrun]
        exact hextract hreported
      refine ⟨hextracted, ?_⟩
      intro hempty _ _ _ _
      refine (ReportLog.length_sorted_add_dropped _).trans ?_
      rw [hextracted.cursor, hempty, UInt32.toNat_zero, Nat.zero_add]
  · intro moves hsorted hidle
    rw [hordered, ← hpending]
    exact Crew.log_eq_of_sorted hfree hnumbers hidle hsorted
  · intro p i hp hroom
    have hin : p < (job.found lane.shot lane.block).length := (List.getElem?_eq_some_iff.1 hp).1
    rw [hordered, ReportLog.getElem?_slots_foldl_push (by rw [List.length_map]; exact hword) hroom,
      if_pos (by rw [List.length_map]; omega), Nat.add_sub_cancel_left, List.getElem?_map, hp]
    rfl
  · -- In a run the extraction of shot `k` is the only one left in its log.
    rintro program c host stream k j hruns hstream hk rfl rfl hsingle
    obtain ⟨_, hempty, _, hsame⟩ := (Config.checked_of_validate hruns.checked).begins hsingle
    apply hruns.exists_counted hstream hk
    rw [hsame, hlog, (hextract htold).cursor, hempty, UInt32.toNat_zero, Nat.zero_add]

def crowdedLane : Lane Float32 :=
  { toffoliLane with
    shot := { (0 : Shot Float32) with selected := .mEveryZ, renormalize := 1 }
    block := Array.replicate 1024 1
    log := ⟨3, Array.replicate 8 0⟩ }

/-- Every basis state of `crowdedLane` is above the threshold. -/
theorem found_crowdedLane :
    (singleOpJob .mEveryZ).found crowdedLane.shot crowdedLane.block = List.range 1024 := by
  apply List.filter_eq_self.2
  intro i hi
  have hget : crowdedLane.block.getD i 0 = 1 := by
    have hlt : i < 1024 := List.mem_range.1 hi
    simp [crowdedLane, hlt]
  rw [Shot.probability, hget]
  decide +kernel

/-- A program consisting of one report extracts directly after the restart. -/
theorem single_extraction_of_report {stream : Stream Float32}
    (hops : stream.ops = [.resetAll, .mEveryZ]) (k : Nat) :
    Config.standard.blankLane.SingleExtraction (Config.standard.soloJob {} stream k) 0
      stream.length 1 := by
  have hlength : stream.length = 2 := by simpa [Stream.ops] using congrArg List.length hops
  have hstart : (Config.standard.soloJob {} stream k).ops[Config.standard.blankLane.shot.nextOp]? =
      some .resetAll := by
    change (Config.standard.soloJob {} stream k).ops[0]? = _
    simp [Config.soloJob, hops]
  have hok : (Config.standard.blankLane.step (Config.standard.soloJob {} stream k) 0).shot.status =
      .ok := by
    rw [Lane.shot_step, Lane.prepare_of_resetAll hstart rfl]
    rfl
  have hreport : (Config.standard.soloJob {} stream k).ops[(Config.standard.blankLane.step
      (Config.standard.soloJob {} stream k) 0).shot.nextOp]? = some .mEveryZ := by
    rw [Lane.shot_step, Lane.nextOp_prepare 0 hstart]
    change (Config.standard.soloJob {} stream k).ops[1]? = _
    simp [Config.soloJob, hops]
  refine ⟨by omega, (Lane.mode_prepare_of_isStill hok hreport rfl 0).1, ?_, ?_⟩
  · intro i hi hreports
    obtain rfl : i = 0 := by omega
    obtain ⟨op, hop, hreset, _⟩ := Lane.code_of_extract hreports
    obtain rfl := Option.some.inj (hstart.symm.trans hop)
    cases hreset
  · intro i hi hi'
    omega

/-- Five of 1024 basis states find room; and a run whose program is a report reports as it
should. -/
theorem extraction_loses_nothing_crowded :
    (∀ moves, let crew := ((singleOpJob .mEveryZ).crew crowdedLane).run 1 0 moves
      crew.Idle → crew.log.cursor.toNat = 1027 ∧
        ∃ i < 1024,
          crew.log.slots[7]? = some ⟨i, crowdedLane.shot.probability crowdedLane.block i⟩) ∧
    (crowdedLane.execute (singleOpJob .mEveryZ)).log.slots[7]? =
      some ⟨4, crowdedLane.shot.probability crowdedLane.block 4⟩ ∧
    ∃ stream results shot, let job := Config.standard.soloJob {} stream 0
      let lane := (Config.standard.blankLane.after job 0 1).prepare job 0
      (runProgram [.mEveryZ] Config.standard .empty).result = .ok results ∧
        results.shots[0]? = some shot ∧
        shot.records.length + shot.dropped = (job.found lane.shot lane.block).length := by
  obtain ⟨hany, _, _, _, _, _, horder, _⟩ := extraction_loses_nothing (singleOpJob .mEveryZ) rfl
    (by decide) crowdedLane (Array.size_replicate ..) (by decide)
    (by rw [found_crowdedLane, List.length_range]; decide)
  rw [found_crowdedLane] at hany horder
  refine ⟨?_, horder 4 4 (List.getElem?_range (by decide)) (by decide), ?_⟩
  · intro moves crew hidle
    obtain ⟨hextracted, _⟩ := (hany moves).2.2 hidle
    obtain ⟨i, hi, hslot⟩ := hextracted.filled 7 (by decide) (by rw [List.length_range]; decide)
    exact ⟨hextracted.cursor.trans (by rw [List.length_range]; rfl), i, List.mem_range.1 hi, hslot⟩
  · have hruns : Runs [.mEveryZ] Config.standard .empty := ⟨rfl, rfl, ⟨_, rfl⟩, by decide⟩
    obtain ⟨stream, hstream⟩ : ∃ stream, stream = Stream.build
        ([.mEveryZ] : List (Op Float32)) none false 1 := ⟨_, rfl⟩
    have hops : stream.ops = [.resetAll, .mEveryZ] := by
      rw [hstream]
      rfl
    -- The stream of the program is a restart followed by the report.
    have hsingle := single_extraction_of_report hops 0
    obtain ⟨hblock, hempty, hbound, _⟩ := (Config.checked_of_validate hruns.checked).begins hsingle
    have hthreads : 0 < (Layout.ofCircuit 1 12).entriesPerThread := by decide
    obtain ⟨_, _, _, _, _, _, _, hrun⟩ :=
      extraction_loses_nothing (Config.standard.soloJob {} stream 0) rfl
      hthreads _ hblock hsingle.reports (by rw [hempty]; simpa using hbound)
    obtain ⟨results, shot, hresults⟩ :=
      hrun [.mEveryZ] Config.standard .empty stream 0 1 hruns hstream
      (by decide) rfl rfl hsingle
    exact ⟨stream, results, shot, hresults⟩

end ShotSim
