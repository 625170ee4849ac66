import Mathlib.Data.List.Basic
import Mathlib.Data.List.Nodup
import ShotSim.Proofs.FreshStart
import ShotSim.Proofs.RandomStream

/-!
# Schedules — what the order of reports decides

The workgroups of a report run side by side and share one log.  A schedule fixes the order in which
their records reach it, and with it the slot that each record takes and, once the log is full, which
of them are dropped.  The number of records does not depend on it, nor does anything else that a
shot computes.

* `ReportLog.kept_foldl_push`, `kept_foldl_push_sublist` — the records that a log keeps;
* `SameReports`, `SameReports.mergeSort_eq` — two orders of the same records sort to the same list;
* `Lane.newReports`, `log_step`, `newReports_perm` — the records of one step under any schedule;
* `Lane.Reordered`, `Reordered.after` — two runs of a shot under two schedules;
* `Lane.after_of_schedule` — a shot reads the schedule under its own id only.
-/

namespace ShotSim

variable {R : Type} [Scalar R]

/-! ## Logs -/

namespace ReportLog

variable {R : Type}

/-- A pushed record is kept iff there is room; a cursor that wraps to zero keeps nothing. -/
theorem kept_push (log : ReportLog R) (record : Record R) :
    (log.push record).kept =
      if log.cursor + 1 = 0 then []
      else log.kept ++ if log.cursor.toNat < log.slots.size then [record] else [] := by
  by_cases hround : log.cursor + 1 = 0
  · rw [if_pos hround, kept, push, hround]
    exact List.take_zero
  · have hnext : (log.cursor + 1).toNat = log.cursor.toNat + 1 := by
      have hlt : log.cursor.toNat + 1 < 2 ^ 32 := by
        by_contra hge
        apply hround
        apply UInt32.toNat_inj.1
        have hword := log.cursor.toNat_lt
        rw [UInt32.toNat_add]
        change (log.cursor.toNat + 1) % 2 ^ 32 = 0
        omega
      rw [UInt32.toNat_add]
      exact Nat.mod_eq_of_lt hlt
    rw [if_neg hround, kept, push, hnext, List.take_add_one, Array.toList_setIfInBounds,
      List.take_set, List.set_eq_of_length_le (by simp), List.getElem?_set]
    by_cases hroom : log.cursor.toNat < log.slots.size
    · simp [hroom, kept]
    · simp [hroom, kept]

/-- `push` adds at most its record. -/
theorem kept_push_sublist (log : ReportLog R) (record : Record R) :
    (log.push record).kept.Sublist (log.kept ++ [record]) := by
  rw [kept_push]
  split
  · exact List.nil_sublist _
  · split
    · exact List.Sublist.refl _
    · exact List.Sublist.append_left (List.nil_sublist _) _

/-- The kept records are a sublist of the old ones and those pushed. -/
theorem kept_foldl_push_sublist (records : List (Record R)) (log : ReportLog R) :
    (records.foldl push log).kept.Sublist (log.kept ++ records) := by
  induction records generalizing log with
  | nil => rw [List.append_nil, List.foldl_nil]
  | cons record rest ih =>
      have hfirst := (kept_push_sublist log record).append_right rest
      rw [List.append_assoc, List.singleton_append] at hfirst
      exact (ih (log.push record)).trans hfirst

/-- With room for all, every pushed record is kept. -/
theorem kept_foldl_push {records : List (Record R)} {log : ReportLog R}
    (hroom : log.cursor.toNat + records.length ≤ log.slots.size)
    (hword : log.cursor.toNat + records.length < 2 ^ 32) :
    (records.foldl push log).kept = log.kept ++ records := by
  induction records generalizing log with
  | nil => rw [List.append_nil, List.foldl_nil]
  | cons record rest ih =>
      rw [List.length_cons] at hroom hword
      have hnext : (log.cursor + 1).toNat = log.cursor.toNat + 1 := by
        rw [UInt32.toNat_add]
        exact Nat.mod_eq_of_lt (by change log.cursor.toNat + 1 < 2 ^ 32; omega)
      have hround : log.cursor + 1 ≠ 0 := by
        intro hzero
        rw [hzero] at hnext
        exact absurd hnext (Nat.succ_ne_zero _).symm
      have hsize : (log.push record).slots.size = log.slots.size := Array.size_setIfInBounds
      have hrest := @ih (log.push record) (by rw [hsize, push, hnext]; omega)
        (by rw [push, hnext]; omega)
      rw [List.foldl_cons, hrest, kept_push, if_neg hround, if_pos (by omega), List.append_assoc,
        List.singleton_append]

/-- `sorted` permutes the kept records. -/
theorem sorted_perm (log : ReportLog R) : log.sorted.Perm log.kept := List.mergeSort_perm _ _

end ReportLog

/-! ## Two orders of the same records -/

section SameReports

variable {R : Type}

def Record.before (a b : Record R) : Bool := decide (a.index ≤ b.index)

theorem Record.before_trans (a b c : Record R) (hab : a.before b = true) (hbc : b.before c = true) :
    a.before c = true :=
  decide_eq_true (Nat.le_trans (of_decide_eq_true hab) (of_decide_eq_true hbc))

theorem Record.before_total (a b : Record R) : (a.before b || b.before a) = true := by
  simpa [before] using Nat.le_total a.index b.index

/-- Permutations of each other that agree in the order of the records of each basis state. -/
structure SameReports (first second : List (Record R)) : Prop where
  perm : first.Perm second
  each : ∀ i, first.filter (·.index = i) = second.filter (·.index = i)

namespace SameReports

theorem refl (records : List (Record R)) : SameReports records records := ⟨.refl _, fun _ => rfl⟩

/-- `SameReports` is compatible with appending. -/
theorem append {first second first' second' : List (Record R)} (h : SameReports first second)
    (h' : SameReports first' second') : SameReports (first ++ first') (second ++ second') := by
  refine ⟨h.perm.append h'.perm, fun i => ?_⟩
  rw [List.filter_append, List.filter_append, h.each, h'.each]

/-- Permutations without duplicate indices are `SameReports`. -/
theorem of_nodup {first second : List (Record R)} (hperm : first.Perm second)
    (hnodup : (first.map (·.index)).Nodup) : SameReports first second := by
  refine ⟨hperm, fun i => ?_⟩
  have hone : (first.filter (·.index = i)).length ≤ 1 := by
    have hcount := List.nodup_iff_count_le_one.1 hnodup i
    rwa [List.count_eq_countP, List.countP_map, List.countP_eq_length_filter] at hcount
  have hfilter := hperm.filter (fun record => decide (record.index = i))
  cases hfirst : first.filter (·.index = i) with
  | nil =>
      rw [hfirst] at hfilter
      exact (List.nil_perm.1 hfilter).symm
  | cons record rest =>
      obtain rfl : rest = [] := by
        rw [hfirst, List.length_cons] at hone
        exact List.length_eq_zero_iff.1 (by omega)
      rw [hfirst] at hfilter
      exact List.singleton_perm.1 hfilter

end SameReports

/-- Sorting is stable on the records of one basis state. -/
theorem filter_mergeSort (records : List (Record R)) (i : Nat) :
    (records.mergeSort Record.before).filter (·.index = i) = records.filter (·.index = i) := by
  have hsub : (records.filter (·.index = i)).Sublist (records.mergeSort Record.before) := by
    refine List.sublist_mergeSort Record.before_trans Record.before_total ?_ List.filter_sublist
    refine List.pairwise_of_forall_mem_list fun a ha b hb => decide_eq_true (Nat.le_of_eq ?_)
    rw [of_decide_eq_true (List.mem_filter.1 ha).2, of_decide_eq_true (List.mem_filter.1 hb).2]
  have hfilter := hsub.filter (fun record => decide (record.index = i))
  simp only [List.filter_filter, Bool.and_self] at hfilter
  exact (hfilter.eq_of_length
    ((List.mergeSort_perm records Record.before).filter _).length_eq.symm).symm

/-- A sorted list is determined by its records of each basis state. -/
theorem eq_of_filter_eq {first second : List (Record R)}
    (hfirst : first.Pairwise fun a b => a.index ≤ b.index)
    (hsecond : second.Pairwise fun a b => a.index ≤ b.index)
    (h : ∀ i, first.filter (·.index = i) = second.filter (·.index = i)) : first = second := by
  induction first generalizing second with
  | nil =>
      cases second with
      | nil => rfl
      | cons b bs => simpa using h b.index
  | cons a as ih =>
      cases second with
      | nil => simpa using h a.index
      | cons b bs =>
          rw [List.pairwise_cons] at hfirst hsecond
          have hle : b.index ≤ a.index := by
            have hmem : a ∈ (b :: bs).filter (·.index = a.index) := by
              rw [← h]
              simp
            rcases List.mem_cons.1 (List.mem_filter.1 hmem).1 with rfl | hin
            · exact Nat.le_refl _
            · exact hsecond.1 a hin
          have hge : a.index ≤ b.index := by
            have hmem : b ∈ (a :: as).filter (·.index = b.index) := by
              rw [h]
              simp
            rcases List.mem_cons.1 (List.mem_filter.1 hmem).1 with rfl | hin
            · exact Nat.le_refl _
            · exact hfirst.1 b hin
          -- The two heads are the first records of one basis state.
          have hsame : a.index = b.index := Nat.le_antisymm hge hle
          have hhead := h a.index
          rw [List.filter_cons_of_pos (by simp), List.filter_cons_of_pos (by simp [hsame])] at hhead
          obtain ⟨rfl, htail⟩ := List.cons.inj hhead
          refine congrArg (List.cons a) (ih hfirst.2 hsecond.2 fun i => ?_)
          have hi := h i
          rw [List.filter_cons, List.filter_cons] at hi
          split at hi
          · exact (List.cons.inj hi).2
          · exact hi

theorem pairwise_mergeSort_before (records : List (Record R)) :
    (records.mergeSort Record.before).Pairwise fun a b => a.index ≤ b.index :=
  (List.pairwise_mergeSort Record.before_trans Record.before_total records).imp
    fun h => of_decide_eq_true h

/-- `SameReports` lists sort to the same list. -/
theorem SameReports.mergeSort_eq {first second : List (Record R)} (h : SameReports first second) :
    first.mergeSort Record.before = second.mergeSort Record.before := by
  refine eq_of_filter_eq (pairwise_mergeSort_before _) (pairwise_mergeSort_before _) fun i => ?_
  rw [filter_mergeSort, filter_mergeSort, h.each]

end SameReports

namespace ReportLog

variable {R : Type}

/-- `sorted` has rising indices. -/
theorem pairwise_sorted (log : ReportLog R) : log.sorted.Pairwise fun a b => a.index ≤ b.index :=
  pairwise_mergeSort_before log.kept

/-- Logs with a common start and the same records pushed in two orders; without wrapping the cursor
is at most `limit`. -/
def Reordered (limit : Nat) (a b : ReportLog R) : Prop :=
  ∃ (start start' : ReportLog R) (first second : List (Record R)),
    start.Agree start' ∧ SameReports first second ∧ start.cursor.toNat + first.length ≤ limit ∧
      a = first.foldl push start ∧ b = second.foldl push start'

namespace Reordered

variable {limit : Nat} {a b : ReportLog R}

/-- Agreeing logs are reordered. -/
theorem of_agree (h : a.Agree b) : Reordered a.cursor.toNat a b :=
  ⟨a, b, [], [], h, .refl [], Nat.le_refl _, rfl, rfl⟩

theorem mono (h : Reordered limit a b) {limit' : Nat} (hle : limit ≤ limit') :
    Reordered limit' a b := by
  obtain ⟨start, start', first, second, hstart, hsame, hlimit, ha, hb⟩ := h
  exact ⟨start, start', first, second, hstart, hsame, hlimit.trans hle, ha, hb⟩

/-- Pushing `SameReports` lists preserves `Reordered`. -/
theorem foldl_push (h : Reordered limit a b) {first second : List (Record R)}
    (hsame : SameReports first second) :
    Reordered (limit + first.length) (first.foldl push a) (second.foldl push b) := by
  obtain ⟨start, start', first₀, second₀, hstart, hsame₀, hlimit, rfl, rfl⟩ := h
  refine ⟨start, start', first₀ ++ first, second₀ ++ second, hstart, hsame₀.append hsame, ?_,
    List.foldl_append.symm, List.foldl_append.symm⟩
  rw [List.length_append]
  omega

theorem cursor (h : Reordered limit a b) : a.cursor = b.cursor := by
  obtain ⟨start, start', first, second, hstart, hsame, _, rfl, rfl⟩ := h
  rw [cursor_foldl_push, cursor_foldl_push, hstart.cursor, hsame.perm.length_eq]

theorem room (h : Reordered limit a b) : a.slots.size = b.slots.size := by
  obtain ⟨start, start', first, second, hstart, _, _, rfl, rfl⟩ := h
  rw [size_slots_foldl_push, size_slots_foldl_push, hstart.room]

/-- Reordered logs drop equally many records. -/
theorem dropped (h : Reordered limit a b) : a.dropped = b.dropped := by
  rw [ReportLog.dropped, ReportLog.dropped, h.cursor, h.room]

/-- If nothing is dropped, reordered logs keep `SameReports` records. -/
theorem sameReports_kept (h : Reordered limit a b) (hword : limit < 2 ^ 32)
    (hdropped : a.dropped = 0) : SameReports a.kept b.kept := by
  obtain ⟨start, start', first, second, hstart, hsame, hlimit, rfl, rfl⟩ := h
  have hroom : start.cursor.toNat + first.length ≤ start.slots.size := by
    rw [ReportLog.dropped, size_slots_foldl_push, toNat_cursor_foldl_push (by omega)] at hdropped
    omega
  have hroom' : start'.cursor.toNat + second.length ≤ start'.slots.size := by
    rw [← hstart.cursor, ← hstart.room, ← hsame.perm.length_eq]
    exact hroom
  have hword' : start'.cursor.toNat + second.length < 2 ^ 32 := by
    rw [← hstart.cursor, ← hsame.perm.length_eq]
    omega
  rw [kept_foldl_push hroom (by omega), kept_foldl_push hroom' hword', hstart.kept_eq]
  exact (SameReports.refl _).append hsame

/-- If nothing is dropped, reordered logs sort to the same list. -/
theorem sorted_eq (h : Reordered limit a b) (hword : limit < 2 ^ 32) (hdropped : a.dropped = 0) :
    a.sorted = b.sorted :=
  (h.sameReports_kept hword hdropped).mergeSort_eq

end Reordered

end ReportLog

/-! ## One step -/

/-- The reported indices are a sublist of the visited ones. -/
theorem index_reports_sublist (factor threshold : R) (w : Window R) (indices : List Nat) :
    ((reports factor threshold w indices).map (·.index)).Sublist indices := by
  induction indices with
  | nil => exact List.Sublist.slnil
  | cons i rest ih =>
      rw [reports_cons]
      split
      · exact ih.cons_cons i
      · exact ih.cons i

omit [Scalar R] in
theorem Shot.selected_of_extract {s : Shot R} (h : s.mode = .extract) : s.selected = .mEveryZ := by
  have hgate : ∀ k, Mode.ofArity k ≠ .extract := by
    intro k
    unfold Mode.ofArity
    split <;> exact Mode.noConfusion
  unfold mode at h
  split at h
  · cases h
  · rename_i hselected
    exact hselected
  · exact absurd h (hgate _)
  · cases h
  · exact absurd h (hgate _)

namespace Lane

/-- The records a step pushes, in the order of arrival. -/
def newReports (lane : Lane R) (job : Job R) (shotIdx : Nat) : List (Record R) :=
  job.arrivals (lane.prepare job shotIdx).shot lane.block

/-- Only `mEveryZ` prepares an extraction. -/
theorem code_of_extract {lane : Lane R} {job : Job R} {shotIdx : Nat}
    (h : (lane.prepare job shotIdx).shot.mode = .extract) :
    ∃ op, job.ops[lane.shot.nextOp]? = some op ∧ op.isResetAll = false ∧ op.code = .mEveryZ := by
  cases hop : job.ops[lane.shot.nextOp]? with
  | none =>
      rw [prepare_past_end hop] at h
      cases h
  | some op =>
      refine ⟨op, rfl, ?_⟩
      cases hreset : op.isResetAll with
      | true =>
          rw [prepare_of_resetAll hop hreset] at h
          cases h
      | false =>
          have hselected := Shot.selected_of_extract h
          rcases selectable_prepare hop hreset shotIdx with hid | hinjected | ⟨hcode, _⟩
          · rw [hselected] at hid
            cases hid
          · rw [hselected] at hinjected
            cases hinjected
          · exact ⟨rfl, hcode.symm.trans hselected⟩

/-- A step on any other operation reports nothing. -/
theorem newReports_eq_nil {lane : Lane R} {job : Job R}
    (h : ∀ op, job.ops[lane.shot.nextOp]? = some op → op.isResetAll = false → op.code ≠ .mEveryZ)
    (shotIdx : Nat) : lane.newReports job shotIdx = [] := by
  refine job.arrivals_of_not_extract _ fun hmode => ?_
  obtain ⟨op, hop, hreset, hcode⟩ := code_of_extract hmode
  exact h op hop hreset hcode

/-- A restart reports nothing. -/
theorem newReports_of_resetAll {lane : Lane R} {job : Job R} {op : Op R}
    (hop : job.ops[lane.shot.nextOp]? = some op) (hreset : op.isResetAll = true) (shotIdx : Nat) :
    lane.newReports job shotIdx = [] := by
  refine newReports_eq_nil (fun other hother hnot => ?_) shotIdx
  obtain rfl := Option.some.inj (hop.symm.trans hother)
  rw [hreset] at hnot
  cases hnot

/-- The reports of a step under two schedules are permutations of each other. -/
theorem newReports_perm (lane : Lane R) (job : Job R) (schedule : Schedule) (shotIdx : Nat) :
    (lane.newReports job shotIdx).Perm
      (lane.newReports { job with schedule := schedule } shotIdx) :=
  (job.arrivals_perm _ _).trans (Job.arrivals_perm { job with schedule := schedule } _ _).symm

/-- `prepare` keeps the log on operations other than restarts. -/
theorem log_prepare {lane : Lane R} {job : Job R} {op : Op R}
    (hop : job.ops[lane.shot.nextOp]? = some op) (hreset : op.isResetAll = false) (shotIdx : Nat) :
    (lane.prepare job shotIdx).log = lane.log := by
  rw [log_prepare_eq, hop, Option.map_some, hreset, if_neg (by simp)]

section Steps

variable {job : Job R} {e w : Nat} (ht : job.layout.Tiled e w)

include ht

/-- The block after a step is independent of the schedule. -/
theorem block_step (hroom : job.batch.qubits ≤ job.layout.qubitCount) {lane : Lane R}
    (hblock : lane.block.size = job.layout.entriesPerShot) (shotIdx : Nat) :
    (lane.step job shotIdx).block = job.blockAfter (lane.prepare job shotIdx).shot lane.block := by
  have hframe := (lane.prepare_frame job shotIdx).1
  rw [step, execute_eq ht (placed_prepare lane job shotIdx hroom) (hframe ▸ hblock), hframe]

/-- A step pushes its reports. -/
theorem log_step {lane : Lane R} (hblock : lane.block.size = job.layout.entriesPerShot)
    (shotIdx : Nat) :
    (lane.step job shotIdx).log =
      (lane.newReports job shotIdx).foldl ReportLog.push (lane.prepare job shotIdx).log := by
  have hframe := (lane.prepare_frame job shotIdx).1
  rw [step, log_execute ht (hframe ▸ hblock), newReports, hframe]

/-- The reports of a step name distinct indices of the block. -/
theorem index_newReports_subperm (lane : Lane R) (shotIdx : Nat) :
    ((lane.newReports job shotIdx).map (·.index)).Subperm
      (List.range job.layout.entriesPerShot) := by
  refine ((job.arrivals_perm _ _).map _).subperm.trans ?_
  rw [Job.reportsOf]
  split
  · rename_i hmode
    have hnone : (lane.prepare job shotIdx).shot.mode.operands
        (job.current (lane.prepare job shotIdx).shot) = [] := by rw [hmode]; rfl
    exact (index_reports_sublist _ _ _ _).subperm.trans
      (perm_flatten_shares ht (.of_operands_nil hnone)).subperm
  · exact List.nil_subperm

/-- The reports of a step have distinct indices. -/
theorem nodup_newReports (lane : Lane R) (shotIdx : Nat) :
    ((lane.newReports job shotIdx).map (·.index)).Nodup := by
  obtain ⟨indices, hperm, hsub⟩ := lane.index_newReports_subperm ht shotIdx
  exact hperm.nodup_iff.1 (List.nodup_range.sublist hsub)

/-- A step reports at most `entriesPerShot` records. -/
theorem length_newReports_le (lane : Lane R) (shotIdx : Nat) :
    (lane.newReports job shotIdx).length ≤ job.layout.entriesPerShot := by
  have hlength := (lane.index_newReports_subperm ht shotIdx).length_le
  rwa [List.length_map, List.length_range] at hlength

/-- If two schedules order the reports of a step alike, the steps are equal. -/
theorem step_of_newReports_eq {lane : Lane R} (hblock : lane.block.size = job.layout.entriesPerShot)
    {schedule : Schedule} {shotIdx : Nat}
    (h : lane.newReports { job with schedule := schedule } shotIdx = lane.newReports job shotIdx) :
    lane.step { job with schedule := schedule } shotIdx = lane.step job shotIdx := by
  have ht' : ({ job with schedule := schedule } : Job R).layout.Tiled e w := ht
  have hlog : (lane.step { job with schedule := schedule } shotIdx).log =
    (lane.step job shotIdx).log := by
    rw [log_step ht hblock, log_step ht' hblock, h]
    rfl
  rw [step] at hlog ⊢
  rw [execute_schedule, hlog]
  rfl

end Steps

end Lane

/-! ## Whole runs -/

/-- The number of reports since the last restart. -/
def reportCount {R : Type} (ops : List (Op R)) : Nat :=
  (sinceRestart ops).countP fun op => op.code = .mEveryZ

section ReportCount

variable {R : Type} {op : Op R}

/-- A restart clears the report count. -/
theorem reportCount_append_reset (ops : List (Op R)) (h : op.isResetAll = true) :
    reportCount (ops ++ [op]) = 0 := by
  rw [reportCount, sinceRestart_append_reset ops h, List.countP_nil]

/-- `mEveryZ` increments the report count. -/
theorem reportCount_append (ops : List (Op R)) (h : op.isResetAll = false) :
    reportCount (ops ++ [op]) = reportCount ops + if op.code = .mEveryZ then 1 else 0 := by
  rw [reportCount, reportCount, sinceRestart_append ops h, List.countP_append,
    List.countP_singleton]
  simp only [decide_eq_true_eq]

end ReportCount

/-- Lanes that agree except for the order of their records. -/
structure Lane.Reordered (resultCount limit : Nat) (a b : Lane R) : Prop
    extends Lane.Matches resultCount a b where
  log : a.log.Reordered limit b.log

namespace Lane

omit [Scalar R] in
/-- Agreeing lanes are reordered. -/
theorem Agree.reordered {resultCount : Nat} {a b : Lane R} (h : Agree resultCount a b) :
    Reordered resultCount a.log.cursor.toNat a b :=
  ⟨h.toMatches, .of_agree h.log⟩

def passed (lane : Lane R) (job : Job R) : List (Op R) := job.ops.toList.take lane.shot.nextOp

omit [Scalar R] in
theorem passed_of_nextOp_eq {lane lane' : Lane R} {job : Job R} {op : Op R}
    (hop : job.ops[lane.shot.nextOp]? = some op) (h : lane'.shot.nextOp = lane.shot.nextOp + 1) :
    lane'.passed job = lane.passed job ++ [op] := by
  rw [passed, passed, h, List.take_add_one, Array.getElem?_toList, hop]
  rfl

/-- The position after `count` steps. -/
theorem nextOp_after_eq {lane : Lane R} {job : Job R} (h : lane.shot.nextOp ≤ job.ops.size)
    (shotIdx count : Nat) :
    (lane.after job shotIdx count).shot.nextOp = min (lane.shot.nextOp + count) job.ops.size := by
  induction count generalizing lane with
  | zero => exact (Nat.min_eq_left h).symm
  | succ count ih =>
      cases hop : job.ops[lane.shot.nextOp]? with
      | none =>
          have hend := Array.getElem?_eq_none_iff.1 hop
          have hstay : (lane.step job shotIdx).shot.nextOp = lane.shot.nextOp := by
            rw [shot_step, prepare_past_end hop]
          rw [after, ih (hstay ▸ h), hstay]
          omega
      | some op =>
          have hlt := (Array.getElem?_eq_some_iff.1 hop).1
          have hnext : (lane.step job shotIdx).shot.nextOp = lane.shot.nextOp + 1 := by
            rw [shot_step, nextOp_prepare shotIdx hop]
          rw [after, ih (by omega), hnext]
          omega

/-- The operations passed after `count` steps. -/
theorem passed_after {lane : Lane R} {job : Job R} (h : lane.shot.nextOp = 0)
    (shotIdx count : Nat) :
    (lane.after job shotIdx count).passed job = job.ops.toList.take count := by
  rw [passed, nextOp_after_eq (by omega), h, Nat.zero_add, ← Array.length_toList,
    ← List.take_eq_take_min]

section Steps

variable {job : Job R} {e w : Nat} (ht : job.layout.Tiled e w) (schedule : Schedule)
  {limit shotIdx : Nat} {a b : Lane R}

omit ht in
/-- Under another schedule a step differs in the log only. -/
theorem Matches.step (h : Matches job.resultCount a b) (shotIdx : Nat) :
    Matches job.resultCount (a.step job shotIdx)
      (b.step { job with schedule := schedule } shotIdx) := by
  have hexecute := (h.prepare shotIdx).execute job
  have hschedule := execute_schedule job schedule (b.prepare job shotIdx)
  have hsame : b.step { job with schedule := schedule } shotIdx =
      (b.prepare job shotIdx).execute { job with schedule := schedule } := rfl
  rw [hsame, hschedule]
  exact ⟨hexecute.shot, hexecute.block, hexecute.sums, hexecute.slotCount, hexecute.slots⟩

include ht

/-- A step under two schedules preserves `Reordered`: a restart empties both logs, a report pushes
the same records to both. -/
theorem Reordered.step
    (h : Reordered job.resultCount
      (limit + reportCount (a.passed job) * job.layout.entriesPerShot) a b)
    (hblock : a.block.size = job.layout.entriesPerShot) (shotIdx : Nat) :
    Reordered job.resultCount
      (limit + reportCount ((a.step job shotIdx).passed job) * job.layout.entriesPerShot)
      (a.step job shotIdx) (b.step { job with schedule := schedule } shotIdx) := by
  refine ⟨h.toMatches.step schedule shotIdx, ?_⟩
  have ht' : ({ job with schedule := schedule } : Job R).layout.Tiled e w := ht
  have hlog := log_step ht hblock shotIdx
  have hlog' : (b.step { job with schedule := schedule } shotIdx).log =
      (a.newReports { job with schedule := schedule } shotIdx).foldl ReportLog.push
        (b.prepare job shotIdx).log := by
    have hprepare := (h.toMatches.prepare shotIdx).shot
    rw [log_step ht' (h.block ▸ hblock), newReports, newReports, ← h.block]
    exact congrArg (fun shot => List.foldl ReportLog.push (b.prepare job shotIdx).log
      (Job.arrivals { job with schedule := schedule } shot a.block)) hprepare.symm
  have hsame : SameReports (a.newReports job shotIdx)
      (a.newReports { job with schedule := schedule } shotIdx) :=
    .of_nodup (a.newReports_perm job schedule shotIdx) (a.nodup_newReports ht shotIdx)
  rw [hlog, hlog']
  cases hop : job.ops[a.shot.nextOp]? with
  | none =>
      -- Past the end of the program.
      have hnext : (a.step job shotIdx).passed job = a.passed job := by
        rw [passed, shot_step, prepare_past_end hop]
        rfl
      have hquiet : a.newReports job shotIdx = [] :=
        newReports_eq_nil (fun op hsome => by rw [hop] at hsome; cases hsome) shotIdx
      have hpast : ∀ {lane : Lane R}, a.shot = lane.shot →
          (lane.prepare job shotIdx).log = lane.log := by
        intro lane hshot
        rw [log_prepare_eq, ← hshot, hop, Option.map_none, if_neg nofun]
      rw [hquiet] at hsame ⊢
      rw [hnext, hpast rfl, hpast h.shot, List.nil_perm.1 hsame.perm]
      exact h.log
  | some op =>
      have hnext : (a.step job shotIdx).passed job = a.passed job ++ [op] :=
        passed_of_nextOp_eq hop (by rw [shot_step, nextOp_prepare shotIdx hop])
      have hop' : job.ops[b.shot.nextOp]? = some op := h.shot ▸ hop
      rw [hnext]
      cases hreset : op.isResetAll with
      | true =>
          have hquiet := newReports_of_resetAll hop hreset shotIdx
          have hempty : ∀ {lane : Lane R}, job.ops[lane.shot.nextOp]? = some op →
              (lane.prepare job shotIdx).log = { lane.log with cursor := 0 } := by
            intro lane hsome
            rw [log_prepare_eq, hsome, Option.map_some, hreset, if_pos rfl]
          rw [hquiet] at hsame ⊢
          rw [List.nil_perm.1 hsame.perm, reportCount_append_reset _ hreset, hempty hop,
            hempty hop']
          have hagree : ReportLog.Agree { a.log with cursor := 0 } { b.log with cursor := 0 } :=
            .of_cursor_zero rfl rfl h.log.room
          exact (ReportLog.Reordered.of_agree hagree).mono (Nat.zero_le _)
      | false =>
          rw [reportCount_append _ hreset, log_prepare hop hreset, log_prepare hop' hreset]
          refine (h.log.foldl_push hsame).mono ?_
          by_cases hcode : op.code = .mEveryZ
          · have hlength := a.length_newReports_le ht shotIdx
            rw [if_pos hcode, Nat.succ_mul]
            omega
          · have hquiet : a.newReports job shotIdx = [] := by
              refine newReports_eq_nil (fun other hother _ => ?_) shotIdx
              rwa [← Option.some.inj (hop.symm.trans hother)]
            rw [if_neg hcode, hquiet]
            exact Nat.le_refl _

/-- A run of steps under two schedules preserves `Reordered`. -/
theorem Reordered.after
    (h : Reordered job.resultCount
      (limit + reportCount (a.passed job) * job.layout.entriesPerShot) a b)
    {resultsPerShot resultCount : Nat} (hfits : a.Fits job.layout resultsPerShot resultCount)
    (shotIdx count : Nat) :
    Reordered job.resultCount
      (limit + reportCount ((a.after job shotIdx count).passed job) * job.layout.entriesPerShot)
      (a.after job shotIdx count) (b.after { job with schedule := schedule } shotIdx count) := by
  induction count generalizing a b with
  | zero => exact h
  | succ count ih =>
      exact ih (h.step ht schedule hfits.block shotIdx) (fits_step ht hfits shotIdx)

/-- A restart makes two lanes reordered with empty logs. -/
theorem reordered_step_of_resetAll (hshot : a.shot = b.shot) {op : Op R}
    (hop : job.ops[a.shot.nextOp]? = some op) (hreset : op.isResetAll = true) {resultsPerShot : Nat}
    (ha : a.Fits job.layout resultsPerShot job.resultCount)
    (hb : b.Fits job.layout resultsPerShot job.resultCount) (shotIdx : Nat) :
    Reordered job.resultCount 0 (a.step job shotIdx)
      (b.step { job with schedule := schedule } shotIdx) := by
  have hop' : job.ops[b.shot.nextOp]? = some op := hshot ▸ hop
  have hnext : ({ job with schedule := schedule } : Job R).ops[b.shot.nextOp]? = some op := hop'
  have hsame := (newReports_of_resetAll hnext hreset shotIdx).trans
    (newReports_of_resetAll hop' hreset shotIdx).symm
  have hcursor : (a.step job shotIdx).log.cursor = 0 := by
    rw [log_step ht ha.block, newReports_of_resetAll hop hreset, List.foldl_nil,
      prepare_of_resetAll hop hreset]
    rfl
  have hagree := agree_step_of_resetAll ht hshot hop hreset ha hb shotIdx
  have hlimit := hagree.reordered
  rw [hcursor] at hlimit
  rw [step_of_newReports_eq ht hb.block hsame]
  exact hlimit

/-- Runs that begin with a restart are reordered, whatever the lanes held. -/
theorem reordered_after_of_blank {op : Op R} (hop : job.ops[0]? = some op)
    (hreset : op.isResetAll = true) {resultsPerShot : Nat}
    (ha : a.Fits job.layout resultsPerShot job.resultCount)
    (hb : b.Fits job.layout resultsPerShot job.resultCount) (shotIdx : Nat) {count : Nat}
    (hcount : 0 < count) :
    Reordered job.resultCount (reportCount (job.ops.toList.take count) * job.layout.entriesPerShot)
      (after { a with shot := 0 } job shotIdx count)
      (after { b with shot := 0 } { job with schedule := schedule } shotIdx count) := by
  let begun : Lane R := { a with shot := 0 }
  have hpassed : (begun.after job shotIdx count).passed job = job.ops.toList.take count :=
    passed_after rfl shotIdx count
  cases count with
  | zero => exact absurd hcount (Nat.lt_irrefl 0)
  | succ count =>
      have hstep := reordered_step_of_resetAll (a := begun) (b := { b with shot := 0 }) ht schedule
        rfl hop hreset ha.begun hb.begun shotIdx
      have hfits : (begun.step job shotIdx).Fits job.layout resultsPerShot job.resultCount :=
        fits_step ht ha.begun shotIdx
      have hstart : Reordered job.resultCount
          (0 + reportCount ((begun.step job shotIdx).passed job) * job.layout.entriesPerShot)
          (begun.step job shotIdx)
          (Lane.step { b with shot := 0 } { job with schedule := schedule } shotIdx) :=
        ⟨hstep.toMatches, hstep.log.mono (Nat.zero_le _)⟩
      have hafter := hstart.after ht schedule hfits shotIdx count
      rw [Nat.zero_add] at hafter
      rw [← hpassed]
      exact hafter

/-- Runs from agreeing lanes under two schedules are reordered. -/
theorem reordered_after_of_agree (h : Agree job.resultCount a b) (hstart : a.shot.nextOp = 0)
    {resultsPerShot resultCount : Nat} (hfits : a.Fits job.layout resultsPerShot resultCount)
    (shotIdx count : Nat) :
    Reordered job.resultCount
      (a.log.cursor.toNat + reportCount (job.ops.toList.take count) * job.layout.entriesPerShot)
      (a.after job shotIdx count) (b.after { job with schedule := schedule } shotIdx count) := by
  have hreordered : Reordered job.resultCount
      (a.log.cursor.toNat + reportCount (a.passed job) * job.layout.entriesPerShot) a b :=
    ⟨h.toMatches, h.reordered.log.mono (Nat.le_add_right _ _)⟩
  have hafter := hreordered.after ht schedule hfits shotIdx count
  rwa [passed_after hstart] at hafter

/-- With a single workgroup a run is independent of the schedule. -/
theorem after_of_single (h : job.layout.workgroups = 1) {resultsPerShot resultCount : Nat}
    (hfits : a.Fits job.layout resultsPerShot resultCount) (shotIdx count : Nat) :
    a.after { job with schedule := schedule } shotIdx count = a.after job shotIdx count := by
  induction count generalizing a with
  | zero => rfl
  | succ count ih =>
      have hsame : a.newReports { job with schedule := schedule } shotIdx =
        a.newReports job shotIdx := by
        have hone : ({ job with schedule := schedule } : Job R).layout.workgroups = 1 := h
        rw [newReports, newReports, Job.arrivals_of_single _ _ _ h,
          Job.arrivals_of_single _ _ _ hone]
        rfl
      rw [after, after, step_of_newReports_eq ht hfits.block hsame]
      exact ih (fits_step ht hfits shotIdx)

/-- A run reads the schedule at its own shot id only. -/
theorem after_of_schedule
    (h : schedule (job.batch.firstShot + UInt32.ofNat shotIdx) =
      job.schedule (job.batch.firstShot + UInt32.ofNat shotIdx))
    {resultsPerShot resultCount : Nat} (hfits : a.Fits job.layout resultsPerShot resultCount)
    (hown : a.shot.id = job.batch.firstShot + UInt32.ofNat shotIdx ∨
      ∃ op, job.ops[a.shot.nextOp]? = some op ∧ op.isResetAll = true) (count : Nat) :
    a.after { job with schedule := schedule } shotIdx count = a.after job shotIdx count := by
  induction count generalizing a with
  | zero => rfl
  | succ count ih =>
      have hid : (a.prepare job shotIdx).shot.id = job.batch.firstShot + UInt32.ofNat shotIdx := by
        rw [id_prepare]
        rcases hown with hown | ⟨op, hop, hreset⟩
        · rw [hown]
          exact ite_self _
        · rw [hop, Option.any_some, hreset, if_pos rfl]
      have hsame : a.newReports { job with schedule := schedule } shotIdx =
        a.newReports job shotIdx := by
        have hschedule : schedule (a.prepare job shotIdx).shot.id =
            job.schedule (a.prepare job shotIdx).shot.id := by rw [hid, h]
        have hprepare : a.prepare { job with schedule := schedule } shotIdx =
          a.prepare job shotIdx := rfl
        rw [newReports, newReports, Job.arrivals, Job.arrivals, hprepare, ← hschedule]
        rfl
      have hnext : (a.step job shotIdx).shot.id = job.batch.firstShot + UInt32.ofNat shotIdx := by
        rw [shot_step, hid]
      rw [after, after, step_of_newReports_eq ht hfits.block hsame]
      exact ih (fits_step ht hfits shotIdx) (Or.inl hnext)

end Steps

end Lane

/-- A checked circuit has at most `2 ^ 27` amplitudes, so fewer than 32 reports do not wrap a cursor
around. -/
theorem Config.Checked.mul_entriesPerShot_lt {c : Config R} (h : c.Checked) {reports : Nat}
    (hreports : reports < 32) :
    reports * (Layout.ofCircuit c.qubits c.qubitsPerWorkgroup).entriesPerShot < 2 ^ 32 := by
  have hqubits : (Layout.ofCircuit c.qubits c.qubitsPerWorkgroup).qubitCount ≤ maxQubitCount :=
    Nat.max_le.2 ⟨h.qubits_le, by decide⟩
  have hentries : (Layout.ofCircuit c.qubits c.qubitsPerWorkgroup).entriesPerShot ≤
      2 ^ maxQubitCount :=
    Nat.pow_le_pow_right (by decide) hqubits
  calc reports * (Layout.ofCircuit c.qubits c.qubitsPerWorkgroup).entriesPerShot
      ≤ 31 * 2 ^ maxQubitCount := Nat.mul_le_mul (by omega) hentries
    _ < 2 ^ 32 := by decide

/-! ## Machines -/

namespace Machine.SameSetup

variable {m m' : Machine R} (h : m.SameSetup m') {e w : Nat} (ht : m.layout.Tiled e w)
    {batch : Batch R}
  {op : Op R} (hop : m.ops[0]? = some op) (hreset : op.isResetAll = true) {count : Nat}
  (hcount : 0 < count)

include h ht hop hreset hcount

/-- On equally set up machines with two schedules, the shots of a batch that begins with a restart
are reordered. -/
theorem reordered_active {i : Nat} {lane lane' : Lane R}
    (hlane : ((m.beginBatch batch).run count).active[i]? = some lane)
    (hlane' : ((m'.beginBatch batch).run count).active[i]? = some lane') :
    Lane.Reordered m.resultCount
      (reportCount (m.ops.toList.take count) * m.layout.entriesPerShot) lane lane' := by
  have hjob : m'.batchJob batch = { m.batchJob batch with schedule := m'.pool.schedule } := by
    simp only [batchJob, h.ops, h.idle, h.layout, h.resultCount]
  have htiled : (m.batchJob batch).layout.Tiled e w := ht
  rw [active_run_beginBatch, List.getElem?_mapIdx, Option.map_eq_some_iff] at hlane hlane'
  obtain ⟨old, hold, rfl⟩ := hlane
  obtain ⟨old', hold', rfl⟩ := hlane'
  have hfits :=
    h.fits old (Array.mem_toList_iff.1 (List.mem_of_mem_take (List.mem_of_getElem? hold)))
  have hfits' := h.fits' old'
    (Array.mem_toList_iff.1 (List.mem_of_mem_take (List.mem_of_getElem? hold')))
  rw [h.layout, h.resultsPerShot, h.resultCount] at hfits'
  rw [hjob]
  exact Lane.reordered_after_of_blank htiled _ hop hreset hfits hfits' i hcount

/-- Observations that ignore the order of records coincide. -/
theorem map_active_eq (hsize : m'.lanes.size = m.lanes.size) {β : Type} (f : Lane R → β)
    (hf : ∀ a b, Lane.Reordered m.resultCount
      (reportCount (m.ops.toList.take count) * m.layout.entriesPerShot) a b → f a = f b) :
    ((m.beginBatch batch).run count).active.map f =
      ((m'.beginBatch batch).run count).active.map f := by
  have hlength : ((m.beginBatch batch).run count).active.length =
      ((m'.beginBatch batch).run count).active.length := by
    simp only [active_run_beginBatch, List.length_mapIdx, List.length_take,
      Array.length_toList, hsize]
  apply List.ext_getElem (by simpa using hlength)
  intro i hi hi'
  rw [List.length_map] at hi hi'
  rw [List.getElem_map, List.getElem_map]
  exact hf _ _ (h.reordered_active ht hop hreset hcount (List.getElem?_eq_getElem hi)
    (List.getElem?_eq_getElem hi'))

end Machine.SameSetup

end ShotSim
