import Mathlib.Data.List.Flatten
import Mathlib.Data.List.Perm.Basic
import ShotSim.Proofs.Prepare
import ShotSim.Proofs.Sweep

/-!
# Workgroups — one step of a shot, cut into shares

A step hands every workgroup a share of the groups.  Each share is described here in terms of the
amplitudes from before the step, so it does not matter which share comes first, nor whether a
workgroup is given the whole block or only the stretch that it owns.

* `Job.share`, `Job.shareSums`, `Job.reportsOf` — what a workgroup touches, leaves and reports;
* `runWhole_window`, `runWhole_sums`, `runWhole_log` — a run of workgroups in any order;
* `runWorkgroup_shard`, `runWorkgroup_shard_sums`, `workgroupReports_shard` — a workgroup on its own
  stretch;
* `Job.arrivals`, `Lane.execute_eq` — a step, whatever the schedule;
* `Lane.execute_eq_executeWhole` — in order, going stretch by stretch changes nothing.
-/

namespace ShotSim

open BasisIndex

variable {R : Type} [Scalar R]

/-! ## Interleaved queues -/

section Interleave

variable {α : Type}

/-- Popping the head of one queue removes one item from the flattened queues. -/
theorem perm_flatten_set {queues : List (List α)} {turn : Nat} {item : α} {rest : List α}
    (h : queues[turn]? = some (item :: rest)) :
    (item :: (queues.set turn rest).flatten).Perm queues.flatten := by
  obtain ⟨hlt, hqueue⟩ := List.getElem?_eq_some_iff.1 h
  have hset :
      ∀ queue, queues.set turn queue = queues.take turn ++ queue :: queues.drop (turn + 1) := by
    intro queue
    rw [List.set_eq_take_append_cons_drop, if_pos hlt]
  have hself : queues = queues.set turn (item :: rest) := by
    rw [← hqueue, List.set_getElem_self]
  rw [hself, List.set_set, hset, hset]
  simp only [List.flatten_append, List.flatten_cons, List.cons_append]
  exact List.perm_middle.symm

/-- Every interleaving permutes the items of the queues. -/
theorem interleave_perm (turns : List Nat) (queues : List (List α)) :
    (interleave turns queues).Perm queues.flatten := by
  fun_induction interleave turns queues with
  | case1 queues => exact List.Perm.refl _
  | case2 turn turns queues item rest hqueue ih =>
      exact (ih.cons item).trans (perm_flatten_set hqueue)
  | case3 turn turns queues _ ih => exact ih

/-- A single queue is interleaved in order. -/
theorem interleave_singleton {α : Type} (turns : List Nat) (queue : List α) :
    interleave turns [queue] = queue := by
  induction turns generalizing queue with
  | nil => simp [interleave]
  | cons turn rest ih =>
      cases turn with
      | zero =>
          cases queue with
          | nil => simpa [interleave] using ih []
          | cons first later => simpa [interleave] using ih later
      | succ turn => simpa [interleave] using ih queue


end Interleave

namespace Action

/-- An extraction only looks. -/
theorem ofShot_of_extract {shot : Shot R} (h : shot.mode = .extract) (op : Op R) :
    ofShot shot op = look := by
  rw [ofShot, h]

theorem ofShot_of_gate {shot : Shot R} (h : 0 < shot.mode.arity) (op : Op R) :
    ofShot shot op = gate (shot.operator op) shot.renormalize := by
  rw [ofShot]
  cases hmode : shot.mode with
  | resetAll | extract | scaleOnly =>
      rw [hmode] at h
      exact absurd h (Nat.lt_irrefl 0)
  | gate1 | gate2 | gate3 => rfl

end Action

/-! ## Shares -/

namespace Job

def action (job : Job R) (shot : Shot R) : Action R := .ofShot shot (job.current shot)

def workerShare (job : Job R) (shot : Shot R) (worker : Nat) : List (List Nat) :=
  groups shot.mode (job.current shot).q1 (job.current shot).q2 (job.current shot).q3
    job.layout.entriesPerThread worker

def share (job : Job R) (shot : Shot R) (workgroup : Nat) : List (List Nat) :=
  workgroupGroups shot.mode (job.current shot) job.layout.entriesPerThread workgroup

def shares (job : Job R) (shot : Shot R) : List (List Nat) :=
  (List.range job.layout.workgroups).flatMap (job.share shot)

/-- The block after the step, all shares swept in order. -/
def blockAfter (job : Job R) (shot : Shot R) (block : Array (Cplx R)) : Array (Cplx R) :=
  (sweep (job.action shot) (job.shares shot) ⟨0, block⟩).1.amps

/-- The sums of a workgroup for the initial window `w`. -/
def shareSums (job : Job R) (shot : Shot R) (w : Window R) (workgroup : Nat) : Sums R :=
  Sums.ofThreads shot.collects job.batch.qubits
    ((workerItems workgroup threadsPerWorkgroup).map fun worker =>
      (job.workerShare shot worker).flatMap ((job.action shot).visits w))

/-- The reports of the groups `gs` for the initial window `w`. -/
def reportsOf (job : Job R) (shot : Shot R) (w : Window R) (gs : List (List Nat)) :
    List (Record R) :=
  if shot.mode = .extract then reports shot.renormalize job.batch.threshold w gs.flatten else []

/-- Sweeping all shares computes `blockAfter`. -/
theorem sweep_shares (job : Job R) (shot : Shot R) (block : Array (Cplx R)) :
    (sweep (job.action shot) (job.shares shot) ⟨0, block⟩).1 = ⟨0, job.blockAfter shot block⟩ := by
  have hbase := base_sweep (job.action shot) (job.shares shot) ⟨0, block⟩
  exact congrArg (Window.mk · (job.blockAfter shot block)) hbase

theorem size_blockAfter (job : Job R) (shot : Shot R) (block : Array (Cplx R)) :
    (job.blockAfter shot block).size = block.size :=
  size_sweep (job.action shot) (job.shares shot) ⟨0, block⟩

@[simp] theorem reportsOf_nil (job : Job R) (shot : Shot R) (w : Window R) :
    job.reportsOf shot w [] = [] := by
  unfold reportsOf
  split <;> rfl

/-- Reports of appended groups are appended. -/
theorem reportsOf_append (job : Job R) (shot : Shot R) (w : Window R) (gs gs' : List (List Nat)) :
    job.reportsOf shot w (gs ++ gs') = job.reportsOf shot w gs ++ job.reportsOf shot w gs' := by
  unfold reportsOf
  split
  · rw [List.flatten_append, reports_append]
  · rfl

theorem reportsOf_flatMap {α : Type} (job : Job R) (shot : Shot R) (w : Window R) (xs : List α)
    (f : α → List (List Nat)) :
    job.reportsOf shot w (xs.flatMap f) = xs.flatMap fun x => job.reportsOf shot w (f x) := by
  induction xs with
  | nil => exact job.reportsOf_nil shot w
  | cons x rest ih => rw [List.flatMap_cons, List.flatMap_cons, reportsOf_append, ih]

/-- Only an extraction reports. -/
theorem reportsOf_of_not_extract {shot : Shot R} (h : shot.mode ≠ .extract) (job : Job R)
    (w : Window R) (gs : List (List Nat)) : job.reportsOf shot w gs = [] :=
  if_neg h

/-- Permuting groups permutes their reports. -/
theorem reportsOf_perm (job : Job R) (shot : Shot R) (w : Window R) {gs gs' : List (List Nat)}
    (h : gs.Perm gs') : (job.reportsOf shot w gs).Perm (job.reportsOf shot w gs') := by
  unfold reportsOf
  split
  · exact h.flatten.filterMap _
  · exact List.Perm.nil

/-- Reports depend on the amplitudes of their groups only. -/
theorem reportsOf_congr (job : Job R) (shot : Shot R) {w w' : Window R} {gs : List (List Nat)}
    (h : ∀ i ∈ gs.flatten, w.get i = w'.get i) :
    job.reportsOf shot w gs = job.reportsOf shot w' gs := by
  unfold reportsOf
  split
  · exact reports_congr _ _ h
  · rfl

/-- A reporting sweep keeps the amplitudes that later reports read. -/
theorem reportsOf_sweep (job : Job R) (shot : Shot R) (w : Window R) (gs gs' : List (List Nat)) :
    job.reportsOf shot (sweep (job.action shot) gs w).1 gs' = job.reportsOf shot w gs' := by
  unfold reportsOf
  split
  · rename_i hmode
    rw [action, Action.ofShot_of_extract hmode, sweep_look]
  · rfl

end Job

/-- A sweep keeps groups disjoint from those it visits. -/
theorem sweep_parts (action : Action R) {gs gs' : List (List Nat)} {w : Window R}
    (hnodup : (gs ++ gs').flatten.Nodup) (hown : ∀ i ∈ (gs ++ gs').flatten, w.Owns i) :
    (gs.flatten.Nodup ∧ ∀ i ∈ gs.flatten, w.Owns i) ∧
      (gs'.flatten.Nodup ∧ ∀ i ∈ gs'.flatten, (sweep action gs w).1.Owns i) ∧
        ∀ i ∈ gs'.flatten, (sweep action gs w).1.get i = w.get i := by
  rw [List.flatten_append] at hnodup hown
  have hparts := List.nodup_append.1 hnodup
  have hhead : ∀ i ∈ gs.flatten, w.Owns i := by
    intro i hi
    exact hown i (List.mem_append_left _ hi)
  have htail : ∀ i ∈ gs'.flatten, w.Owns i := by
    intro i hi
    exact hown i (List.mem_append_right _ hi)
  refine ⟨⟨hparts.1, hhead⟩, ⟨hparts.2.1, ?_⟩, ?_⟩
  · intro i hi
    rw [owns_sweep]
    exact htail i hi
  · intro i hi
    exact get_sweep_of_notMem hhead (htail i hi)
      (fun hfirst => List.disjoint_of_nodup_append hnodup hfirst hi)

/-! ## Workers -/

namespace Window

variable (job : Job R) (shot : Shot R)

/-- A worker sweeps its share. -/
theorem runWorker_eq (w : Window R) (worker : Nat) :
    w.runWorker job shot (job.current shot) worker =
      sweep (job.action shot) (job.workerShare shot worker) w := rfl

/-- A worker reports its share. -/
theorem workerReports_eq (w : Window R) (worker : Nat) :
    w.workerReports job shot worker = job.reportsOf shot w (job.workerShare shot worker) := by
  rw [workerReports, Job.reportsOf]
  split
  · -- The groups of a report are the indices themselves.
    rename_i hmode
    have hshare : (job.workerShare shot worker).flatten =
        workerItems worker job.layout.entriesPerThread := by
      simp [Job.workerShare, hmode, groups, ← List.flatMap_def]
    rw [hshare]
  · rfl

/-- Workers in sequence sweep their shares in sequence. -/
theorem runWorkers_fst (workers : List Nat) (w : Window R) :
    (runWorkers job shot (job.current shot) workers w).1 =
      (sweep (job.action shot) (workers.flatMap (job.workerShare shot)) w).1 := by
  induction workers generalizing w with
  | nil => rfl
  | cons worker rest ih =>
      rw [List.flatMap_cons, sweep_append, ← runWorker_eq]
      exact ih _

/-- The sums of workers with disjoint shares are those of the initial window. -/
theorem runWorkers_snd {workers : List Nat} {w : Window R}
    (hnodup : (workers.flatMap (job.workerShare shot)).flatten.Nodup)
    (hown : ∀ i ∈ (workers.flatMap (job.workerShare shot)).flatten, w.Owns i) :
    (runWorkers job shot (job.current shot) workers w).2 =
      workers.map fun worker =>
        (job.workerShare shot worker).flatMap ((job.action shot).visits w) := by
  induction workers generalizing w with
  | nil => rfl
  | cons worker rest ih =>
      rw [List.flatMap_cons] at hnodup hown
      rcases sweep_parts (job.action shot) hnodup hown with ⟨hhead, htail, hkept⟩
      rw [← runWorker_eq] at htail hkept
      -- What the first worker has written, no other worker looks at.
      have hsame : ∀ other ∈ rest,
          (job.workerShare shot other).flatMap ((job.action shot).visits
            (w.runWorker job shot (job.current shot) worker).1) =
          (job.workerShare shot other).flatMap ((job.action shot).visits w) := by
        intro other hother
        apply List.flatMap_congr
        intro g hg
        apply Action.visits_congr
        intro i hi
        exact hkept i (List.mem_flatten.2 ⟨g, List.mem_flatMap.2 ⟨other, hother, hg⟩, hi⟩)
      simp only [runWorkers, List.map_cons]
      rw [ih htail.1 htail.2, List.map_congr_left hsame, runWorker_eq,
        sweep_visits (job.action shot) hhead.1 hhead.2]

/-! ## One workgroup -/

/-- A workgroup sweeps its share. -/
theorem runWorkgroup_fst (w : Window R) (workgroup : Nat) :
    (w.runWorkgroup job shot workgroup).1 =
      (sweep (job.action shot) (job.share shot workgroup) w).1 :=
  runWorkers_fst job shot (workerItems workgroup threadsPerWorkgroup) w

/-- The sums of a workgroup are those of its share in the initial window. -/
theorem runWorkgroup_snd {w : Window R} {workgroup : Nat}
    (hnodup : (job.share shot workgroup).flatten.Nodup)
    (hown : ∀ i ∈ (job.share shot workgroup).flatten, w.Owns i) :
    (w.runWorkgroup job shot workgroup).2 = job.shareSums shot w workgroup := by
  have hvisits := runWorkers_snd job shot hnodup hown
  exact congrArg (Sums.ofThreads shot.collects job.batch.qubits) hvisits

theorem runWorkers_schedule (schedule : Schedule) (op : Op R) (workers : List Nat) (w : Window R) :
    runWorkers { job with schedule := schedule } shot op workers w =
      runWorkers job shot op workers w := by
  induction workers generalizing w with
  | nil => rfl
  | cons worker rest ih =>
      simp only [runWorkers, ih]
      rfl

/-- A workgroup does not read the schedule. -/
theorem runWorkgroup_schedule (schedule : Schedule) (w : Window R) (workgroup : Nat) :
    w.runWorkgroup { job with schedule := schedule } shot workgroup =
      w.runWorkgroup job shot workgroup := by
  rw [runWorkgroup, runWorkgroup, runWorkers_schedule]

/-- A workgroup reports its share. -/
theorem workgroupReports_eq (w : Window R) (workgroup : Nat) :
    w.workgroupReports job shot workgroup = job.reportsOf shot w (job.share shot workgroup) := by
  have hworkers : w.workerReports job shot =
      fun worker => job.reportsOf shot w (job.workerShare shot worker) :=
    funext (workerReports_eq job shot w)
  rw [workgroupReports, hworkers, ← Job.reportsOf_flatMap]
  rfl

end Window

namespace Bench

variable (job : Job R) (shot : Shot R)

theorem runWorkgroup_window (b : Bench R) (workgroup : Nat) :
    (b.runWorkgroup job shot workgroup).1.window =
      (sweep (job.action shot) (job.share shot workgroup) b.window).1 :=
  b.window.runWorkgroup_fst job shot workgroup

/-- A workgroup pushes the reports of its share. -/
theorem runWorkgroup_log (b : Bench R) (workgroup : Nat) :
    (b.runWorkgroup job shot workgroup).1.log =
      (job.reportsOf shot b.window (job.share shot workgroup)).foldl ReportLog.push b.log := by
  rw [← b.window.workgroupReports_eq]
  rfl

theorem runWorkgroup_sums {b : Bench R} {workgroup : Nat}
    (hnodup : (job.share shot workgroup).flatten.Nodup)
    (hown : ∀ i ∈ (job.share shot workgroup).flatten, b.window.Owns i) :
    (b.runWorkgroup job shot workgroup).2 = job.shareSums shot b.window workgroup :=
  Window.runWorkgroup_snd job shot hnodup hown

end Bench

/-- The sums of a share depend on its amplitudes only. -/
theorem Job.shareSums_congr (job : Job R) (shot : Shot R) {w w' : Window R} {workgroup : Nat}
    (h : ∀ i ∈ (job.share shot workgroup).flatten, w.get i = w'.get i) :
    job.shareSums shot w workgroup = job.shareSums shot w' workgroup := by
  unfold shareSums
  congr 1
  apply List.map_congr_left
  intro worker hworker
  apply List.flatMap_congr
  intro g hg
  apply Action.visits_congr
  intro i hi
  exact h i (List.mem_flatten.2 ⟨g, List.mem_flatMap.2 ⟨worker, hworker, hg⟩, hi⟩)

/-! ## Workgroups one after another -/

namespace Lane

variable (job : Job R) (shot : Shot R)

/-- Workgroups in sequence sweep their shares in sequence. -/
theorem runWhole_window (order : List Nat) (b : Bench R) :
    (runWhole job shot order b).1.window =
      (sweep (job.action shot) (order.flatMap (job.share shot)) b.window).1 := by
  induction order generalizing b with
  | nil => rfl
  | cons workgroup rest ih =>
      rw [List.flatMap_cons, sweep_append, ← Bench.runWorkgroup_window]
      exact ih _

/-- Workgroups in sequence push the reports of their shares in sequence. -/
theorem runWhole_log (order : List Nat) (b : Bench R) :
    (runWhole job shot order b).1.log =
      (job.reportsOf shot b.window (order.flatMap (job.share shot))).foldl ReportLog.push
        b.log := by
  induction order generalizing b with
  | nil => simp [runWhole]
  | cons workgroup rest ih =>
      have hrest := ih (b.runWorkgroup job shot workgroup).1
      rw [Bench.runWorkgroup_window, Job.reportsOf_sweep, Bench.runWorkgroup_log,
        ← List.foldl_append, ← Job.reportsOf_append] at hrest
      exact hrest

/-- The sums of workgroups in sequence are those of the initial window. -/
theorem runWhole_sums {order : List Nat} {b : Bench R}
    (hnodup : (order.flatMap (job.share shot)).flatten.Nodup)
    (hown : ∀ i ∈ (order.flatMap (job.share shot)).flatten, b.window.Owns i) :
    (runWhole job shot order b).2 = order.map (job.shareSums shot b.window) := by
  induction order generalizing b with
  | nil => rfl
  | cons workgroup rest ih =>
      rw [List.flatMap_cons] at hnodup hown
      rcases sweep_parts (job.action shot) hnodup hown with ⟨hhead, htail, hkept⟩
      rw [← Bench.runWorkgroup_window] at htail hkept
      -- What the first workgroup has written, no other workgroup reads.
      have hsame : ∀ other ∈ rest,
          job.shareSums shot (b.runWorkgroup job shot workgroup).1.window other =
            job.shareSums shot b.window other := by
        intro other hother
        apply Job.shareSums_congr
        intro i hi
        rcases List.mem_flatten.1 hi with ⟨g, hg, hig⟩
        exact hkept i (List.mem_flatten.2 ⟨g, List.mem_flatMap.2 ⟨other, hother, hg⟩, hig⟩)
      simp only [runWhole, List.map_cons]
      rw [ih htail.1 htail.2, List.map_congr_left hsame,
        Bench.runWorkgroup_sums job shot hhead.1 hhead.2]

end Lane

/-! ## Shares of a placed step -/

section Placed

variable {job : Job R} {shot : Shot R} {e w : Nat} (ht : job.layout.Tiled e w)
  (hplaced : shot.Placed (job.current shot) job.layout.qubitCount)

include ht hplaced

/-- The shares partition the indices of the block. -/
theorem perm_flatten_shares :
    (job.shares shot).flatten.Perm (List.range job.layout.entriesPerShot) :=
  perm_flatten_groups ht hplaced.nodup hplaced.lt

theorem nodup_flatten_shares : (job.shares shot).flatten.Nodup :=
  (perm_flatten_shares ht hplaced).nodup_iff.2 List.nodup_range

theorem nodup_flatten_share {workgroup : Nat} (h : workgroup < job.layout.workgroups) :
    (job.share shot workgroup).flatten.Nodup := by
  have hsub : (job.share shot workgroup).Sublist (job.shares shot) := by
    rw [Job.shares, List.flatMap_def]
    exact List.sublist_flatten_of_mem (List.mem_map_of_mem (List.mem_range.2 h))
  exact (nodup_flatten_shares ht hplaced).sublist hsub.flatten

variable {block : Array (Cplx R)} (hblock : block.size = job.layout.entriesPerShot)

include hblock

/-- The block owns every index of the shares. -/
theorem owns_of_mem_shares :
    ∀ i ∈ (job.shares shot).flatten, (⟨0, block⟩ : Window R).Owns i := by
  intro i hi
  refine ⟨Nat.zero_le i, ?_⟩
  simpa [hblock] using (perm_flatten_shares ht hplaced).mem_iff.1 hi

/-- In `blockAfter` each member holds its entry of the action on its group. -/
theorem getElem?_act_eq_blockAfter {g : List Nat} (hg : g ∈ job.shares shot) {p i : Nat}
    (hp : g[p]? = some i) :
    ((job.action shot).act g (g.map (⟨0, block⟩ : Window R).get))[p]? =
      (job.blockAfter shot block)[i]? := by
  have hact := getElem?_act_eq_get_sweep (job.action shot) (nodup_flatten_shares ht hplaced)
    (owns_of_mem_shares ht hplaced hblock) hg hp
  have hbound : i < (job.blockAfter shot block).size := by
    rw [Job.size_blockAfter]
    have hown := owns_of_mem_shares ht hplaced hblock i
      (List.mem_flatten.2 ⟨g, hg, List.mem_of_getElem? hp⟩)
    simpa using hown.2
  rw [hact, Job.sweep_shares]
  simp [Window.get, hbound]

/-- For workgroups in any order, the block, the sums and the number of reports depend on the initial
amplitudes only. -/
theorem runWhole_of_perm {order : List Nat} (horder : order.Perm (List.range job.layout.workgroups))
    (log : ReportLog R) :
    (Lane.runWhole job shot order ⟨⟨0, block⟩, log⟩).1.window = ⟨0, job.blockAfter shot block⟩ ∧
      (Lane.runWhole job shot order ⟨⟨0, block⟩, log⟩).2 =
        order.map (job.shareSums shot ⟨0, block⟩) ∧
      (Lane.runWhole job shot order ⟨⟨0, block⟩, log⟩).1.log.cursor =
        log.cursor + UInt32.ofNat (job.reportsOf shot ⟨0, block⟩ (job.shares shot)).length := by
  have hgroups : (order.flatMap (job.share shot)).Perm (job.shares shot) := horder.flatMap_right _
  have hnodup : (order.flatMap (job.share shot)).flatten.Nodup :=
    hgroups.flatten.nodup_iff.2 (nodup_flatten_shares ht hplaced)
  have hown : ∀ i ∈ (order.flatMap (job.share shot)).flatten, (⟨0, block⟩ : Window R).Owns i := by
    intro i hi
    exact owns_of_mem_shares ht hplaced hblock i (hgroups.flatten.mem_iff.1 hi)
  refine ⟨?_, Lane.runWhole_sums job shot hnodup hown, ?_⟩
  · rw [Lane.runWhole_window, sweep_perm (job.action shot) hgroups hnodup hown, Job.sweep_shares]
  · rw [Lane.runWhole_log, cursor_foldl_push,
      (job.reportsOf_perm shot ⟨0, block⟩ hgroups).length_eq]

end Placed

/-! ## Stretches -/

theorem lt_shardBits_of_fitsShard {job : Job R} {shot : Shot R}
    (h : Lane.fitsShard job shot = true) :
    ∀ q ∈ shot.mode.operands (job.current shot), q < job.layout.shardBits := by
  rcases Bool.or_eq_true _ _ ▸ h with hcontiguous | hall
  · -- Steps that take the amplitudes one by one have no operands.
    have hzero : shot.mode.arity = 0 := by simpa [Mode.isContiguous] using hcontiguous
    simp [Mode.operands, hzero]
  · intro q hq
    have hlt := List.all_eq_true.1 hall q hq
    simpa using hlt

section Shards

variable {job : Job R} {shot : Shot R} {e w : Nat} (ht : job.layout.Tiled e w)
  (hplaced : shot.Placed (job.current shot) job.layout.qubitCount)
  (hfits : Lane.fitsShard job shot = true)

include ht hplaced hfits

/-- In a step that fits its shards, a share lies within the stretch of its workgroup. -/
theorem mem_stretch_of_mem_share {workgroup i : Nat} (hi : i ∈ (job.share shot workgroup).flatten) :
    workgroup * job.layout.entriesPerWorkgroup ≤ i ∧
      i - workgroup * job.layout.entriesPerWorkgroup < job.layout.entriesPerWorkgroup := by
  have hdiv := div_eq_of_mem_workgroup ht hplaced.nodup (lt_shardBits_of_fitsShard hfits) hi
  have hpos : 0 < job.layout.entriesPerWorkgroup := by
    rw [ht.entriesPerWorkgroup]
    exact Nat.two_pow_pos _
  have hmod := Nat.mod_lt i hpos
  have hsplit := Nat.div_add_mod' i job.layout.entriesPerWorkgroup
  rw [hdiv] at hsplit
  omega

/-- The share of a workgroup covers its stretch. -/
theorem mem_share_of_mem_stretch {workgroup i : Nat} (h : workgroup < job.layout.workgroups)
    (hle : workgroup * job.layout.entriesPerWorkgroup ≤ i)
    (hlt : i - workgroup * job.layout.entriesPerWorkgroup < job.layout.entriesPerWorkgroup) :
    ∃ g ∈ job.share shot workgroup, i ∈ g := by
  have hshot : i < job.layout.entriesPerShot := by
    rw [← ht.workgroups_mul]
    have hnext := Nat.mul_le_mul_right job.layout.entriesPerWorkgroup (Nat.succ_le_of_lt h)
    rw [Nat.succ_mul] at hnext
    omega
  have hall : i ∈ (job.shares shot).flatten :=
    (perm_flatten_shares ht hplaced).mem_iff.2 (List.mem_range.2 hshot)
  -- Some workgroup touches it, and that one stays within its own stretch.
  rcases List.mem_flatten.1 hall with ⟨g, hg, hig⟩
  rcases List.mem_flatMap.1 hg with ⟨owner, _, howner⟩
  have hdiv := div_eq_of_mem_workgroup ht hplaced.nodup (lt_shardBits_of_fitsShard hfits)
    (List.mem_flatten.2 ⟨g, howner, hig⟩)
  have hsame : i / job.layout.entriesPerWorkgroup = workgroup := by
    apply Nat.div_eq_of_lt_le hle
    rw [Nat.succ_mul]
    omega
  rw [hsame] at hdiv
  exact ⟨g, hdiv ▸ howner, hig⟩

variable {block : Array (Cplx R)} (hblock : block.size = job.layout.entriesPerShot)

include hblock

omit [Scalar R] hplaced hfits in
/-- A shard has `entriesPerWorkgroup` amplitudes. -/
theorem size_shard {workgroup : Nat} (h : workgroup < job.layout.workgroups) :
    (job.layout.shard block workgroup).amps.size = job.layout.entriesPerWorkgroup := by
  have hnext := Nat.mul_le_mul_right job.layout.entriesPerWorkgroup (Nat.succ_le_of_lt h)
  rw [Nat.succ_mul, ht.workgroups_mul, ← hblock] at hnext
  simp only [Layout.shard, Array.size_extract]
  omega

omit [Scalar R] hplaced hfits in
/-- A shard owns the indices of its stretch. -/
theorem owns_shard_iff {workgroup i : Nat} (h : workgroup < job.layout.workgroups) :
    (job.layout.shard block workgroup).Owns i ↔
      workgroup * job.layout.entriesPerWorkgroup ≤ i ∧
        i - workgroup * job.layout.entriesPerWorkgroup < job.layout.entriesPerWorkgroup := by
  rw [Window.Owns, size_shard ht hblock h]
  rfl

omit ht hplaced hfits hblock in
theorem get_shard {workgroup i : Nat} (hi : (job.layout.shard block workgroup).Owns i) :
    (job.layout.shard block workgroup).get i = (⟨0, block⟩ : Window R).get i := by
  have hbound := hi.2
  have hle := hi.1
  simp only [Layout.shard, Array.size_extract] at hbound hle
  simp only [Window.get, Layout.shard, Array.getD_eq_getD_getElem?, Nat.sub_zero]
  rw [Array.getElem?_extract]
  have hshift : workgroup * job.layout.entriesPerWorkgroup +
      (i - workgroup * job.layout.entriesPerWorkgroup) = i := Nat.add_sub_cancel' hle
  rw [if_pos (by omega), hshift]

/-- A shard owns the share of its workgroup. -/
theorem owns_shard_of_mem_share {workgroup : Nat} (h : workgroup < job.layout.workgroups) :
    ∀ i ∈ (job.share shot workgroup).flatten, (job.layout.shard block workgroup).Owns i := by
  intro i hi
  exact (owns_shard_iff ht hblock h).2 (mem_stretch_of_mem_share ht hplaced hfits hi)

/-- A workgroup computes its shard of `blockAfter`. -/
theorem runWorkgroup_shard {workgroup : Nat} (h : workgroup < job.layout.workgroups) :
    ((job.layout.shard block workgroup).runWorkgroup job shot workgroup).1 =
      job.layout.shard (job.blockAfter shot block) workgroup := by
  have hown := owns_shard_of_mem_share ht hplaced hfits hblock h
  have hsize : (job.blockAfter shot block).size = job.layout.entriesPerShot := by
    rw [Job.size_blockAfter, hblock]
  rw [Window.runWorkgroup_fst]
  apply Window.ext_get
  · rw [base_sweep]
    rfl
  · rw [size_sweep, size_shard ht hblock h, size_shard ht hsize h]
  · intro i hi
    have hstretch := (owns_shard_iff ht hblock h).1 (owns_sweep.1 hi)
    rw [get_shard ((owns_shard_iff ht hsize h).2 hstretch), ← Job.sweep_shares]
    -- The group of `i` is swept in both runs, and both find the same amplitudes there.
    rcases mem_share_of_mem_stretch ht hplaced hfits h hstretch.1 hstretch.2 with ⟨g, hg, hig⟩
    have hgs : g ∈ job.shares shot := List.mem_flatMap.2 ⟨workgroup, List.mem_range.2 h, hg⟩
    apply get_sweep_congr (job.action shot) (nodup_flatten_share ht hplaced h)
      (nodup_flatten_shares ht hplaced) hown (owns_of_mem_shares ht hplaced hblock) hg hgs _ hig
    intro j hj
    exact get_shard (hown j (List.mem_flatten.2 ⟨g, hg, hj⟩))

/-- The sums of a workgroup on its shard are those on the block. -/
theorem runWorkgroup_shard_sums {workgroup : Nat} (h : workgroup < job.layout.workgroups) :
    ((job.layout.shard block workgroup).runWorkgroup job shot workgroup).2 =
      job.shareSums shot ⟨0, block⟩ workgroup := by
  have hown := owns_shard_of_mem_share ht hplaced hfits hblock h
  rw [Window.runWorkgroup_snd job shot (nodup_flatten_share ht hplaced h) hown]
  apply Job.shareSums_congr
  intro i hi
  exact get_shard (hown i hi)

/-- The reports of a workgroup on its shard are those on the block. -/
theorem workgroupReports_shard {workgroup : Nat} (h : workgroup < job.layout.workgroups) :
    (job.layout.shard block workgroup).workgroupReports job shot workgroup =
      job.reportsOf shot ⟨0, block⟩ (job.share shot workgroup) := by
  rw [Window.workgroupReports_eq]
  apply Job.reportsOf_congr
  intro i hi
  exact get_shard (owns_shard_of_mem_share ht hplaced hfits hblock h i hi)

/-- The shards concatenate to `blockAfter`. -/
theorem runShards_eq (start count : Nat) (h : start + count ≤ job.layout.workgroups) :
    Lane.runShards job shot block (List.range' start count) =
      ((job.blockAfter shot block).extract (start * job.layout.entriesPerWorkgroup)
          ((start + count) * job.layout.entriesPerWorkgroup),
        (List.range' start count).map (job.shareSums shot ⟨0, block⟩)) := by
  induction count generalizing start with
  | zero => simp [Lane.runShards]
  | succ count ih =>
      -- The first stretch is followed by the others, which start where it ends.
      have hstart : start < job.layout.workgroups := by omega
      have hstep : ∀ rest, Lane.runShards job shot block (start :: rest) =
          let own := (job.layout.shard block start).runWorkgroup job shot start
          let later := Lane.runShards job shot block rest
          (own.1.amps ++ later.1, own.2 :: later.2) := fun _ => rfl
      have hnext : (start + 1) * job.layout.entriesPerWorkgroup =
          start * job.layout.entriesPerWorkgroup + job.layout.entriesPerWorkgroup :=
        Nat.succ_mul _ _
      have hlast : start + 1 + count = start + (count + 1) := by omega
      have hmono := Nat.mul_le_mul_right job.layout.entriesPerWorkgroup
        (Nat.le_add_right (start + 1) count)
      rw [List.range'_succ, hstep]
      dsimp only
      rw [ih (start + 1) (by omega), runWorkgroup_shard ht hplaced hfits hblock hstart,
        runWorkgroup_shard_sums ht hplaced hfits hblock hstart]
      refine Prod.ext ?_ rfl
      simp only [Layout.shard]
      rw [← hnext, Array.extract_append_extract, Nat.min_eq_left (by omega),
        Nat.max_eq_right hmono, hlast]

end Shards

/-! ## Reports as they arrive -/

namespace Job

/-- The reports of a step in the order of arrival. -/
def arrivals (job : Job R) (shot : Shot R) (block : Array (Cplx R)) : List (Record R) :=
  interleave (job.schedule shot.id shot.opIdx)
    ((List.range job.layout.workgroups).map fun workgroup =>
      job.reportsOf shot ⟨0, block⟩ (job.share shot workgroup))

variable (job : Job R) (shot : Shot R) (block : Array (Cplx R))

/-- The reports of the shares concatenate to those of the block. -/
theorem flatten_map_reportsOf :
    ((List.range job.layout.workgroups).map fun workgroup =>
      job.reportsOf shot ⟨0, block⟩ (job.share shot workgroup)).flatten =
        job.reportsOf shot ⟨0, block⟩ (job.shares shot) := by
  rw [shares, reportsOf_flatMap, List.flatMap_def]

/-- `arrivals` permutes the reports of the shares. -/
theorem arrivals_perm :
    (job.arrivals shot block).Perm (job.reportsOf shot ⟨0, block⟩ (job.shares shot)) := by
  rw [← flatten_map_reportsOf]
  exact interleave_perm _ _

/-- Under an empty schedule, reports arrive in workgroup order. -/
theorem arrivals_of_inOrder (h : job.schedule shot.id shot.opIdx = []) :
    job.arrivals shot block = job.reportsOf shot ⟨0, block⟩ (job.shares shot) := by
  rw [arrivals, h, interleave, flatten_map_reportsOf]

/-- Reports of a single workgroup arrive in order. -/
theorem arrivals_of_single (h : job.layout.workgroups = 1) :
    job.arrivals shot block = job.reportsOf shot ⟨0, block⟩ (job.shares shot) := by
  rw [← flatten_map_reportsOf, arrivals, h]
  exact (interleave_singleton _ _).trans (List.append_nil _).symm

/-- Only an extraction has arrivals. -/
theorem arrivals_of_not_extract {shot : Shot R} (h : shot.mode ≠ .extract) :
    job.arrivals shot block = [] := by
  have hperm := job.arrivals_perm shot block
  rw [reportsOf_of_not_extract h] at hperm
  exact hperm.eq_nil

end Job

theorem mode_ne_extract_of_not_fitsShard {job : Job R} {shot : Shot R}
    (h : Lane.fitsShard job shot = false) : shot.mode ≠ .extract := by
  intro hmode
  rw [Lane.fitsShard, hmode] at h
  cases h

namespace Lane

theorem shardReports_of_not_extract (job : Job R) {shot : Shot R} (block : Array (Cplx R))
    (h : shot.mode ≠ .extract) : shardReports job shot block = [] := by
  have hperm := interleave_perm (job.schedule shot.id shot.opIdx)
    ((List.range job.layout.workgroups).map fun workgroup =>
      (job.layout.shard block workgroup).workgroupReports job shot workgroup)
  simp only [Window.workgroupReports_eq, Job.reportsOf_of_not_extract h, List.map_const',
    List.flatten_replicate_nil] at hperm
  simp only [shardReports, Window.workgroupReports_eq, Job.reportsOf_of_not_extract h,
    List.map_const']
  exact hperm.eq_nil

section Execute

variable {job : Job R} {lane : Lane R} {e w : Nat} (ht : job.layout.Tiled e w)
  (hplaced : lane.shot.Placed (job.current lane.shot) job.layout.qubitCount)
  (hblock : lane.block.size = job.layout.entriesPerShot)

include ht hplaced hblock

/-- `executeWhole` in terms of the initial amplitudes. -/
theorem executeWhole_eq :
    lane.executeWhole job =
      { lane with
        block := job.blockAfter lane.shot lane.block
        sums := ((List.range job.layout.workgroups).map
          (job.shareSums lane.shot ⟨0, lane.block⟩)).toArray
        log := (job.reportsOf lane.shot ⟨0, lane.block⟩ (job.shares lane.shot)).foldl
          ReportLog.push lane.log } := by
  have hrun := runWhole_of_perm ht hplaced hblock (List.Perm.refl _) lane.log
  have hlog := runWhole_log job lane.shot (List.range job.layout.workgroups)
    ⟨⟨0, lane.block⟩, lane.log⟩
  have hunfold : lane.executeWhole job =
      let run := runWhole job lane.shot (List.range job.layout.workgroups)
        ⟨⟨0, lane.block⟩, lane.log⟩
      { lane with block := run.1.window.amps, sums := run.2.toArray, log := run.1.log } := rfl
  rw [hunfold]
  dsimp only
  rw [hrun.1, hrun.2.1, hlog]
  rfl

/-- `executeSharded` in terms of the initial amplitudes; only the log depends on the schedule. -/
theorem executeSharded_eq (hfits : fitsShard job lane.shot = true) :
    lane.executeSharded job =
      { lane.executeWhole job with
        log := (job.arrivals lane.shot lane.block).foldl ReportLog.push lane.log } := by
  have hshards := runShards_eq ht hplaced hfits hblock 0 job.layout.workgroups (by omega)
  rw [← List.range_eq_range', Nat.zero_mul, Nat.zero_add, ht.workgroups_mul] at hshards
  have hsize : (job.blockAfter lane.shot lane.block).size = job.layout.entriesPerShot := by
    rw [Job.size_blockAfter, hblock]
  have hreports : shardReports job lane.shot lane.block = job.arrivals lane.shot lane.block := by
    rw [shardReports, Job.arrivals]
    congr 1
    apply List.map_congr_left
    intro workgroup hworkgroup
    exact workgroupReports_shard ht hplaced hfits hblock (List.mem_range.1 hworkgroup)
  have hunfold : lane.executeSharded job =
      let run := runShards job lane.shot lane.block (List.range job.layout.workgroups)
      { lane with
        block := run.1 ++ lane.block.extract
          (job.layout.workgroups * job.layout.entriesPerWorkgroup) lane.block.size
        sums := run.2.toArray
        log := (shardReports job lane.shot lane.block).foldl ReportLog.push lane.log } := rfl
  rw [executeWhole_eq ht hplaced hblock, hunfold, hshards, hreports, ht.workgroups_mul, hblock]
  -- The stretches make up the block, so nothing is left over.
  simp [← hsize]

/-- `execute` in terms of the initial amplitudes. -/
theorem execute_eq :
    lane.execute job =
      { lane with
        block := job.blockAfter lane.shot lane.block
        sums := ((List.range job.layout.workgroups).map
          (job.shareSums lane.shot ⟨0, lane.block⟩)).toArray
        log := (job.arrivals lane.shot lane.block).foldl ReportLog.push lane.log } := by
  cases hfits : fitsShard job lane.shot with
  | true =>
      rw [execute, if_pos hfits, executeSharded_eq ht hplaced hblock hfits,
        executeWhole_eq ht hplaced hblock]
  | false =>
      -- Only gates cross the stretches, and gates do not report.
      have hquiet := mode_ne_extract_of_not_fitsShard hfits
      rw [execute, if_neg (by rw [hfits]; exact Bool.false_ne_true),
        executeWhole_eq ht hplaced hblock, Job.arrivals_of_not_extract _ _ hquiet,
        Job.reportsOf_of_not_extract hquiet]

omit hplaced in
/-- A step pushes its arrivals, wherever its gate acts. -/
theorem log_execute :
    (lane.execute job).log = (job.arrivals lane.shot lane.block).foldl ReportLog.push lane.log := by
  by_cases hmode : lane.shot.mode = .extract
  · have hnone : lane.shot.mode.operands (job.current lane.shot) = [] := by rw [hmode]; rfl
    rw [execute_eq ht (.of_operands_nil hnone) hblock]
  · have hquiet : ∀ (w : Window R) (gs : List (List Nat)), job.reportsOf lane.shot w gs = [] :=
      fun w gs => Job.reportsOf_of_not_extract hmode job w gs
    rw [Job.arrivals_of_not_extract _ _ hmode]
    cases hfits : fitsShard job lane.shot with
    | true =>
        rw [execute, if_pos hfits]
        exact congrArg (List.foldl ReportLog.push lane.log)
          (shardReports_of_not_extract job lane.block hmode)
    | false =>
        have hlog := runWhole_log job lane.shot (List.range job.layout.workgroups)
          ⟨⟨0, lane.block⟩, lane.log⟩
        rw [hquiet] at hlog
        rw [execute, if_neg (by rw [hfits]; exact Bool.false_ne_true)]
        exact hlog

omit hplaced in
theorem size_runShards (start count : Nat) (h : start + count ≤ job.layout.workgroups) :
    (runShards job lane.shot lane.block (List.range' start count)).1.size =
      count * job.layout.entriesPerWorkgroup := by
  induction count generalizing start with
  | zero => simp [runShards]
  | succ count ih =>
      have hown :
          ((job.layout.shard lane.block start).runWorkgroup job lane.shot start).1.amps.size =
          job.layout.entriesPerWorkgroup := by
        rw [Window.runWorkgroup_fst, size_sweep, size_shard ht hblock (by omega)]
      have hrest := ih (start + 1) (by omega)
      rw [List.range'_succ, runShards]
      dsimp only
      rw [Array.size_append, hown, hrest, Nat.succ_mul, Nat.add_comm]

omit hplaced in
/-- A step keeps the size of the block. -/
theorem size_block_execute : (lane.execute job).block.size = job.layout.entriesPerShot := by
  cases hfits : fitsShard job lane.shot with
  | true =>
      have hshards := size_runShards ht hblock 0 job.layout.workgroups (by omega)
      rw [← List.range_eq_range', ht.workgroups_mul] at hshards
      rw [execute, if_pos hfits, executeSharded]
      dsimp only
      rw [Array.size_append, hshards, ht.workgroups_mul, hblock]
      simp
  | false =>
      have hwindow := runWhole_window job lane.shot (List.range job.layout.workgroups)
        ⟨⟨0, lane.block⟩, lane.log⟩
      have hsize := congrArg (fun w : Window R => w.amps.size) hwindow
      rw [size_sweep] at hsize
      rw [execute, if_neg (by rw [hfits]; exact Bool.false_ne_true)]
      exact hsize.trans hblock

/-- Under an empty schedule, sharded and whole execution agree. -/
theorem execute_eq_executeWhole (h : job.schedule lane.shot.id lane.shot.opIdx = []) :
    lane.execute job = lane.executeWhole job := by
  rw [execute_eq ht hplaced hblock, executeWhole_eq ht hplaced hblock,
    Job.arrivals_of_inOrder _ _ _ h]

end Execute

section Schedule

variable (job : Job R) (shot : Shot R) (schedule : Schedule)

theorem runShards_schedule (block : Array (Cplx R)) (order : List Nat) :
    runShards { job with schedule := schedule } shot block order =
      runShards job shot block order := by
  induction order with
  | nil => rfl
  | cons workgroup rest ih =>
      rw [runShards, runShards, ih, Window.runWorkgroup_schedule]

theorem runWhole_schedule (order : List Nat) (b : Bench R) :
    runWhole { job with schedule := schedule } shot order b = runWhole job shot order b := by
  induction order generalizing b with
  | nil => rfl
  | cons workgroup rest ih =>
      have hown : b.runWorkgroup { job with schedule := schedule } shot workgroup =
          b.runWorkgroup job shot workgroup := by
        rw [Bench.runWorkgroup, Bench.runWorkgroup, Window.runWorkgroup_schedule]
        rfl
      simp only [runWhole, ih, hown]

/-- Under another schedule a step differs in the log only. -/
theorem execute_schedule (lane : Lane R) :
    lane.execute { job with schedule := schedule } =
      { lane.execute job with log := (lane.execute { job with schedule := schedule }).log } := by
  have hfits : fitsShard { job with schedule := schedule } lane.shot = fitsShard job lane.shot :=
    rfl
  rw [execute, execute, hfits]
  split
  · simp only [executeSharded, runShards_schedule]
  · simp only [executeWhole, runWhole_schedule]

end Schedule

end Lane

end ShotSim
