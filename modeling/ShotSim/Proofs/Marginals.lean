import Mathlib.Data.List.Nodup
import ShotSim.Proofs.Freshness
import ShotSim.Proofs.RealScalar

/-!
# Marginals — every amplitude counts once

While a step goes over the amplitudes, each thread adds up the probabilities of those it has just
written, in an order that depends on the step.  A sum that missed an amplitude, or took it twice or
too early, would bend the norm of the state and the odds of every measurement.

* `Job.visiting`, `perm_visiting` — the order of a thread, and all threads together;
* `existsUnique_visit` — every index has one thread and one place in its order;
* `threadSum`, `total_collation`, `one_collation` — the sums of a workgroup, thread by thread;
* `Scalar.AddsExactly.sum_threadSum` — where the order of additions does not matter;
* `every_amplitude_counted_once` — the sums after any step, and what they amount to.
-/

namespace ShotSim

open BasisIndex

variable {R : Type} [Scalar R]

/-! ## The order of a thread -/

/-- The indices visited by a thread of a workgroup, in order. -/
def Job.visiting (job : Job R) (shot : Shot R) (workgroup thread : Nat) : List Nat :=
  (job.workerShare shot (workgroup * threadsPerWorkgroup + thread)).flatten

/-- The sum over a workgroup: each thread sums its own indices in order, and the threads are summed
in order. -/
def threadSum (order : Nat → List Nat) (weight : Nat → R) : R :=
  Scalar.sum ((List.range threadsPerWorkgroup).map fun thread =>
    Scalar.sum ((order thread).map weight))

theorem workerItems_eq_map_range (worker count : Nat) :
    workerItems worker count = (List.range count).map (worker * count + ·) := by
  rw [workerItems, List.range'_eq_map_range]

/-- The shares of a step, thread by thread. -/
theorem Job.flatten_shares (job : Job R) (shot : Shot R) :
    (job.shares shot).flatten =
      (List.range job.layout.workgroups).flatMap fun workgroup =>
        (List.range threadsPerWorkgroup).flatMap (job.visiting shot workgroup) := by
  rw [List.flatten_eq_flatMap, Job.shares, List.flatMap_assoc]
  apply List.flatMap_congr
  intro workgroup _
  change ((workerItems workgroup threadsPerWorkgroup).flatMap (job.workerShare shot)).flatMap id = _
  rw [workerItems_eq_map_range, List.flatMap_map, List.flatMap_assoc]
  apply List.flatMap_congr
  intro thread _
  exact List.flatMap_id

/-- In a duplicate-free `flatMap` over a range, every element has one source. -/
theorem eq_of_mem_flatMap_range {α : Type} {count : Nat} {f : Nat → List α}
    (h : ((List.range count).flatMap f).Nodup) {a b : Nat} (ha : a < count) (hb : b < count) {x : α}
    (hxa : x ∈ f a) (hxb : x ∈ f b) : a = b := by
  have hapart := List.pairwise_iff_getElem.1 (List.nodup_flatMap.1 h).2
  simp only [List.length_range, List.getElem_range] at hapart
  rcases Nat.lt_trichotomy a b with hlt | heq | hgt
  · exact absurd hxb (hapart a b ha hb hlt hxa)
  · exact heq
  · exact absurd hxa (hapart b a hb ha hgt hxb)

section Placed

variable {job : Job R} {shot : Shot R} {e w : Nat} (ht : job.layout.Tiled e w)
  (hplaced : shot.Placed (job.current shot) job.layout.qubitCount)

include ht hplaced

/-- The visits of all threads are a permutation of the indices. -/
theorem perm_visiting :
    ((List.range job.layout.workgroups).flatMap fun workgroup =>
      (List.range threadsPerWorkgroup).flatMap (job.visiting shot workgroup)).Perm
        (List.range job.layout.entriesPerShot) := by
  rw [← Job.flatten_shares]
  exact perm_flatten_shares ht hplaced

theorem lt_of_mem_visiting {workgroup thread i : Nat}
    (hworkgroup : workgroup < job.layout.workgroups) (hthread : thread < threadsPerWorkgroup)
    (hi : i ∈ job.visiting shot workgroup thread) :
    i < job.layout.entriesPerShot := by
  apply List.mem_range.1
  apply (perm_visiting ht hplaced).mem_iff.1
  exact List.mem_flatMap.2 ⟨workgroup, List.mem_range.2 hworkgroup,
    List.mem_flatMap.2 ⟨thread, List.mem_range.2 hthread, hi⟩⟩

/-- Every index has a unique workgroup, thread and position in the order of that thread. -/
theorem existsUnique_visit {i : Nat} (hi : i < job.layout.entriesPerShot) :
    ∃! visit : Nat × Nat × Nat, visit.1 < job.layout.workgroups ∧ visit.2.1 < threadsPerWorkgroup ∧
      (job.visiting shot visit.1 visit.2.1)[visit.2.2]? = some i := by
  have hall := perm_visiting ht hplaced
  have hnodup := hall.nodup_iff.2 List.nodup_range
  rcases List.mem_flatMap.1 (hall.mem_iff.2 (List.mem_range.2 hi)) with ⟨workgroup,
    hworkgroup, hshare⟩
  rcases List.mem_flatMap.1 hshare with ⟨thread, hthread, hmem⟩
  rcases List.getElem?_of_mem hmem with ⟨place, hplace⟩
  refine ⟨⟨workgroup, thread, place⟩, ⟨List.mem_range.1 hworkgroup, List.mem_range.1 hthread,
    hplace⟩, ?_⟩
  rintro ⟨workgroup', thread', place'⟩ ⟨hworkgroup', hthread', hplace'⟩
  dsimp only at hworkgroup' hthread' hplace'
  have hshare' : i ∈ (List.range threadsPerWorkgroup).flatMap (job.visiting shot workgroup') :=
    List.mem_flatMap.2 ⟨thread', List.mem_range.2 hthread', List.mem_of_getElem? hplace'⟩
  -- First the workgroup, then the thread in it, then the place in the order of the thread.
  obtain rfl : workgroup' = workgroup :=
    eq_of_mem_flatMap_range hnodup hworkgroup' (List.mem_range.1 hworkgroup) hshare' hshare
  have hown := (List.nodup_flatMap.1 hnodup).1 workgroup' hworkgroup
  obtain rfl : thread' = thread :=
    eq_of_mem_flatMap_range hown hthread' (List.mem_range.1 hthread)
      (List.mem_of_getElem? hplace') hmem
  have horder := (List.nodup_flatMap.1 hown).1 thread' hthread
  obtain rfl : place' = place :=
    (List.getElem?_inj (List.getElem?_eq_some_iff.1 hplace').1 horder).1 (hplace'.trans hplace.symm)
  rfl

end Placed

/-! ## The sums of a workgroup -/

section Collation

variable (job : Job R) (shot : Shot R) (block : Array (Cplx R)) (workgroup : Nat)

/-- The total of a workgroup as a sum over its threads. -/
theorem total_collation :
    (job.collation shot block workgroup).total =
      threadSum (job.visiting shot workgroup) fun i => (block.getD i 0).normSqr := by
  unfold Job.collation Sums.ofThreads threadSum
  dsimp only
  rw [workerItems_eq_map_range, List.map_map, List.map_map]
  congr 1
  apply List.map_congr_left
  intro thread _
  simp only [Function.comp_apply, List.map_map]
  rfl

/-- The sum of a qubit as a sum over the threads of the workgroup. -/
theorem one_collation (hcap : job.batch.qubits ≤ collationQubits) (q : Nat) :
    (job.collation shot block workgroup).one q =
      if shot.collects = true ∧ q < job.batch.qubits then
        threadSum (fun thread => (job.visiting shot workgroup thread).filter (·.testBit q)) fun i =>
          (block.getD i 0).normSqr
      else 0 := by
  unfold Job.collation Sums.ofThreads Sums.one threadSum
  by_cases hq : q < collationQubits
  · rw [Vector.getElem?_eq_getElem hq, Vector.getElem_ofFn, Option.getD_some,
      workerItems_eq_map_range, List.map_map, List.map_map]
    simp only [Bool.and_eq_true, decide_eq_true_eq]
    congr 2
    apply List.map_congr_left
    intro thread _
    simp only [Function.comp_apply, List.filter_map, List.map_map]
    rfl
  · -- There is no place for such a qubit, and the circuit does not have it.
    rw [Vector.getElem?_eq_none (Nat.le_of_not_lt hq), if_neg]
    · rfl
    · rintro ⟨_, hlt⟩
      exact hq (Nat.lt_of_lt_of_le hlt hcap)

end Collation

/-! ## Sums in any order -/

/-- With exact addition the workgroup sums add up to the sum over all indices that count. -/
theorem Scalar.AddsExactly.sum_threadSum (h : Scalar.AddsExactly R) {job : Job R} {shot : Shot R}
    {e w : Nat} (ht : job.layout.Tiled e w)
    (hplaced : shot.Placed (job.current shot) job.layout.qubitCount) (counts : Nat → Bool)
    (weight : Nat → R) :
    Scalar.sum ((List.range job.layout.workgroups).map fun workgroup =>
        threadSum (fun thread => (job.visiting shot workgroup thread).filter counts) weight) =
      Scalar.sum (((List.range job.layout.entriesPerShot).filter counts).map weight) := by
  have hthreads : ∀ workgroup,
      threadSum (fun thread => (job.visiting shot workgroup thread).filter counts) weight =
        Scalar.sum ((List.range threadsPerWorkgroup).flatMap fun thread =>
          ((job.visiting shot workgroup thread).filter counts).map weight) :=
    fun workgroup => h.sum_flatMap _ _
  simp only [hthreads, h.sum_flatMap]
  apply h.sum_perm
  have hall := ((perm_visiting ht hplaced).filter counts).map weight
  simp only [List.filter_flatMap, List.map_flatMap] at hall
  exact hall

/-! ## The sums of a step -/

/-- Collation counts every amplitude once: every index has a unique workgroup, thread and position
in the order of that thread. After a step, the total of a workgroup is the sum over its threads of
the resulting probabilities; the sum of a qubit of the circuit is that over the indices with its bit
set if the step collects, and zero otherwise. With exact addition the totals add up to the squared
norm of the block, and the sums of a qubit to its marginal. -/
theorem every_amplitude_counted_once (job : Job R) {n m : Nat}
    (hlayout : job.layout = .ofCircuit n m) (hmin : minQubitsPerWorkgroup ≤ m)
    (hmax : m ≤ maxQubitsPerWorkgroup) (hcap : job.batch.qubits ≤ collationQubits) (lane : Lane R)
    (hblock : lane.block.size = job.layout.entriesPerShot)
    (hplaced : lane.shot.Placed (job.current lane.shot) job.layout.qubitCount) :
    let after := lane.execute job
    let order := job.visiting lane.shot
    let weight := fun i => (after.block.getD i 0).normSqr
    (∀ workgroup < job.layout.workgroups, ∀ thread < threadsPerWorkgroup,
      ∀ i ∈ order workgroup thread, i < job.layout.entriesPerShot) ∧
    (∀ i < job.layout.entriesPerShot, ∃! visit : Nat × Nat × Nat,
      visit.1 < job.layout.workgroups ∧ visit.2.1 < threadsPerWorkgroup ∧
        (order visit.1 visit.2.1)[visit.2.2]? = some i) ∧
    after.block.size = job.layout.entriesPerShot ∧ after.sums.size = job.layout.workgroups ∧
    (∀ workgroup sums, after.sums[workgroup]? = some sums →
      sums.total = threadSum (order workgroup) weight ∧
      ∀ q, sums.one q =
        if lane.shot.collects = true ∧ q < job.batch.qubits then
          threadSum (fun thread => (order workgroup thread).filter (·.testBit q)) weight
        else 0) ∧
    (Scalar.AddsExactly R →
      Scalar.sum (after.sums.toList.map (·.total)) =
        Scalar.sum ((List.range job.layout.entriesPerShot).map weight) ∧
      (lane.shot.collects = true → ∀ q < job.batch.qubits,
        Scalar.sum (after.sums.toList.map (·.one q)) =
          Scalar.sum
            (((List.range job.layout.entriesPerShot).filter (·.testBit q)).map weight))) := by
  intro after order weight
  obtain ⟨e, w, ht⟩ : ∃ e w, job.layout.Tiled e w := by
    rw [hlayout]
    exact Layout.exists_tiled_ofCircuit n hmin hmax
  -- One collation per workgroup, over the block as the step leaves it.
  have hsums : after.sums.toList =
      (List.range job.layout.workgroups).map (job.collation lane.shot after.block) :=
    Lane.sums_execute ht hplaced hblock
  refine ⟨?_, fun i hi => existsUnique_visit ht hplaced hi, ?_, ?_, ?_, ?_⟩
  · intro workgroup hworkgroup thread hthread i hi
    exact lt_of_mem_visiting ht hplaced hworkgroup hthread hi
  · rw [Lane.execute_block ht hplaced hblock, Job.size_blockAfter, hblock]
  · rw [← Array.length_toList, hsums, List.length_map, List.length_range]
  · intro workgroup sums hworkgroup
    have hfound : job.collation lane.shot after.block workgroup = sums := by
      rw [← Array.getElem?_toList, hsums, List.getElem?_map, Option.map_eq_some_iff] at hworkgroup
      obtain ⟨place, hplace, rfl⟩ := hworkgroup
      obtain ⟨_, hturn⟩ := List.getElem?_eq_some_iff.1 hplace
      rw [← hturn, List.getElem_range]
    rw [← hfound]
    exact ⟨total_collation .., fun q => one_collation job lane.shot after.block workgroup hcap q⟩
  · intro hexact
    rw [hsums, List.map_map]
    refine ⟨?_, ?_⟩
    · -- The total is the marginal under the trivial filter.
      have htotal := hexact.sum_threadSum ht hplaced (fun _ => true) weight
      simp only [List.filter_true] at htotal
      rw [← htotal]
      congr 1
      apply List.map_congr_left
      intro workgroup _
      exact total_collation job lane.shot after.block workgroup
    · intro hcollects q hq
      rw [List.map_map, ← hexact.sum_threadSum ht hplaced (·.testBit q) weight]
      congr 1
      apply List.map_congr_left
      intro workgroup _
      exact (one_collation job lane.shot after.block workgroup hcap q).trans
        (if_pos ⟨hcollects, hq⟩)

noncomputable def exactJob : Job ℝ where
  ops := #[.ccx 9 0 5]
  batch := ⟨0, 0, 1, 10, 0⟩
  idle := 0
  layout := .ofCircuit 10 8
  resultCount := 0

noncomputable def exactLane : Lane ℝ :=
  { Lane.blank (.ofCircuit 10 8) 0 0 with
    shot := { (0 : Shot ℝ) with selected := .ccx, collect := 1, renormalize := 1 }
    block := Array.replicate 1024 1 }

/-- A gate on three operands over the reals. -/
theorem every_amplitude_counted_once_exact :
    let after := exactLane.execute exactJob
    let weight := fun i => (after.block.getD i 0).normSqr
    exactLane.shot.mode = .gate3 ∧ after.sums.size = 4 ∧
      (∃! visit : Nat × Nat × Nat, visit.1 < 4 ∧ visit.2.1 < 32 ∧
        (exactJob.visiting exactLane.shot visit.1 visit.2.1)[visit.2.2]? = some 545) ∧
      Scalar.sum (after.sums.toList.map (·.total)) = Scalar.sum ((List.range 1024).map weight) ∧
      Scalar.sum (after.sums.toList.map (·.one 9)) =
        Scalar.sum (((List.range 1024).filter (·.testBit 9)).map weight) := by
  have hcounted :=
    every_amplitude_counted_once exactJob rfl (by decide) (by decide) (by decide) exactLane
    (Array.size_replicate ..) ⟨by decide, by decide⟩
  obtain ⟨_, hvisits, _, hsize, _, hsums⟩ := hcounted
  obtain ⟨htotal, hones⟩ := hsums addsExactly_real
  exact ⟨rfl, hsize, hvisits 545 (by decide), htotal, hones rfl 9 (by decide)⟩

end ShotSim
