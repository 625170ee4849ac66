import Mathlib.Data.List.Basic
import ShotSim.Proofs.FreshStart
import ShotSim.Proofs.GuardedPrepare

/-!
# Guarded machines — batches that check where their lanes lie

The memory of a machine is a few long arrays, and each step cuts them into the stretches of the
lanes.  Here the cuts are checked along with everything that the lanes do, for as many steps as the
program has.

* `Machine.Sized` — what the steps of a batch rely on, and `Sized.step`: a step leaves it that way;
* `prepareLanes_eq`, `executeLanes_eq` — the two halves of a step;
* `runSteps_eq` — any number of steps.
-/

namespace ShotSim

variable {R : Type} [Scalar R]

/-- Invariant of the steps of a batch: a tiled layout, buffers for each shot, and counters that fit
words. -/
structure Machine.Sized (m : Machine R) : Prop where
  tiled : ∃ e w, m.layout.Tiled e w
  qubits : m.layout.qubitCount ≤ maxQubitCount
  room : m.batch.qubits ≤ m.layout.qubitCount
  fits : m.Fits
  records : 0 < m.resultsPerShot
  shots : m.batch.shots ≤ m.lanes.size
  ids : ∀ i < m.batch.shots, m.batch.firstShot.toNat + i < 2 ^ wordBits
  ops : m.ops.size < 2 ^ wordBits

namespace Machine.Sized

variable {m : Machine R} (h : m.Sized)

include h

/-- A step preserves the invariant. -/
theorem step : m.prepare.execute.Sized := by
  obtain ⟨e, w, ht⟩ := h.tiled
  rw [prepare_execute]
  refine
    { tiled := ⟨e, w, ht⟩
      qubits := h.qubits
      room := h.room
      fits := ?_
      records := h.records
      shots := by simpa using h.shots
      ids := h.ids
      ops := h.ops }
  have htiled : m.job.layout.Tiled e w := ht
  intro lane hlane
  obtain ⟨i, hi, rfl⟩ := Array.mem_mapIdx.1 hlane
  have hfits := h.fits _ (Array.getElem_mem hi)
  split
  · exact Lane.fits_step htiled hfits i
  · exact hfits

end Machine.Sized

namespace Guarded

/-- Checks that the pieces an array is cut into are not empty. -/
def cut (size : Nat) : Guarded PUnit := demand (0 < size) .pieces

def mapActive (m : Machine R) (f : Nat → Lane R → Guarded (Lane R)) : Guarded (Machine R) := do
  demand (m.batch.shots ≤ m.lanes.size) (.range m.lanes.size 0 m.batch.shots)
  let lanes ← m.lanes.toList.zipIdx.mapM fun (lane, i) =>
    if i < m.batch.shots then f i lane else return lane
  return { m with lanes := lanes.toArray }

def prepareLanes (m : Machine R) : Guarded (Machine R) := do
  cut m.layout.workgroups
  -- A shot without result slots still has a stretch of one, so that the cut is possible.
  cut (max m.resultCount 1)
  let job := m.job
  let m ← mapActive m fun i lane => do
    discard (slice lane.slots 0 job.resultCount)
    prepare lane job i
  return { m with steps := ← fit wordBits (m.steps + 1) }

def executeLanes (m : Machine R) : Guarded (Machine R) := do
  cut m.layout.entriesPerShot
  cut m.layout.workgroups
  cut m.resultsPerShot
  let job := m.job
  mapActive m fun _ lane => execute lane job

def runSteps (m : Machine R) : Nat → Guarded (Machine R)
  | 0 => return m
  | count + 1 => do
    let m ← prepareLanes m
    let m ← executeLanes m
    runSteps m count

theorem cut_of_pos {size : Nat} (h : 0 < size) : cut size = .ok ⟨⟩ := demand_of h _

omit [Scalar R] in
/-- A guarded map over the active lanes without breaches is the plain map. -/
theorem mapActive_eq {m : Machine R} (hshots : m.batch.shots ≤ m.lanes.size)
    {f : Nat → Lane R → Guarded (Lane R)} {g : Nat → Lane R → Lane R}
    (h : ∀ i lane, m.lanes[i]? = some lane → i < m.batch.shots → f i lane = .ok (g i lane)) :
    mapActive m f = .ok (m.mapActive g) := by
  have hlanes : (m.lanes.toList.zipIdx.mapM fun (lane, i) =>
      if i < m.batch.shots then f i lane else return lane) = .ok (m.mapActive g).lanes.toList := by
    apply mapM_zipIdx_eq
    · simp [Machine.mapActive]
    · intro i lane lane' hlane hlane'
      rw [Array.getElem?_toList] at hlane hlane'
      rw [Machine.mapActive, Array.getElem?_mapIdx, hlane, Option.map_some,
        Option.some.injEq] at hlane'
      dsimp only
      rw [Nat.zero_add, ← hlane']
      split
      · exact h i lane hlane (by assumption)
      · rfl
  rw [mapActive, demand_of hshots, ok_bind, hlanes, ok_bind]
  rfl

section Steps

variable {m : Machine R} (h : m.Sized)

include h

/-- Preparing all lanes is without a breach. -/
theorem prepareLanes_eq (hsteps : m.steps + 1 < 2 ^ wordBits) : prepareLanes m = .ok m.prepare := by
  obtain ⟨e, w, ht⟩ := h.tiled
  have hworkgroups : 0 < m.layout.workgroups := by
    rw [ht.workgroups]
    exact Nat.two_pow_pos w
  have hqubits : m.job.batch.qubits ≤ maxQubitCount := h.room.trans h.qubits
  have hlanes := mapActive_eq (g := fun i lane => lane.prepare m.job i) h.shots
    (f := fun i lane => do
      discard (slice lane.slots 0 m.job.resultCount)
      prepare lane m.job i) (by
      intro i lane hlane hi
      have hslots : m.job.resultCount ≤ lane.slots.size := by
        rw [(h.fits lane (Array.mem_of_getElem? hlane)).slots]
        exact Nat.le_max_left _ _
      rw [slice_of_le (Nat.zero_le _) hslots]
      exact prepare_eq hqubits h.ops lane (h.ids i hi))
  rw [prepareLanes, cut_of_pos hworkgroups, ok_bind, cut_of_pos (by omega), ok_bind]
  dsimp only
  rw [hlanes, ok_bind]
  have hfit : fit wordBits ((m.mapActive fun i lane => lane.prepare m.job i).steps + 1) =
      .ok (m.steps + 1) := fit_of_lt hsteps
  rw [hfit]
  rfl

/-- After `prepare` every lane is sound, so executing is without a breach. -/
theorem executeLanes_eq : executeLanes m.prepare = .ok m.prepare.execute := by
  obtain ⟨e, w, ht⟩ := h.tiled
  have hworkgroups : 0 < m.prepare.layout.workgroups := by
    have hcount : m.prepare.layout.workgroups = 2 ^ w := ht.workgroups
    rw [hcount]
    exact Nat.two_pow_pos w
  have hentries : 0 < m.prepare.layout.entriesPerShot := Nat.two_pow_pos _
  have hrecords : 0 < m.prepare.resultsPerShot := h.records
  have hshots : m.prepare.batch.shots ≤ m.prepare.lanes.size := by
    simpa [Machine.prepare, Machine.mapActive] using h.shots
  rw [executeLanes, cut_of_pos hentries, ok_bind, cut_of_pos hworkgroups, ok_bind,
    cut_of_pos hrecords, ok_bind]
  apply mapActive_eq hshots
  intro i lane hlane hi
  -- Soundness comes from the decision, so the lane is traced back to where it was made.
  obtain ⟨before, hbefore, rfl⟩ :
      ∃ before, m.lanes[i]? = some before ∧ before.prepare m.job i = lane := by
    have hget : m.prepare.lanes[i]? = m.lanes[i]?.map fun old =>
        if i < m.batch.shots then old.prepare m.job i else old := Array.getElem?_mapIdx
    rw [hget, Option.map_eq_some_iff] at hlane
    obtain ⟨before, hbefore, hsame⟩ := hlane
    have hactive : i < m.batch.shots := hi
    rw [if_pos hactive] at hsame
    exact ⟨before, hbefore, hsame⟩
  have hblock : (before.prepare m.job i).block.size = m.layout.entriesPerShot := by
    rw [(before.prepare_frame m.job i).1]
    exact (h.fits before (Array.mem_of_getElem? hbefore)).block
  have htiled : m.job.layout.Tiled e w := ht
  have hsound : (before.prepare m.job i).shot.Sound m.job := before.sound_prepare i h.room
  exact execute_eq htiled h.qubits (h.room.trans h.qubits) hsound hblock

/-- All steps of a batch are without a breach. -/
theorem runSteps_eq {count : Nat} (hsteps : m.steps + count < 2 ^ wordBits) :
    runSteps m count = .ok (m.run count) := by
  induction count generalizing m with
  | zero => rfl
  | succ count ih =>
      have hnext : m.prepare.execute.steps = m.steps + 1 := rfl
      rw [runSteps, prepareLanes_eq h (by omega), ok_bind, executeLanes_eq h, ok_bind,
        ih h.step (by rw [hnext]; omega)]
      rfl

end Steps

end Guarded

end ShotSim
