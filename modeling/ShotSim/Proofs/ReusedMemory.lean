import ShotSim.Proofs.Schedules

/-!
# Reused memory — a machine shows nothing of its earlier runs

A run only makes the memory of a machine larger or smaller, so old amplitudes, sums, reports and
measurements come to lie in the lanes of shots they never belonged to.  A stream that begins with a
fresh start covers all of it before any of it is read.  Two machines may order the records of a
report differently; under one schedule they do not.

* `Lane.size_log_after` — the room for reports stays as it was given;
* `reused_memory_shows_nothing` — what a batch shows is what it shows on a machine that has done
  nothing.
-/

namespace ShotSim

variable {R : Type} [Scalar R]

namespace Lane

/-- A step keeps the capacity of the log. -/
theorem size_log_step (lane : Lane R) (job : Job R) (shotIdx : Nat) :
    (lane.step job shotIdx).log.slots.size = lane.log.slots.size := by
  rcases lane.prepare_frame job shotIdx with ⟨_, _, hlog, _⟩
  rcases execute_appends job (lane.prepare job shotIdx).shot (lane.prepare job shotIdx).block with
    ⟨_, _, reports, hrun⟩
  have hstep := hrun (lane.prepare job shotIdx).sums (lane.prepare job shotIdx).log
    (lane.prepare job shotIdx).slots
  rw [step, hstep, size_slots_foldl_push, hlog]

/-- A run of steps keeps the capacity of the log. -/
theorem size_log_after (lane : Lane R) (job : Job R) (shotIdx count : Nat) :
    (lane.after job shotIdx count).log.slots.size = lane.log.slots.size := by
  induction count generalizing lane with
  | zero => rfl
  | succ count ih => rw [after, ih, size_log_step]

end Lane

/-- Every log of a batch has the capacity set up by the machine. -/
theorem Machine.size_log_of_mem_active {m : Machine R} (hfits : m.Fits) {batch : Batch R}
    {count : Nat} {lane : Lane R} (hlane : lane ∈ ((m.beginBatch batch).run count).active) :
    lane.log.slots.size = m.resultsPerShot := by
  rw [active_run_beginBatch] at hlane
  rcases List.mem_mapIdx.1 hlane with ⟨i, hi, rfl⟩
  have hold := List.mem_of_mem_take (List.getElem_mem hi)
  rw [Lane.size_log_after]
  exact (hfits _ (Array.mem_toList_iff.1 hold)).room

/-- Reused memory is unobservable. After loading a program that begins with a restart and preparing
a checked plan, a batch shows after any number of steps what it shows on a new machine: control
blocks, report counts, measurements and amplitudes. Under one schedule the written log slots are
equal; under two schedules they hold the same records up to order, if none are dropped and the
cursor cannot wrap. -/
theorem reused_memory_shows_nothing (m : Machine R) (pool : Pool) {c : Config R}
    (hchecked : c.validate = .ok ()) {count : Nat} {plan : Plan}
    (hplan : Plan.make c count = .ok plan) {ops : List (Op R)} {first : Op R}
    (hfirst : ops[0]? = some first) (hreset : first.isResetAll = true) (idle : IdleParams R)
    {batch : Batch R} (hshots : batch.shots ≤ plan.shotsPerBatch) {steps : Nat} (hsteps : 0 < steps)
    (capture : Bool) :
    let unusedMachine : Machine R := { Machine.fresh with pool := pool }
    let out := ((((m.load ops idle).prepareRun plan).beginBatch batch).run steps).read capture
    let unused :=
      ((((unusedMachine.load ops idle).prepareRun plan).beginBatch batch).run steps).read capture
    out.shots.length = batch.shots ∧ out.shots = unused.shots ∧
      out.logs.map (·.cursor) = unused.logs.map (·.cursor) ∧
      (∀ log ∈ out.logs, log.kept.length = min log.cursor.toNat plan.resultsPerShot) ∧
      (pool.schedule = m.pool.schedule → out.logs.map (·.kept) = unused.logs.map (·.kept)) ∧
      (reportCount (ops.take steps) < 32 → ∀ (i : Nat) (log log' : ReportLog R),
        out.logs[i]? = some log → unused.logs[i]? = some log' →
        log.cursor.toNat ≤ plan.resultsPerShot →
          log.kept.Perm log'.kept ∧ log.sorted = log'.sorted) ∧
      out.slots = unused.slots ∧ out.states = unused.states := by
  intro unusedMachine out unused
  let ready := (m.load ops idle).prepareRun plan
  let ready' := (unusedMachine.load ops idle).prepareRun plan
  let now := (ready.beginBatch batch).run steps
  let now' := (ready'.beginBatch batch).run steps
  have hvalid := Config.checked_of_validate hchecked
  rcases Layout.exists_tiled_ofCircuit c.qubits hvalid.perWorkgroup_ge hvalid.perWorkgroup_le with
    ⟨e, w, htiled⟩
  have hlayout : ready.layout = .ofCircuit c.qubits c.qubitsPerWorkgroup :=
    (Plan.make_eq_ok hplan).2.1
  have ht : ready.layout.Tiled e w := hlayout ▸ htiled
  have hop : ready.ops[0]? = some first := by
    rw [← hfirst]
    exact List.getElem?_toArray
  have hsetup : ready.SameSetup ready' := m.sameSetup_prepareRun unusedMachine ops idle plan
  have hsize : ready'.lanes.size = ready.lanes.size := by
    rw [Machine.size_lanes_prepareRun, Machine.size_lanes_prepareRun]
  -- The restart makes every two lanes match, so all that is read off them is the same.
  have hsame : ∀ {β : Type} (f : Lane R → β), (∀ a b, Lane.Reordered plan.resultCount
      (reportCount (ready.ops.toList.take steps) * ready.layout.entriesPerShot) a b → f a = f b) →
      now.active.map f = now'.active.map f :=
    fun f hf => hsetup.map_active_eq ht hop hreset hsteps hsize f hf
  have hlogs : ∀ {β : Type} (f : ReportLog R → β),
      out.logs.map f = now.active.map fun lane => f lane.log :=
    fun _ => List.map_map
  have hlogs' : ∀ {β : Type} (f : ReportLog R → β),
      unused.logs.map f = now'.active.map fun lane => f lane.log := fun _ => List.map_map
  have hcount : now.resultCount = plan.resultCount :=
    (ready.run_beginBatch_frame batch steps).resultCount
  have hcount' : now'.resultCount = plan.resultCount :=
    (ready'.run_beginBatch_frame batch steps).resultCount
  have hroom : ∀ lane ∈ now.active, lane.log.slots.size = plan.resultsPerShot :=
    fun lane hlane => Machine.size_log_of_mem_active hsetup.fits hlane
  refine ⟨?_, ?_, ?_, ?_, ?_, ?_, ?_, ?_⟩
  · have hlanes : ready.lanes.size = plan.shotsPerBatch := Machine.size_lanes_prepareRun _ plan
    have hactive : now.active.length = batch.shots := by
      rw [Machine.active_run_beginBatch, List.length_mapIdx, List.length_take, Array.length_toList,
        hlanes]
      exact Nat.min_eq_left hshots
    exact (List.length_map _).trans hactive
  · exact hsame _ fun a b hab => hab.shot
  · rw [hlogs, hlogs']
    exact hsame _ fun a b hab => hab.log.cursor
  · intro log hlog
    rcases List.mem_map.1 hlog with ⟨lane, hlane, rfl⟩
    rw [ReportLog.kept, List.length_take, Array.length_toList, hroom lane hlane]
  · intro hschedule
    have halike : ready.Alike ready' :=
      Machine.alike_prepareRun (show unusedMachine.pool.schedule = m.pool.schedule from hschedule)
        ops idle plan
    rw [hlogs, hlogs']
    exact halike.map_active_eq ht hop hreset hsteps _ fun a b hab => hab.log.kept_eq
  · intro hreports i log log' hlog hlog' hkept
    obtain ⟨lane, hlane, rfl⟩ := Option.map_eq_some_iff.1 ((List.getElem?_map ..).symm.trans hlog)
    obtain ⟨lane', hlane', rfl⟩ :=
      Option.map_eq_some_iff.1 ((List.getElem?_map ..).symm.trans hlog')
    have hreordered := hsetup.reordered_active ht hop hreset hsteps hlane hlane'
    have hword : reportCount (ready.ops.toList.take steps) * ready.layout.entriesPerShot <
        2 ^ 32 := by
      rw [hlayout]
      exact hvalid.mul_entriesPerShot_lt hreports
    have hdropped : lane.log.dropped = 0 := by
      rw [ReportLog.dropped, hroom lane (List.mem_of_getElem? hlane)]
      exact Nat.sub_eq_zero_of_le hkept
    exact ⟨(hreordered.log.sameReports_kept hword hdropped).perm,
      hreordered.log.sorted_eq hword hdropped⟩
  · calc out.slots
        = now.active.map fun lane => lane.slots.toList.take plan.resultCount := by
          rw [← hcount]; rfl
      _ = now'.active.map fun lane => lane.slots.toList.take plan.resultCount :=
          hsame _ fun a b hab => hab.measured
      _ = unused.slots := by rw [← hcount']; rfl
  · have hblocks := hsame _ fun a b hab => hab.block
    simp only [out, unused, Machine.read]
    rw [hblocks]

def wornMachine : Machine Float32 :=
  (((Machine.fresh.load [.resetAll, .x 0, .x 11, .mz 11 0, .mEveryZ] 0).prepareRun
    ⟨12, .ofCircuit 12 8, 3, 5, 4, 4, 1, 5⟩).beginBatch ⟨0, 7, 4, 12, 0⟩).run 5

def secondFirst : Pool := ⟨2, fun _ _ => [1]⟩

/-- A worn and an unused machine show the same after four steps. -/
theorem reused_memory_shows_nothing_worn :
    let plan : Plan := ⟨10, .ofCircuit 10 8, 2, 256, 9, 9, 1, 4⟩
    let ops : List (Op Float32) := [.resetAll, .h 9, .mz 0 1, .mEveryZ]
    let batch : Batch Float32 := ⟨0, 1, 9, 10, 0⟩
    let unusedMachine : Machine Float32 := { Machine.fresh with pool := secondFirst }
    let out := ((((wornMachine.load ops 0).prepareRun plan).beginBatch batch).run 4).read true
    let unused := ((((unusedMachine.load ops 0).prepareRun plan).beginBatch batch).run 4).read true
    Plan.make { Config.standard with
        qubits := 10, shots := 9, resultCount := 2, qubitsPerWorkgroup := 8 } 4 = .ok plan ∧
      out.shots.length = 9 ∧ out.shots = unused.shots ∧ out.slots = unused.slots ∧
        out.states = unused.states ∧
        ∀ (i : Nat) (log log' : ReportLog Float32), out.logs[i]? = some log →
          unused.logs[i]? = some log' → log.cursor.toNat ≤ 256 → log.sorted = log'.sorted := by
  intro plan ops batch
  have hchecked : { Config.standard with
      qubits := 10, shots := 9, resultCount := 2, qubitsPerWorkgroup := 8 }.validate = .ok () := rfl
  have hplan : Plan.make { Config.standard with
      qubits := 10, shots := 9, resultCount := 2, qubitsPerWorkgroup := 8 } 4 = .ok plan := rfl
  have hfirst : ops[0]? = some .resetAll := rfl
  have hshots : batch.shots ≤ plan.shotsPerBatch := Nat.le_refl 9
  have hsteps : 0 < 4 := by decide
  have hreports : reportCount (ops.take 4) < 32 := by decide
  obtain ⟨hlength, hcontrol, _, _, _, hsorted, hslots, hstates⟩ :=
    reused_memory_shows_nothing wornMachine secondFirst hchecked hplan hfirst rfl 0 hshots
      hsteps true
  exact ⟨hplan, hlength, hcontrol, hslots, hstates, fun i log log' hlog hlog' hkept =>
    (hsorted hreports i log log' hlog hlog' hkept).2⟩

end ShotSim
