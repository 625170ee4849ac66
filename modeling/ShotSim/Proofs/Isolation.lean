import Mathlib.Data.List.Forall2
import Mathlib.Data.List.Range
import ShotSim.Proofs.Echo
import ShotSim.Proofs.Schedules

/-!
# Isolation — a shot runs as if it were alone

The shots of a run share one machine, one program and one seed, and they are cut into batches by
sizes that have nothing to do with any of them.  A shot sees none of this.

* `Lane.after_of_follows` — two lanes of two batches whose shots have the same id;
* `Plan.flatMap_batchRanges` — the batches of a run hold every shot once, in order;
* `Config.soloLane`, `runStream_eq_solo` — a run is the list of its shots, each run by itself;
* `shots_isolated` — what the results of a shot depend on.
-/

namespace ShotSim

variable {R : Type} [Scalar R]

/-! ## Lanes -/

namespace Lane

omit [Scalar R] in
/-- Echoing at shift 0 with the same reports is equality. -/
theorem Echoes.eq {a b : Lane R} (h : Echoes True 0 a b) : b = a := by
  obtain ⟨shot, block, sums, log, slots⟩ := a
  obtain ⟨shot', block', sums', log', slots'⟩ := b
  obtain ⟨hshot, hblock, hsums, hslots, hlog⟩ := h
  rw [Shot.shift_zero] at hshot
  cases hshot
  cases hblock
  cases hsums
  cases hslots
  cases hlog trivial
  rfl

/-- The run of a shot depends on its id only, not on its lane or batch. -/
theorem after_of_follows {job job' : Job R} {i i' e w : Nat} (h : job.Follows True 0 job' i i')
    (ht : job.layout.Tiled e w) (hroom : job.batch.qubits ≤ job.layout.qubitCount) {lane : Lane R}
    {resultsPerShot resultCount : Nat} (hfits : lane.Fits job.layout resultsPerShot resultCount)
    (count : Nat) :
    after { lane with shot := 0 } job' i' count = after { lane with shot := 0 } job i count := by
  have hsame : Echoes True 0 ({ lane with shot := 0 } : Lane R) { lane with shot := 0 } :=
    ⟨rfl, rfl, rfl, rfl, fun _ => rfl⟩
  exact (hsame.after h ht hroom hfits.begun count).eq

end Lane

/-! ## Batches -/

namespace Plan

/-- The shot ids of consecutive batches are consecutive. -/
theorem flatMap_batchesFrom (p : Plan) (count index remaining : Nat)
    (h : remaining ≤ count * p.shotsPerBatch) :
    (p.batchesFrom count index remaining).flatMap (fun range => List.range' range.1 range.2) =
      List.range' (index * p.shotsPerBatch) remaining := by
  -- Each batch takes the next stretch of shots, so the stretches join up from any batch on.
  induction count generalizing index remaining with
  | zero =>
      have hnone : remaining = 0 := by omega
      simp [batchesFrom, hnone]
  | succ count ih =>
      rw [Nat.succ_mul] at h
      have hrest := ih (index + 1) (remaining - min remaining p.shotsPerBatch) (by omega)
      rw [batchesFrom, List.flatMap_cons, hrest]
      rcases Nat.le_total remaining p.shotsPerBatch with hlast | hfull
      · -- The last batch.
        simp [Nat.min_eq_left hlast]
      · have hnext : (index + 1) * p.shotsPerBatch = index * p.shotsPerBatch + p.shotsPerBatch :=
          Nat.succ_mul _ _
        rw [Nat.min_eq_right hfull, hnext, List.range'_append_1, Nat.add_sub_cancel' hfull]

/-- The batches of a plan enumerate its shots in order. -/
theorem flatMap_batchRanges {p : Plan} (hpos : 0 < p.shotsPerBatch)
    (h : p.batches = (p.shots + p.shotsPerBatch - 1) / p.shotsPerBatch) :
    p.batchRanges.flatMap (fun range => List.range' range.1 range.2) = List.range p.shots := by
  rw [batchRanges, flatMap_batchesFrom p _ _ _ (shots_le hpos h), Nat.zero_mul,
    List.range_eq_range']

end Plan

/-! ## A shot by itself -/

namespace Config

/-- The data read by shot `k` of a stream in a batch of its own. -/
def soloJob (c : Config R) (pool : Pool) (stream : Stream R) (k : Nat) : Job R :=
  ⟨stream.ops.toArray, ⟨UInt32.ofNat k, c.seed, 1, c.qubits, c.threshold⟩, c.idleParams,
    .ofCircuit c.qubits c.qubitsPerWorkgroup, c.resultCount, pool.schedule⟩

def blankLane (c : Config R) : Lane R :=
  .blank (.ofCircuit c.qubits c.qubitsPerWorkgroup) c.resultsPerShot (max c.resultCount 1)

/-- The final lane of shot `k` of a stream in a batch of its own. -/
def soloLane (c : Config R) (pool : Pool) (stream : Stream R) (k : Nat) : Lane R :=
  c.blankLane.after (c.soloJob pool stream k) 0 stream.length

/-- A blank lane has buffers of the configured sizes. -/
theorem fits_blankLane (c : Config R) :
    c.blankLane.Fits (.ofCircuit c.qubits c.qubitsPerWorkgroup) c.resultsPerShot c.resultCount :=
  ⟨by simp [blankLane, Lane.blank], by simp [blankLane, Lane.blank],
    by simp [blankLane, Lane.blank]⟩

end Config

theorem Layout.le_qubitCount_ofCircuit (qubits perWorkgroup : Nat) :
    qubits ≤ (Layout.ofCircuit qubits perWorkgroup).qubitCount :=
  Nat.le_max_left _ _

/-! ## Machines -/

/-- The machine is set up for a stream by the configuration, with the schedule of a pool. -/
structure Machine.Serves (m : Machine R) (c : Config R) (pool : Pool) (stream : Stream R) :
    Prop where
  ops : m.ops = stream.ops.toArray
  idle : m.idle = c.idleParams
  layout : m.layout = .ofCircuit c.qubits c.qubitsPerWorkgroup
  resultsPerShot : m.resultsPerShot = c.resultsPerShot
  resultCount : m.resultCount = c.resultCount
  schedule : m.pool.schedule = pool.schedule
  fits : m.Fits

namespace Machine.Serves

variable {m : Machine R} {c : Config R} {pool : Pool} {stream : Stream R}
    (h : m.Serves c pool stream)

include h

/-- Shot `i` of a batch follows the same shot run alone. -/
theorem follows (first shots i : Nat) :
    (c.soloJob pool stream (first + i)).Follows True 0
      (m.batchJob ⟨UInt32.ofNat first, c.seed, shots, c.qubits, c.threshold⟩) 0 i where
  ops := fun j => by rw [Nat.zero_add, batchJob, h.ops]; rfl
  idle := h.idle
  layout := h.layout
  resultCount := h.resultCount
  qubits := rfl
  seed := rfl
  id := by
    show UInt32.ofNat first + UInt32.ofNat i = UInt32.ofNat (first + i) + UInt32.ofNat 0
    rw [UInt32.ofNat_add]
    exact (UInt32.add_zero _).symm
  threshold := fun _ => rfl
  schedule := fun _ id idx => by rw [Nat.zero_add, batchJob, h.schedule]; rfl

section Tiled

variable {e w : Nat} (ht : (Layout.ofCircuit c.qubits c.qubitsPerWorkgroup).Tiled e w)

include ht

/-- A batch preserves `Serves`. -/
theorem run_beginBatch (batch : Batch R) (count : Nat) :
    ((m.beginBatch batch).run count).Serves c pool stream := by
  have hframe := m.run_beginBatch_frame batch count
  exact
    { ops := hframe.ops.trans h.ops
      idle := hframe.idle.trans h.idle
      layout := hframe.layout.trans h.layout
      resultsPerShot := hframe.resultsPerShot.trans h.resultsPerShot
      resultCount := hframe.resultCount.trans h.resultCount
      schedule := (congrArg Pool.schedule hframe.pool).trans h.schedule
      fits := fits_run_beginBatch (h.layout ▸ ht) h.fits count }

/-- The visible part of a batch is that of its shots run alone. -/
theorem map_active_eq_solo {strand : Strand R} {rest : Stream R} (hstream : stream = strand :: rest)
    (hreset : strand.op.isResetAll = true) {first shots : Nat} (hsize : shots ≤ m.lanes.size)
    {β : Type} (f : Lane R → β) (hf : ∀ a b, Lane.Agree c.resultCount a b → f a = f b) :
    ((m.beginBatch ⟨UInt32.ofNat first, c.seed, shots, c.qubits, c.threshold⟩).run
        stream.length).active.map f =
      (List.range' first shots).map fun k => f (c.soloLane pool stream k) := by
  -- Lane `i` of the batch is compared with shot `first + i` alone.
  apply List.ext_getElem?
  intro i
  rw [active_run_beginBatch]
  simp only [List.getElem?_map, List.getElem?_mapIdx, List.getElem?_take, Array.getElem?_toList]
  by_cases hi : i < shots
  · have hin : i < m.lanes.size := Nat.lt_of_lt_of_le hi hsize
    have hfits : (m.lanes[i]).Fits (.ofCircuit c.qubits c.qubitsPerWorkgroup) c.resultsPerShot
        c.resultCount := by
      have hlane := h.fits _ (Array.getElem_mem hin)
      rwa [h.layout, h.resultsPerShot, h.resultCount] at hlane
    have hop : (c.soloJob pool stream (first + i)).ops[0]? = some strand.op := by
      subst hstream
      rfl
    have hcount : 0 < stream.length := by
      subst hstream
      exact Nat.succ_pos _
    have hsame := Lane.after_of_follows (h.follows first shots i) ht
      (Layout.le_qubitCount_ofCircuit _ _) hfits stream.length
    have hagree : Lane.Agree c.resultCount (c.soloLane pool stream (first + i)) _ :=
      Lane.agree_after_of_blank ht hop hreset c.fits_blankLane hfits 0 hcount
    have hsolo : (List.range' first shots)[i]? = some (first + i) := by
      rw [List.getElem?_range' hi, Nat.one_mul]
    simp only [hi, if_true, Array.getElem?_eq_getElem hin, Option.map_some, hsolo]
    rw [hsame]
    exact congrArg some (hf _ _ hagree).symm
  · simp [hi]

end Tiled

end Machine.Serves

/-- A shot of a batch ends like the only shot of a batch starting at its id, up to the order of its
records; `base` is its cursor at the start. -/
theorem Machine.SameSetup.exists_reordered_alone {m m' : Machine R} (h : m.SameSetup m') {e w : Nat}
    (ht : m.layout.Tiled e w) {batch : Batch R} (hroom : batch.qubits ≤ m.layout.qubitCount)
    {i : Nat} (hi : i < batch.shots) {old old' : Lane R} (hold : m.lanes[i]? = some old)
    (hold' : m'.lanes[0]? = some old') {count base : Nat}
    (hstart : (0 < count ∧ (∃ op, m.ops[0]? = some op ∧ op.isResetAll = true) ∧ base = 0) ∨
      (Lane.Agree m.resultCount { old with shot := 0 } { old' with shot := 0 } ∧
        base = old.log.cursor.toNat)) :
    ∃ lane alone, ((m.beginBatch batch).run count).active[i]? = some lane ∧
      ((m'.beginBatch { batch with
        firstShot := batch.firstShot + UInt32.ofNat i, shots := 1 }).run count).active = [alone] ∧
      Lane.Reordered m.resultCount
        (base + reportCount (m.ops.toList.take count) * m.layout.entriesPerShot) lane alone ∧
      (m'.pool.schedule = m.pool.schedule → Lane.Agree m.resultCount lane alone) := by
  let own : Batch R := { batch with firstShot := batch.firstShot + UInt32.ofNat i, shots := 1 }
  let job : Job R := { m.batchJob batch with schedule := m'.pool.schedule }
  have hfollows : job.Follows True 0 (m'.batchJob own) i 0 :=
    { ops := fun j => by rw [Nat.zero_add, batchJob, h.ops]; rfl
      idle := h.idle
      layout := h.layout
      resultCount := h.resultCount
      qubits := rfl
      seed := rfl
      id := UInt32.add_zero _
      threshold := fun _ => rfl
      schedule := fun _ id idx => by rw [Nat.zero_add]; rfl }
  have htiled : (m.batchJob batch).layout.Tiled e w := ht
  have hfits := h.fits old (Array.mem_of_getElem? hold)
  have hfits' := h.fits' old' (Array.mem_of_getElem? hold')
  rw [h.layout, h.resultsPerShot, h.resultCount] at hfits'
  -- Alone in its batch, the shot does what it does in the other batch under the schedule of `m'`.
  have halone := Lane.after_of_follows hfollows ht hroom hfits' count
  refine ⟨Lane.after { old with shot := 0 } (m.batchJob batch) i count,
    Lane.after { old' with shot := 0 } (m'.batchJob own) 0 count, ?_, ?_, ?_, ?_⟩
  · rw [active_run_beginBatch]
    simp only [List.getElem?_mapIdx, List.getElem?_take, hi, if_true, Array.getElem?_toList, hold]
    rfl
  · have hfirst : m'.lanes.toList.take 1 = [old'] := by
      rw [← Array.getElem?_toList, ← List.head?_eq_getElem?] at hold'
      rw [List.take_one, hold']
      rfl
    rw [active_run_beginBatch, hfirst]
    rfl
  · rw [halone]
    rcases hstart with ⟨hcount, ⟨op, hop, hreset⟩, rfl⟩ | ⟨hagree, rfl⟩
    · rw [Nat.zero_add]
      exact Lane.reordered_after_of_blank htiled _ hop hreset hfits hfits' i hcount
    · exact Lane.reordered_after_of_agree htiled _ hagree rfl hfits.begun i count
  · intro hschedule
    have hjob : job = m.batchJob batch := by
      simp only [job, batchJob, hschedule]
    rw [halone, hjob]
    rcases hstart with ⟨hcount, ⟨op, hop, hreset⟩, _⟩ | ⟨hagree, _⟩
    · exact Lane.agree_after_of_blank htiled hop hreset hfits hfits' i hcount
    · have hbegun : Lane.Agree (m.batchJob batch).resultCount { old with shot := 0 }
          { old' with shot := 0 } := hagree
      exact hbegun.after i count

/-! ## Runs -/

namespace Session

/-- The visible output of a batch is that of its shots run alone. -/
theorem runBatches_eq_solo {c : Config R} {stream : Stream R} {plan : Plan}
    (hplan : Plan.make c stream.length = .ok plan) {e w : Nat}
    (ht : (Layout.ofCircuit c.qubits c.qubitsPerWorkgroup).Tiled e w) {strand : Strand R}
    {rest : Stream R} (hstream : stream = strand :: rest) (hreset : strand.op.isResetAll = true)
    {m : Machine R} {pool : Pool} (hm : m.Serves c pool stream) {ranges : List (Nat × Nat)}
    (hsize : ∀ range ∈ ranges, range.2 ≤ m.lanes.size) (index : Nat) :
    (runBatches c plan ranges index m).2.1.map (visible stream c.qubits) =
      ranges.map fun range =>
        ((List.range' range.1 range.2).map fun k =>
            (c.soloLane pool stream k).result stream c.qubits c.resultCount,
          if c.capture then some ((List.range' range.1 range.2).map fun k =>
            (c.soloLane pool stream k).block) else none) := by
  obtain ⟨hqubits, _, _, _, _, hops, _⟩ := Plan.make_eq_ok hplan
  -- A batch leaves the machine serving the same stream, which is all the next batch asks for.
  induction ranges generalizing m index with
  | nil => rfl
  | cons range ranges ih =>
      let batch : Batch R := ⟨UInt32.ofNat range.1, c.seed, range.2, c.qubits, c.threshold⟩
      let now := (m.beginBatch batch).run stream.length
      have hnow : now.Serves c pool stream := hm.run_beginBatch ht batch _
      have hcons : (runBatches c plan (range :: ranges) index m).2.1 =
          now.read c.capture :: (runBatches c plan ranges (index + 1) now).2.1 := by
        simp only [runBatches, hqubits, hops]
        rfl
      have hshow : ∀ {β : Type} (f : Lane R → β),
          (∀ a b, Lane.Agree c.resultCount a b → f a = f b) →
          now.active.map f = (List.range' range.1 range.2).map fun k =>
            f (c.soloLane pool stream k) :=
        fun f hf => hm.map_active_eq_solo ht hstream hreset (hsize range List.mem_cons_self) f hf
      have hresults : RunResults.batchResults stream c.qubits (now.read c.capture) =
          (List.range' range.1 range.2).map fun k =>
            (c.soloLane pool stream k).result stream c.qubits c.resultCount := by
        rw [batchResults_read, hnow.resultCount]
        exact hshow _ fun a b hab => hab.result_eq stream _
      have hblocks : now.active.map (·.block) =
          (List.range' range.1 range.2).map fun k => (c.soloLane pool stream k).block :=
        hshow _ fun a b hab => hab.block
      have hroom : ∀ range' ∈ ranges, range'.2 ≤ now.lanes.size := by
        intro range' hrange'
        rw [(m.run_beginBatch_frame batch _).size]
        exact hsize range' (List.mem_cons_of_mem _ hrange')
      rw [hcons, List.map_cons, List.map_cons, ih hnow hroom (index + 1)]
      refine congrArg₂ List.cons (Prod.ext hresults ?_) rfl
      simp only [visible, Machine.read, hblocks]

/-- The results of a run are those of its shots run alone. -/
theorem runStream_eq_solo {s : Session R} (hchecked : s.config.Checked) {stream : Stream R}
    (hstart : ∃ strand rest, stream = strand :: rest ∧ strand.op.isResetAll = true) {plan : Plan}
    (hplan : Plan.make s.config stream.length = .ok plan) {host : Host R}
    (hcpu : host.resolve s.config.backend ≠ .gpu) :
    ∃ results, (s.runStream stream host).2.result = .ok results ∧
      results.shots = (List.range s.config.shots).map (fun k =>
        (s.config.soloLane host.pool stream k).result stream s.config.qubits s.config.resultCount) ∧
      (results.states = if s.config.capture then
          some ((List.range s.config.shots).map fun k =>
            (s.config.soloLane host.pool stream k).block.extract 0 (Nat.pow 2 s.config.qubits))
        else none) ∧
      results.success = results.shots.all (·.status.isOk) := by
  obtain ⟨strand, rest, hstream, hreset⟩ := hstart
  obtain ⟨hqubits, hlayout, hcount, hper, hshots, hops, _, hpos, hbatches⟩ := Plan.make_eq_ok hplan
  obtain ⟨e, w, ht⟩ := Layout.exists_tiled_ofCircuit s.config.qubits hchecked.perWorkgroup_ge
    hchecked.perWorkgroup_le
  have hserves : (s.readyMachine stream plan host.pool).Serves s.config host.pool stream :=
    ⟨rfl, rfl, hlayout, hper, hcount, rfl, Machine.fits_prepareRun _ plan⟩
  have hsize : ∀ range ∈ plan.batchRanges,
      range.2 ≤ (s.readyMachine stream plan host.pool).lanes.size := by
    intro range hrange
    rw [size_lanes_readyMachine]
    exact Plan.le_of_mem_batchesFrom hrange
  have hvisible := runBatches_eq_solo hplan ht hstream hreset hserves hsize 0
  have hall := Plan.flatMap_batchRanges hpos hbatches
  rw [hshots] at hall
  let outs :=
    (runBatches s.config plan plan.batchRanges 0 (s.readyMachine stream plan host.pool)).2.1
  refine ⟨RunResults.collect stream plan s.config.capture (Machine.name host.pool) outs, ?_,
    ?_, ?_, rfl⟩
  · rw [runStream, hplan]
    dsimp only
    rw [if_neg hcpu]
    rfl
  · -- The results of the batches in a row are those of all shots in a row.
    have hflat := congrArg (List.flatMap Prod.fst) hvisible
    rw [List.flatMap_map, List.flatMap_map, ← List.map_flatMap, hall] at hflat
    rw [RunResults.collect, hqubits]
    exact hflat
  · have hflat :=
      congrArg (List.flatMap fun view : List (ShotResult R) × Option (List (Array (Cplx R))) =>
      (view.2.getD []).map fun block => block.extract 0 (Nat.pow 2 s.config.qubits)) hvisible
    rw [List.flatMap_map, List.flatMap_map] at hflat
    rw [RunResults.collect, hqubits]
    dsimp only
    split
    · rename_i hcapture
      simp only [hcapture, if_true, Option.getD_some, List.map_map] at hflat
      rw [← hall, List.map_flatMap]
      exact congrArg some hflat
    · rfl

end Session

/-- Conditions under which a run gives results: validated configuration and program, sufficient
buffers, and no adapter required. -/
structure Runs (program : List (Op R)) (c : Config R) (host : Host R) : Prop where
  checked : c.validate = .ok ()
  admitted : c.validateProgram program = .ok ()
  planned : ∃ plan,
    Plan.make c (Stream.build program c.noise c.idle.isSome c.qubits).length = .ok plan
  backend : host.resolve c.backend ≠ .gpu

/-- Result `k` of a run is that of shot `k` run alone. -/
theorem Runs.exists_results {program : List (Op R)} {c : Config R} {host : Host R}
    (h : Runs program c host) {stream : Stream R}
    (hstream : stream = Stream.build program c.noise c.idle.isSome c.qubits) :
    ∃ results, (runProgram program c host).result = .ok results ∧
      results.shots = (List.range c.shots).map (fun k =>
        (c.soloLane host.pool stream k).result stream c.qubits c.resultCount) ∧
      (results.states = if c.capture then
          some ((List.range c.shots).map fun k =>
            (c.soloLane host.pool stream k).block.extract 0 (Nat.pow 2 c.qubits))
        else none) ∧
      results.success = results.shots.all (·.status.isOk) := by
  subst hstream
  obtain ⟨plan, hplan⟩ := h.planned
  rw [Session.runProgram_of_checked h.checked h.admitted host]
  -- Left in place, the stream would be unfolded whenever two runs of it are compared.
  generalize hstream : Stream.build program c.noise c.idle.isSome c.qubits = stream at hplan ⊢
  have hstart : ∃ strand rest, stream = strand :: rest ∧ strand.op.isResetAll = true :=
    ⟨_, _, hstream.symm, rfl⟩
  exact Session.runStream_eq_solo (s := ⟨c, program, some stream, .fresh⟩)
    (Config.checked_of_validate h.checked) hstart hplan h.backend

/-! ## What a shot depends on -/

/-- Configurations of the same shots of one circuit. The number of shots, the reports and the
captured amplitudes may differ. -/
structure Config.SameCircuit (c c' : Config R) : Prop where
  qubits : c'.qubits = c.qubits
  seed : c'.seed = c.seed
  resultCount : c'.resultCount = c.resultCount
  noise : c'.noise = c.noise
  idle : c'.idle = c.idle
  qubitsPerWorkgroup : c'.qubitsPerWorkgroup = c.qubitsPerWorkgroup

structure ShotResult.SameShot (a b : ShotResult R) : Prop where
  id : b.id = a.id
  status : b.status = a.status
  measurements : b.measurements = a.measurements
  elapsed : b.elapsed = a.elapsed
  heat : b.heat = a.heat

namespace Config.SameCircuit

variable {c c' : Config R} (h : c.SameCircuit c')

include h

/-- A solo shot echoes itself under a configuration with the same circuit, with equal reports if the
thresholds and sizes agree. -/
theorem echoes_soloLane (hchecked : c.Checked) (pool : Pool) (stream : Stream R) (k : Nat) :
    Lane.Echoes (c'.threshold = c.threshold ∧ c'.resultsPerShot = c.resultsPerShot) 0
      (c.soloLane pool stream k) (c'.soloLane pool stream k) := by
  obtain ⟨e, w, ht⟩ := Layout.exists_tiled_ofCircuit c.qubits hchecked.perWorkgroup_ge
    hchecked.perWorkgroup_le
  have hfollows : (c.soloJob pool stream k).Follows
      (c'.threshold = c.threshold ∧ c'.resultsPerShot = c.resultsPerShot) 0
      (c'.soloJob pool stream k) 0 0 :=
    { ops := fun j => by rw [Nat.zero_add]; rfl
      idle := by simp only [soloJob, idleParams, h.idle]
      layout := by simp only [soloJob, h.qubits, h.qubitsPerWorkgroup]
      resultCount := h.resultCount
      qubits := h.qubits
      seed := h.seed
      id := rfl
      threshold := fun halike => halike.1
      schedule := fun _ id idx => by rw [Nat.zero_add]; rfl }
  have hblank : Lane.Echoes (c'.threshold = c.threshold ∧ c'.resultsPerShot = c.resultsPerShot) 0
      c.blankLane c'.blankLane := by
    refine ⟨rfl, ?_, ?_, ?_, ?_⟩
    · simp only [blankLane, Lane.blank, h.qubits, h.qubitsPerWorkgroup]
    · simp only [blankLane, Lane.blank, h.qubits, h.qubitsPerWorkgroup]
    · simp only [blankLane, Lane.blank, h.resultCount]
    · intro halike
      simp only [blankLane, Lane.blank, halike.2]
  exact hblank.after hfollows ht (Layout.le_qubitCount_ofCircuit _ _) c.fits_blankLane stream.length

/-- Configurations of the same circuit build the same stream. -/
theorem stream_eq (program : List (Op R)) :
    Stream.build program c'.noise c'.idle.isSome c'.qubits =
      Stream.build program c.noise c.idle.isSome c.qubits := by
  rw [h.noise, h.idle, h.qubits]

end Config.SameCircuit

namespace Config

variable (c : Config R) {stream : Stream R} {strand : Strand R} {rest : Stream R}
  (hstream : stream = strand :: rest) (hreset : strand.op.isResetAll = true)

include hstream hreset

/-- A solo shot has its own id. -/
theorem id_soloLane (pool : Pool) (k : Nat) :
    (c.soloLane pool stream k).shot.id = UInt32.ofNat k := by
  subst hstream
  have hop : (c.soloJob pool (strand :: rest) k).ops[c.blankLane.shot.nextOp]? = some strand.op :=
    rfl
  exact (Lane.id_after 0 hop hreset (Nat.succ_pos rest.length)).trans (UInt32.add_zero _)

/-- Under two schedules a solo shot differs in the order of its records only. -/
theorem reordered_soloLane (hchecked : c.Checked) (pool pool' : Pool) (k : Nat) :
    Lane.Reordered c.resultCount
      (reportCount stream.ops * (Layout.ofCircuit c.qubits c.qubitsPerWorkgroup).entriesPerShot)
      (c.soloLane pool stream k) (c.soloLane pool' stream k) := by
  obtain ⟨e, w, ht⟩ := Layout.exists_tiled_ofCircuit c.qubits hchecked.perWorkgroup_ge
    hchecked.perWorkgroup_le
  have hop : (c.soloJob pool stream k).ops[0]? = some strand.op := by
    subst hstream
    rfl
  have hcount : 0 < stream.length := by
    subst hstream
    exact Nat.succ_pos _
  have hall : (c.soloJob pool stream k).ops.toList.take stream.length = stream.ops :=
    List.take_of_length_le (Nat.le_of_eq (List.length_map _))
  have hreordered := Lane.reordered_after_of_blank ht pool'.schedule hop hreset c.fits_blankLane
    c.fits_blankLane 0 hcount
  rw [hall] at hreordered
  exact hreordered

/-- Schedules that agree under the id of a shot, or a single workgroup, give equal solo shots. -/
theorem soloLane_of_schedule (hchecked : c.Checked) {pool pool' : Pool} {k : Nat}
    (h : pool'.schedule (UInt32.ofNat k) = pool.schedule (UInt32.ofNat k) ∨
      (Layout.ofCircuit c.qubits c.qubitsPerWorkgroup).workgroups = 1) :
    c.soloLane pool' stream k = c.soloLane pool stream k := by
  obtain ⟨e, w, htiled⟩ := Layout.exists_tiled_ofCircuit c.qubits hchecked.perWorkgroup_ge
    hchecked.perWorkgroup_le
  have ht : (c.soloJob pool stream k).layout.Tiled e w := htiled
  rcases h with hown | hone
  · have hid : (c.soloJob pool stream k).batch.firstShot + UInt32.ofNat 0 = UInt32.ofNat k :=
      UInt32.add_zero _
    have hop : (c.soloJob pool stream k).ops[c.blankLane.shot.nextOp]? = some strand.op := by
      subst hstream
      rfl
    exact Lane.after_of_schedule ht pool'.schedule (by rw [hid]; exact hown) c.fits_blankLane
      (Or.inr ⟨strand.op, hop, hreset⟩) stream.length
  · exact Lane.after_of_single ht pool'.schedule hone c.fits_blankLane 0 stream.length

end Config

omit [Scalar R] in
/-- Matching lanes have results that agree outside their reports. -/
theorem Lane.Matches.sameShot_result {a b : Lane R} {resultCount : Nat}
    (h : Matches resultCount a b) (stream : Stream R) (n : Nat) :
    (a.result stream n resultCount).SameShot (b.result stream n resultCount) := by
  have hmeasured := h.measured
  constructor <;> simp only [Lane.result, RunResults.shotResult, h.shot, hmeasured]

/-- Results of one shot under two schedules; the records of a `settled` shot are equal. -/
structure ShotResult.Reordered (settled : Prop) (a b : ShotResult R) : Prop
    extends ShotResult.SameShot a b where
  dropped : b.dropped = a.dropped
  records : settled → b.records = a.records

/-- Results of a run under two schedules. -/
structure RunResults.Reordered (settled : ShotResult R → Prop) (a b : RunResults R) : Prop where
  success : b.success = a.success
  states : b.states = a.states
  shots : List.Forall₂ (fun r r' => r.Reordered (settled r) r') a.shots b.shots

/-- Runs of one configuration on two hosts agree up to the order of records. -/
theorem Runs.exists_reordered {program : List (Op R)} {c : Config R} {host host' : Host R}
    (h : Runs program c host) (h' : Runs program c host') :
    ∃ results results', (runProgram program c host).result = .ok results ∧
      (runProgram program c host').result = .ok results' ∧
      results.Reordered (fun r => (Layout.ofCircuit c.qubits c.qubitsPerWorkgroup).workgroups = 1 ∨
        (r.dropped = 0 ∧ reportCount
          (Stream.build program c.noise c.idle.isSome c.qubits).ops < 32)) results' := by
  have hchecked := Config.checked_of_validate h.checked
  obtain ⟨stream, hstream⟩ :
      ∃ stream, stream = Stream.build program c.noise c.idle.isSome c.qubits :=
    ⟨_, rfl⟩
  obtain ⟨results, hresult, hshots, hstates, hsuccess⟩ := h.exists_results hstream
  obtain ⟨results', hresult', hshots', hstates', hsuccess'⟩ := h'.exists_results hstream
  have hreordered := c.reordered_soloLane hstream rfl hchecked host.pool host'.pool
  have hshot := fun k => (hreordered k).toMatches.sameShot_result stream c.qubits
  rw [← hstream]
  refine ⟨results, results', hresult, hresult', ?_, ?_, ?_⟩
  · rw [hsuccess, hsuccess', hshots, hshots', List.all_map, List.all_map]
    exact congrArg (List.all _) (funext fun k => congrArg ShotStatus.isOk (hshot k).status)
  · rw [hstates, hstates']
    simp only [(hreordered _).block]
  · -- Both lists go over the shots by themselves.
    rw [hshots, hshots', List.forall₂_map_left_iff, List.forall₂_map_right_iff, List.forall₂_same]
    intro k _
    refine ⟨hshot k, (hreordered k).log.dropped.symm, ?_⟩
    rintro (hone | ⟨hdropped, hreports⟩)
    · have hsolo : c.soloLane host'.pool stream k = c.soloLane host.pool stream k :=
        c.soloLane_of_schedule hstream rfl hchecked (Or.inr hone)
      rw [hsolo]
    · exact ((hreordered k).log.sorted_eq (hchecked.mul_entriesPerShot_lt hreports) hdropped).symm

/-- Shots are isolated. Between two runs of one program for the same circuit, shot `k` has the same
id, status, measurements, times and amplitudes, whatever the number of shots, the batches and the
schedules. With the same report settings it drops equally many records, and lists the same ones if
it has the same schedule in both runs, a single workgroup, or no drops and no wrapped cursor. On a
machine, a shot of a batch ends like the only shot of a batch starting at its id, if the program
begins with a restart or the two start from the same memory: equal control blocks, amplitudes,
measurements and report counts, equal log slots under one schedule, and the same records up to order
if none are dropped. -/
theorem shots_isolated :
    (∀ (program : List (Op R)) (c c' : Config R) (host host' : Host R),
      Runs program c host → Runs program c' host' → c.SameCircuit c' →
      ∃ results results', (runProgram program c host).result = .ok results ∧
        (runProgram program c' host').result = .ok results' ∧
        results.shots.length = c.shots ∧ results'.shots.length = c'.shots ∧
        results.states.isSome = c.capture ∧ results'.states.isSome = c'.capture ∧
        ∀ k, k < c.shots → k < c'.shots →
          ∃ r r', results.shots[k]? = some r ∧ results'.shots[k]? = some r' ∧
            r.id = UInt32.ofNat k ∧ r.SameShot r' ∧
            (c'.threshold = c.threshold → c'.resultsPerShot = c.resultsPerShot →
              r'.dropped = r.dropped ∧
              (host'.pool.schedule (UInt32.ofNat k) = host.pool.schedule (UInt32.ofNat k) ∨
                (Layout.ofCircuit c.qubits c.qubitsPerWorkgroup).workgroups = 1 ∨
                (r.dropped = 0 ∧ reportCount
                  (Stream.build program c.noise c.idle.isSome c.qubits).ops < 32) →
                r'.records = r.records)) ∧
            ∀ states ∈ results.states, ∀ states' ∈ results'.states,
              ∃ amps, states[k]? = some amps ∧ states'[k]? = some amps) ∧
    ∀ (m m' : Machine R) (batch : Batch R) (n perWorkgroup i count base : Nat) (old old' : Lane R),
      m.SameSetup m' → m.layout = .ofCircuit n perWorkgroup →
      minQubitsPerWorkgroup ≤ perWorkgroup → perWorkgroup ≤ maxQubitsPerWorkgroup →
      batch.qubits ≤ m.layout.qubitCount → i < batch.shots →
      m.lanes[i]? = some old → m'.lanes[0]? = some old' →
      ((0 < count ∧ (∃ op, m.ops[0]? = some op ∧ op.isResetAll = true) ∧ base = 0) ∨
        (Lane.Agree m.resultCount { old with shot := 0 } { old' with shot := 0 } ∧
          base = old.log.cursor.toNat)) →
      ∃ lane alone, ((m.beginBatch batch).run count).active[i]? = some lane ∧
        ((m'.beginBatch { batch with
          firstShot := batch.firstShot + UInt32.ofNat i, shots := 1 }).run count).active = [alone] ∧
        Lane.Matches m.resultCount lane alone ∧ lane.log.cursor = alone.log.cursor ∧
        (m'.pool.schedule = m.pool.schedule → Lane.Agree m.resultCount lane alone) ∧
        (base + reportCount (m.ops.toList.take count) * m.layout.entriesPerShot < 2 ^ 32 →
          lane.log.dropped = 0 →
            lane.log.kept.Perm alone.log.kept ∧ lane.log.sorted = alone.log.sorted) := by
  constructor
  · intro program c c' host host' hruns hruns' hsame
    have hchecked := Config.checked_of_validate hruns.checked
    obtain ⟨stream, hstream⟩ :
        ∃ stream, stream = Stream.build program c.noise c.idle.isSome c.qubits :=
      ⟨_, rfl⟩
    obtain ⟨results, hresult, hshots, hstates, _⟩ := hruns.exists_results hstream
    obtain ⟨results', hresult', hshots', hstates', _⟩ :=
      hruns'.exists_results (hstream.trans (hsame.stream_eq program).symm)
    refine ⟨results, results', hresult, hresult', by simp [hshots], by simp [hshots'], ?_, ?_, ?_⟩
    · rw [hstates]
      cases c.capture <;> rfl
    · rw [hstates']
      cases c'.capture <;> rfl
    · intro k hk hk'
      -- Each run gives shot `k` what it has by itself; the schedule of the first run is exchanged
      -- for that of the second, and then its configuration.
      have hreordered := c.reordered_soloLane hstream rfl hchecked host.pool host'.pool k
      have hecho := hsame.echoes_soloLane hchecked host'.pool stream k
      refine ⟨_, _, by rw [hshots, List.getElem?_map, List.getElem?_range hk]; rfl,
        by rw [hshots', List.getElem?_map, List.getElem?_range hk']; rfl,
        c.id_soloLane hstream rfl host.pool k, ?_, ?_, ?_⟩
      · have hshot := hecho.shot
        rw [Shot.shift_zero] at hshot
        have hmatch := hreordered.toMatches.sameShot_result stream c.qubits
        constructor
        · rw [← hmatch.id]
          simp only [Lane.result, RunResults.shotResult, hshot]
        · rw [← hmatch.status]
          simp only [Lane.result, RunResults.shotResult, hshot]
        · rw [← hmatch.measurements]
          simp only [Lane.result, RunResults.shotResult, hecho.slots, hsame.resultCount]
        · rw [← hmatch.elapsed]
          simp only [Lane.result, RunResults.shotResult, hshot]
        · rw [← hmatch.heat]
          simp only [Lane.result, RunResults.shotResult, hshot, hsame.qubits]
      · intro hthreshold hper
        have hlog := hecho.log ⟨hthreshold, hper⟩
        refine ⟨?_, ?_⟩
        · exact (congrArg ReportLog.dropped hlog).trans hreordered.log.dropped.symm
        · rw [← hstream]
          intro hcase
          refine (congrArg ReportLog.sorted hlog).trans ?_
          rcases hcase with hown | hone | ⟨hdropped, hreports⟩
          · rw [c.soloLane_of_schedule hstream rfl hchecked (Or.inl hown)]
            rfl
          · rw [c.soloLane_of_schedule hstream rfl hchecked (Or.inr hone)]
            rfl
          · exact (hreordered.log.sorted_eq (hchecked.mul_entriesPerShot_lt hreports) hdropped).symm
      · -- Both runs have captured the amplitudes.
        intro states hmem states' hmem'
        rw [hstates, Option.mem_def, Option.ite_none_right_eq_some] at hmem
        rw [hstates', Option.mem_def, Option.ite_none_right_eq_some] at hmem'
        obtain ⟨_, hlist⟩ := hmem
        obtain ⟨_, hlist'⟩ := hmem'
        cases hlist
        cases hlist'
        refine ⟨_, by rw [List.getElem?_map, List.getElem?_range hk]; rfl, ?_⟩
        rw [List.getElem?_map, List.getElem?_range hk', hsame.qubits]
        exact congrArg (fun block => some (block.extract 0 (Nat.pow 2 c.qubits)))
          (hecho.block.trans hreordered.block.symm)
  · intro m m' batch n perWorkgroup i count base old old' hsetup hlayout hmin hmax hroom hi
      hold hold'
      hstart
    obtain ⟨e, w, ht⟩ := Layout.exists_tiled_ofCircuit n hmin hmax
    obtain ⟨lane, alone, hlane, halone, hreordered, hagree⟩ :=
      hsetup.exists_reordered_alone (hlayout ▸ ht) hroom hi hold hold' hstart
    refine ⟨lane, alone, hlane, halone, hreordered.toMatches, hreordered.log.cursor, hagree, ?_⟩
    intro hword hdropped
    exact ⟨(hreordered.log.sameReports_kept hword hdropped).perm,
      hreordered.log.sorted_eq hword hdropped⟩

def largestCircuit : Config Float32 :=
    { Config.standard with qubits := 27, shots := 3, resultCount := 1 }

def pairMachine : Machine Float32 :=
  (Machine.fresh.load [.resetAll, .h 0, .mEveryZ] 0).prepareRun
    ⟨1, .ofCircuit 1 12, 0, 4, 2, 2, 1, 3⟩

/-- Shot 1 of the largest circuit, in runs of different length and schedule. -/
theorem shots_isolated_largestCircuit :
    (∃ results results',
      (runProgram [.h 26, .mz 26 0] largestCircuit .empty).result = .ok results ∧
      (runProgram [.h 26, .mz 26 0] { largestCircuit with shots := 2, capture := true }
        { Host.empty with pool := ⟨8, fun _ _ => [3, 1]⟩ }).result = .ok results' ∧
      ∃ r r', results.shots[1]? = some r ∧ results'.shots[1]? = some r' ∧ r.id = 1 ∧ r.SameShot r' ∧
        r'.dropped = r.dropped ∧ (r.dropped = 0 → r'.records = r.records)) ∧
    ∃ lane alone,
      ((pairMachine.beginBatch ⟨6, 0, 2, 1, 0⟩).run 3).active[1]? = some lane ∧
      ((pairMachine.beginBatch ⟨7, 0, 1, 1, 0⟩).run 3).active = [alone] ∧
      Lane.Agree 0 lane alone := by
  have hruns : Runs [.h 26, .mz 26 0] largestCircuit .empty := ⟨rfl, rfl, ⟨_, rfl⟩, by decide⟩
  have hruns' : Runs [.h 26, .mz 26 0] { largestCircuit with shots := 2, capture := true }
      { Host.empty with pool := ⟨8, fun _ _ => [3, 1]⟩ } := ⟨rfl, rfl, ⟨_, rfl⟩, by decide⟩
  have hsize : pairMachine.lanes.size = 2 := by simp [pairMachine, Machine.prepareRun]
  have hfits : pairMachine.Fits := Machine.fits_prepareRun _ _
  constructor
  · obtain ⟨results, results', hresult, hresult', _, _, _, _, hshot⟩ :=
      shots_isolated.1 _ _ _ _ _ hruns hruns' ⟨rfl, rfl, rfl, rfl, rfl, rfl⟩
    obtain ⟨r, r', hr, hr', hid, hsame, hreports, _⟩ := hshot 1 (by decide) (by decide)
    obtain ⟨hdropped, hrecords⟩ := hreports rfl rfl
    exact ⟨results, results', hresult, hresult', r, r', hr, hr', hid, hsame, hdropped,
      fun hnone => hrecords (Or.inr (Or.inr ⟨hnone, by decide⟩))⟩
  · obtain ⟨lane, alone, hlane, halone, _, _, hagree, _⟩ :=
      shots_isolated.2 pairMachine pairMachine ⟨6, 0, 2, 1, 0⟩ 1 12 1 3 0 _ _
        ⟨rfl, rfl, rfl, rfl, rfl, hfits, hfits⟩ rfl (by decide) (by decide) (by decide) (by decide)
        (Array.getElem?_eq_getElem (by rw [hsize]; decide))
        (Array.getElem?_eq_getElem (by rw [hsize]; decide)) (Or.inl ⟨by decide, ⟨_, rfl, rfl⟩, rfl⟩)
    exact ⟨lane, alone, hlane, halone, hagree rfl⟩

end ShotSim
