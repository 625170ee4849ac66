import Mathlib.Data.List.Basic
import ShotSim.Proofs.Admission
import ShotSim.Session

/-!
# Machine runs — a batch is its lanes, each on its own

A machine moves all lanes of a batch at once.  No lane looks at another, so a run of the machine is
a run of every lane, and what is read back after a batch is read off its lanes one by one.

* `Lane.after`, `after_of_steps` — a number of steps of one lane, and what they keep;
* `Machine.run_eq` — a run of the machine in terms of its lanes;
* `Lane.result`, `batchResults_read` — the results of a batch, lane by lane;
* `verdictFrom`, `Lane.verdict_after` — the verdict that a list of operations leads to.
-/

namespace ShotSim

variable {R : Type} [Scalar R]

/-! ## Lanes -/

namespace Lane

def after (lane : Lane R) (job : Job R) (shotIdx : Nat) : Nat → Lane R
  | 0 => lane
  | count + 1 => (lane.step job shotIdx).after job shotIdx count

@[simp] theorem shot_execute (lane : Lane R) (job : Job R) :
    (lane.execute job).shot = lane.shot := by
  unfold execute
  split <;> rfl

@[simp] theorem slots_execute (lane : Lane R) (job : Job R) :
    (lane.execute job).slots = lane.slots := by
  unfold execute
  split <;> rfl

theorem shot_step (lane : Lane R) (job : Job R) (shotIdx : Nat) :
    (lane.step job shotIdx).shot = (lane.prepare job shotIdx).shot :=
  shot_execute _ job

/-- Runs of steps compose. -/
theorem after_add (lane : Lane R) (job : Job R) (shotIdx m n : Nat) :
    lane.after job shotIdx (m + n) = (lane.after job shotIdx m).after job shotIdx n := by
  induction m generalizing lane with
  | zero => rw [Nat.zero_add, after]
  | succ m ih => rw [Nat.succ_add, after, after, ih]

/-- A property established by the first step and preserved by every step holds after any step. -/
theorem after_of_steps (P : Lane R → Prop) {lane : Lane R} {job : Job R} {shotIdx : Nat}
    (hfirst : P (lane.step job shotIdx)) (hstep : ∀ lane, P lane → P (lane.step job shotIdx))
    {count : Nat} (hcount : 0 < count) : P (lane.after job shotIdx count) := by
  cases count with
  | zero => exact absurd hcount (Nat.lt_irrefl 0)
  | succ count =>
      rw [after]
      generalize lane.step job shotIdx = reached at hfirst ⊢
      clear hcount
      induction count generalizing reached with
      | zero => exact hfirst
      | succ count ih => exact ih _ (hstep reached hfirst)

/-- Past the end of the stream a step keeps the amplitudes. -/
theorem prepare_past_end {lane : Lane R} {job : Job R} (hop : job.ops[lane.shot.nextOp]? = none)
    (shotIdx : Nat) :
    lane.prepare job shotIdx =
      { lane with shot := { lane.shot with selected := .id, renormalize := 1 } } := by
  rw [prepare, hop]

/-- Every step consumes one operation while any are left. -/
theorem nextOp_after {lane : Lane R} {job : Job R} (shotIdx : Nat) {count : Nat}
    (h : lane.shot.nextOp + count ≤ job.ops.size) :
    (lane.after job shotIdx count).shot.nextOp = lane.shot.nextOp + count := by
  induction count generalizing lane with
  | zero => rfl
  | succ count ih =>
      have hop : job.ops[lane.shot.nextOp]? = some (job.ops[lane.shot.nextOp]) :=
        Array.getElem?_eq_getElem (by omega)
      have hnext : (lane.step job shotIdx).shot.nextOp = lane.shot.nextOp + 1 := by
        rw [shot_step, nextOp_prepare shotIdx hop]
      rw [after, ih (by omega), hnext]
      omega

end Lane

/-- The verdict of operations numbered from `opIdx`. -/
def verdictFrom {R : Type} (qubitCount : Nat) :
    List (Op R) → Nat → StatusCode × Nat → StatusCode × Nat
  | [], _, verdict => verdict
  | op :: rest, opIdx, verdict =>
    verdictFrom qubitCount rest (opIdx + 1) (verdictAfter qubitCount verdict op opIdx)

/-- The verdict of an appended stream continues that of the first part. -/
theorem verdictFrom_append {R : Type} (n : Nat) (ops ops' : List (Op R)) (opIdx : Nat)
    (verdict : StatusCode × Nat) :
    verdictFrom n (ops ++ ops') opIdx verdict =
      verdictFrom n ops' (opIdx + ops.length) (verdictFrom n ops opIdx verdict) := by
  induction ops generalizing opIdx verdict with
  | nil => rfl
  | cons op rest ih =>
      rw [List.cons_append, verdictFrom, ih, List.length_cons, verdictFrom, Nat.add_assoc opIdx 1,
        Nat.add_comm 1]

/-- After `count` steps the verdict is that of the next `count` operations. -/
theorem Lane.verdict_after_of_drop {lane : Lane R} {job : Job R} (shotIdx : Nat)
    {ops rest : List (Op R)} (h : job.ops.toList.drop lane.shot.nextOp = ops ++ rest) :
    (lane.after job shotIdx ops.length).shot.verdict =
      verdictFrom job.batch.qubits ops lane.shot.nextOp lane.shot.verdict := by
  induction ops generalizing lane with
  | nil => rfl
  | cons op later ih =>
      -- One step takes the first operation, and the rest is left for the steps after it.
      have hop : job.ops[lane.shot.nextOp]? = some op := by
        rw [← Array.getElem?_toList, ← List.head?_drop, h]
        rfl
      have hnext : (lane.step job shotIdx).shot.nextOp = lane.shot.nextOp + 1 := by
        rw [shot_step, nextOp_prepare shotIdx hop]
      have hverdict : (lane.step job shotIdx).shot.verdict =
          verdictAfter job.batch.qubits lane.shot.verdict op lane.shot.nextOp := by
        rw [shot_step, verdict_prepare shotIdx hop]
      have hlater : job.ops.toList.drop (lane.step job shotIdx).shot.nextOp = later ++ rest := by
        rw [hnext, ← List.drop_drop, h]
        rfl
      rw [List.length_cons, after, ih hlater, hnext, hverdict]
      rfl

/-- At the end of the stream the verdict is that of all operations. -/
theorem Lane.verdict_after {lane : Lane R} {job : Job R} (shotIdx : Nat) {ops : List (Op R)}
    (h : job.ops.toList.drop lane.shot.nextOp = ops) :
    (lane.after job shotIdx ops.length).shot.verdict =
      verdictFrom job.batch.qubits ops lane.shot.nextOp lane.shot.verdict :=
  verdict_after_of_drop shotIdx (h.trans (List.append_nil ops).symm)

/-! ## Machines -/

namespace Machine

/-- A step of the machine is a step of every active lane. -/
theorem prepare_execute (m : Machine R) :
    m.prepare.execute =
      { m with
        lanes := m.lanes.mapIdx fun i lane => if i < m.batch.shots then lane.step m.job i else lane
        steps := m.steps + 1 } := by
  have hlanes : m.prepare.execute.lanes =
      (m.lanes.mapIdx fun i lane => if i < m.batch.shots then lane.prepare m.job i else lane).mapIdx
        fun i lane => if i < m.batch.shots then lane.execute m.job else lane := rfl
  have hstep : m.prepare.execute.lanes =
      m.lanes.mapIdx fun i lane => if i < m.batch.shots then lane.step m.job i else lane := by
    rw [hlanes, Array.mapIdx_mapIdx]
    congr 1
    funext i lane
    by_cases hi : i < m.batch.shots
    · simp [hi, Lane.step]
    · simp [hi]
  rw [← hstep]
  rfl

/-- A run of the machine is a run of every active lane. -/
theorem run_eq (m : Machine R) (count : Nat) :
    m.run count =
      { m with
        lanes := m.lanes.mapIdx fun i lane =>
          if i < m.batch.shots then lane.after m.job i count else lane
        steps := m.steps + count } := by
  induction count generalizing m with
  | zero =>
      have hsame : (m.lanes.mapIdx fun i lane =>
          if i < m.batch.shots then lane.after m.job i 0 else lane) = m.lanes := by
        apply Array.ext
        · simp
        · intro i hi hi'
          simp [Lane.after]
      rw [hsame]
      rfl
  | succ count ih =>
      -- A step of every lane, then `count` steps of every lane: lane by lane, one step more.
      have hlanes : (m.lanes.mapIdx fun i lane =>
            if i < m.batch.shots then lane.step m.job i else lane).mapIdx
              (fun i lane => if i < m.batch.shots then lane.after m.job i count else lane) =
          m.lanes.mapIdx fun i lane =>
            if i < m.batch.shots then lane.after m.job i (count + 1) else lane := by
        rw [Array.mapIdx_mapIdx]
        congr 1
        funext i lane
        by_cases hi : i < m.batch.shots
        · simp [hi, Lane.after]
        · simp [hi]
      have hsteps : m.steps + (count + 1) = m.steps + 1 + count := by omega
      rw [run, ih, prepare_execute, ← hlanes, hsteps]
      rfl

end Machine

/-! ## Results of a batch -/

def Lane.result (lane : Lane R) (stream : Stream R) (qubits resultCount : Nat) : ShotResult R :=
  RunResults.shotResult stream qubits lane.shot lane.log (lane.slots.toList.take resultCount)

theorem zip_map_map {α β γ δ : Type} (f : α → β) (g : α → γ) (h : α → δ) (xs : List α) :
    (xs.map f).zip ((xs.map g).zip (xs.map h)) = xs.map fun x => (f x, g x, h x) := by
  induction xs with
  | nil => rfl
  | cons x rest ih => simp [ih]

omit [Scalar R] in
/-- The results of a batch are those of its active lanes. -/
theorem batchResults_read (stream : Stream R) (qubits : Nat) (m : Machine R) (capture : Bool) :
    RunResults.batchResults stream qubits (m.read capture) =
      m.active.map fun lane => lane.result stream qubits m.resultCount := by
  simp only [RunResults.batchResults, Machine.read, zip_map_map, List.map_map]
  rfl

namespace Machine

theorem size_lanes_prepareRun (m : Machine R) (plan : Plan) :
    (m.prepareRun plan).lanes.size = plan.shotsPerBatch := by
  simp [prepareRun]

def batchJob (m : Machine R) (batch : Batch R) : Job R :=
  ⟨m.ops, batch, m.idle, m.layout, m.resultCount, m.pool.schedule⟩

/-- The active lanes at the end of a batch: each ran on its own from a blank control block. -/
theorem active_run_beginBatch (m : Machine R) (batch : Batch R) (count : Nat) :
    ((m.beginBatch batch).run count).active =
      (m.lanes.toList.take batch.shots).mapIdx fun i lane =>
        Lane.after { lane with shot := 0 } (m.batchJob batch) i count := by
  apply List.ext_getElem?
  intro i
  rw [run_eq]
  simp only [active, beginBatch, List.getElem?_take, List.getElem?_mapIdx, Array.getElem?_toList,
    Array.getElem?_mapIdx, Array.getElem?_map]
  by_cases hi : i < batch.shots
  · simp only [hi, if_true, Option.map_map]
    rfl
  · simp [hi]

/-- A lane of a running batch in terms of the lane at its beginning. -/
theorem getElem?_lanes_run (m : Machine R) {batch : Batch R} {shotIdx : Nat}
    (h : shotIdx < batch.shots) (count : Nat) :
    ((m.beginBatch batch).run count).lanes[shotIdx]? = m.lanes[shotIdx]?.map fun old =>
      Lane.after { old with shot := 0 } (m.batchJob batch) shotIdx count := by
  rw [run_eq, Array.getElem?_mapIdx, beginBatch, Array.getElem?_map, Option.map_map]
  congr 1
  funext old
  exact if_pos h

/-- The machines differ in lanes, batch and steps only, and have equally many lanes. -/
structure Frame {R : Type} (m m' : Machine R) : Prop where
  ops : m'.ops = m.ops
  idle : m'.idle = m.idle
  layout : m'.layout = m.layout
  resultsPerShot : m'.resultsPerShot = m.resultsPerShot
  resultCount : m'.resultCount = m.resultCount
  pool : m'.pool = m.pool
  size : m'.lanes.size = m.lanes.size

/-- Frame of a batch: only the lanes change, not their number. -/
theorem run_beginBatch_frame (m : Machine R) (batch : Batch R) (count : Nat) :
    m.Frame ((m.beginBatch batch).run count) := by
  rw [run_eq]
  constructor <;> simp [beginBatch]

omit [Scalar R] in
/-- Machines in the frame have the same job for a batch. -/
theorem Frame.batchJob_eq {m m' : Machine R} (h : m.Frame m') (batch : Batch R) :
    m'.batchJob batch = m.batchJob batch := by
  simp only [batchJob, h.ops, h.idle, h.layout, h.resultCount, h.pool]

end Machine

/-! ## Results of a run -/

namespace Session

def batchOf (config : Config R) (plan : Plan) (range : Nat × Nat) : Batch R :=
  ⟨UInt32.ofNat range.1, config.seed, range.2, plan.circuitQubits, config.threshold⟩

def batchesResults (config : Config R) (plan : Plan) (stream : Stream R) (ranges : List (Nat × Nat))
    (index : Nat) (m : Machine R) : List (ShotResult R) :=
  (runBatches config plan ranges index m).2.1.flatMap
    (RunResults.batchResults stream plan.circuitQubits)

/-- The results of the first batch, then those of the others. -/
theorem batchesResults_cons (config : Config R) (plan : Plan) (stream : Stream R)
    (range : Nat × Nat) (rest : List (Nat × Nat)) (index : Nat) (m : Machine R) :
    batchesResults config plan stream (range :: rest) index m =
      ((m.lanes.toList.take range.2).mapIdx fun i lane =>
        Lane.after { lane with shot := 0 } (m.batchJob (batchOf config plan range)) i plan.ops).map
          (fun lane => lane.result stream plan.circuitQubits m.resultCount) ++
      batchesResults config plan stream rest (index + 1)
        ((m.beginBatch (batchOf config plan range)).run plan.ops) := by
  have hcons : batchesResults config plan stream (range :: rest) index m =
      RunResults.batchResults stream plan.circuitQubits
        (((m.beginBatch (batchOf config plan range)).run plan.ops).read config.capture) ++
      batchesResults config plan stream rest (index + 1)
        ((m.beginBatch (batchOf config plan range)).run plan.ops) := rfl
  have hframe := m.run_beginBatch_frame (batchOf config plan range) plan.ops
  rw [hcons, batchResults_read, Machine.active_run_beginBatch, hframe.resultCount]
  rfl

/-- There is one result per shot. -/
theorem length_batchesResults (config : Config R) (plan : Plan) (stream : Stream R)
    {ranges : List (Nat × Nat)} (index : Nat) {m : Machine R}
    (h : ∀ range ∈ ranges, range.2 ≤ m.lanes.size) :
    (batchesResults config plan stream ranges index m).length = (ranges.map (·.2)).sum := by
  induction ranges generalizing index m with
  | nil => rfl
  | cons range rest ih =>
      have hframe := m.run_beginBatch_frame (batchOf config plan range) plan.ops
      have hrest : ∀ other ∈ rest, other.2 ≤
          ((m.beginBatch (batchOf config plan range)).run plan.ops).lanes.size := by
        intro other hother
        rw [hframe.size]
        exact h other (List.mem_cons_of_mem _ hother)
      have hroom := h range List.mem_cons_self
      rw [batchesResults_cons, List.length_append, ih (index + 1) hrest]
      simp only [List.length_map, List.length_mapIdx, List.length_take, Array.length_toList,
        List.map_cons, List.sum_cons]
      omega

/-- A property of every lane started from a blank control block holds of every result. -/
theorem forall_mem_batchesResults (config : Config R) (plan : Plan) (stream : Stream R)
    {ranges : List (Nat × Nat)} (index : Nat) {m : Machine R} {motive : ShotResult R → Prop}
    (h : ∀ (lane : Lane R) (range : Nat × Nat) (shotIdx : Nat), lane.shot = 0 →
      motive ((lane.after (m.batchJob (batchOf config plan range)) shotIdx plan.ops).result stream
        plan.circuitQubits m.resultCount)) :
    ∀ result ∈ batchesResults config plan stream ranges index m, motive result := by
  induction ranges generalizing index m with
  | nil => simp [batchesResults, runBatches]
  | cons range rest ih =>
      intro result hresult
      rw [batchesResults_cons] at hresult
      rcases List.mem_append.1 hresult with hhere | hlater
      · rcases List.mem_map.1 hhere with ⟨lane, hlane, rfl⟩
        rcases List.mem_mapIdx.1 hlane with ⟨i, hi, rfl⟩
        exact h _ range i rfl
      · -- Later batches find the operations and the layout unchanged.
        have hframe := m.run_beginBatch_frame (batchOf config plan range) plan.ops
        apply ih (index + 1) _ result hlater
        intro lane other shotIdx hlane
        rw [hframe.batchJob_eq, hframe.resultCount]
        exact h lane other shotIdx hlane

/-! ## Running a stream -/

/-- The machine of a session at the first batch of a stream. -/
def readyMachine (s : Session R) (stream : Stream R) (plan : Plan) (pool : Pool) : Machine R :=
  ({ s.machine with pool := pool }.load stream.ops s.config.idleParams).prepareRun plan

/-- A checked session runs its cached or newly built stream. -/
theorem run_of_checked {s : Session R} (hconfig : s.config.validate = .ok ())
    (hprogram : s.config.validateProgram s.program = .ok ()) (host : Host R) :
    s.run host =
      { s with stream := some (s.stream.getD s.buildStream) }.runStream
        (s.stream.getD s.buildStream) host := by
  rw [run, hconfig, hprogram]

/-- A single run builds its own stream for a fresh machine. -/
theorem runProgram_of_checked {program : List (Op R)} {config : Config R}
    (hconfig : config.validate = .ok ()) (hprogram : config.validateProgram program = .ok ())
    (host : Host R) :
    let stream := Stream.build program config.noise config.idle.isSome config.qubits
    runProgram program config host =
      (runStream ⟨config, program, some stream, .fresh⟩ stream host).2 := by
  intro stream
  have hrun : ((new config).setProgram program).run host =
      runStream ⟨config, program, some stream, .fresh⟩ stream host :=
    run_of_checked (s := (new config).setProgram program) hconfig hprogram host
  rw [runProgram, hrun]

/-- An accepted plan on the CPU gives the results of its batches. -/
theorem runStream_result {s : Session R} {stream : Stream R} {plan : Plan} {host : Host R}
    (hplan : Plan.make s.config stream.length = .ok plan)
    (hcpu : host.resolve s.config.backend ≠ .gpu) :
    ∃ results, (s.runStream stream host).2.result = .ok results ∧
      results.shots = batchesResults s.config plan stream plan.batchRanges 0
        (s.readyMachine stream plan host.pool) ∧
      results.success = results.shots.all (·.status.isOk) := by
  refine ⟨RunResults.collect stream plan s.config.capture (Machine.name host.pool)
    (runBatches s.config plan plan.batchRanges 0 (s.readyMachine stream plan host.pool)).2.1,
    ?_, rfl, rfl⟩
  rw [runStream, hplan]
  dsimp only
  rw [if_neg hcpu]
  rfl

theorem size_lanes_readyMachine (s : Session R) (stream : Stream R) (plan : Plan) (pool : Pool) :
    (s.readyMachine stream plan pool).lanes.size = plan.shotsPerBatch :=
  Machine.size_lanes_prepareRun _ plan

end Session

end ShotSim
