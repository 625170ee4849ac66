import ShotSim.Sweep

/-!
# Lanes

All that belongs to one shot: its control block, amplitudes, sums, reports and measurement slots. A
step of a shot is `prepare`, which decides, followed by `execute`, which goes over the amplitudes.
Neither looks at another lane.
-/

namespace ShotSim

def Layout.shard {R : Type} (l : Layout) (block : Array (Cplx R)) (workgroup : Nat) : Window R :=
  let base := workgroup * l.entriesPerWorkgroup
  ⟨base, block.extract base (base + l.entriesPerWorkgroup)⟩

/-- The memory of one shot. -/
structure Lane (R : Type) where
  shot : Shot R
  block : Array (Cplx R)
  sums : Array (Sums R)
  log : ReportLog R
  slots : Array Outcome

namespace Lane

variable {R : Type} [Scalar R]

def blank (layout : Layout) (resultsPerShot slots : Nat) : Lane R where
  shot := 0
  block := Array.replicate layout.entriesPerShot 0
  sums := Array.replicate layout.workgroups 0
  log := ⟨0, Array.replicate resultsPerShot 0⟩
  slots := Array.replicate slots .zero

def restart (lane : Lane R) (job : Job R) (shotIdx : Nat) : Lane R :=
  { lane with
    shot := lane.shot.restart job.batch shotIdx
    log := { lane.log with cursor := 0 }
    slots := Register.clearSlots lane.slots job.resultCount }

/-- Takes the draws and the collation, and resolves the operation unless the shot has failed. -/
def advance (lane : Lane R) (job : Job R) (op : Op R) (opIdx : Nat) : Lane R :=
  let shot := lane.shot.draw.takeCollation lane.sums job.batch.qubits
  let shot := { shot with selected := .id, injectedArity := 0 }
  if shot.status = .ok then
    let r := Register.resolve ⟨shot, lane.slots⟩ job op opIdx
    { lane with shot := r.shot, slots := r.slots }
  else { lane with shot := shot }

/-- Prepares the next step. Past the end of the program the amplitudes are kept. -/
def prepare (lane : Lane R) (job : Job R) (shotIdx : Nat) : Lane R :=
  let opIdx := lane.shot.nextOp
  match job.ops[opIdx]? with
  | none => { lane with shot := { lane.shot with selected := .id, renormalize := 1 } }
  | some op =>
    let lane := if op.isResetAll then lane.restart job shotIdx else lane.advance job op opIdx
    { lane with
      shot := { lane.shot with
        collect := if job.readsProbabilities (opIdx + 1) then 1 else 0
        opIdx := opIdx
        nextOp := opIdx + 1 } }

/-- Whether every workgroup stays within its own shard. -/
def fitsShard (job : Job R) (shot : Shot R) : Bool :=
  shot.mode.isContiguous ||
    let op := job.ops[shot.opIdx]?.getD default
    ([op.q1, op.q2, op.q3].take shot.mode.arity).all fun q => decide (q < job.layout.shardBits)

/-- Runs workgroups in sequence on the whole block. -/
def runWhole (job : Job R) (shot : Shot R) :
    List Nat → Bench R → Bench R × List (Sums R)
  | [], b => (b, [])
  | workgroup :: rest, b =>
    let (b, sums) := b.runWorkgroup job shot workgroup
    let (b, more) := runWhole job shot rest b
    (b, sums :: more)

def executeWhole (lane : Lane R) (job : Job R) : Lane R :=
  let (b, sums) :=
    runWhole job lane.shot (List.range job.layout.workgroups) ⟨⟨0, lane.block⟩, lane.log⟩
  { lane with block := b.window.amps, sums := sums.toArray, log := b.log }

/-- Runs workgroups, each on its own shard of `block`. Returns the joined shards and the sums. -/
def runShards (job : Job R) (shot : Shot R) (block : Array (Cplx R)) :
    List Nat → Array (Cplx R) × List (Sums R)
  | [] => (#[], [])
  | workgroup :: rest =>
    let (own, sums) := (job.layout.shard block workgroup).runWorkgroup job shot workgroup
    let (amps, more) := runShards job shot block rest
    (own.amps ++ amps, sums :: more)

/-- The reports of all shards, interleaved by the schedule. -/
def shardReports (job : Job R) (shot : Shot R) (block : Array (Cplx R)) : List (Record R) :=
  interleave (job.schedule shot.id shot.opIdx)
    ((List.range job.layout.workgroups).map fun workgroup =>
      (job.layout.shard block workgroup).workgroupReports job shot workgroup)

/-- Executes the step shard by shard. Amplitudes outside all shards are kept. -/
def executeSharded (lane : Lane R) (job : Job R) : Lane R :=
  let (block, sums) := runShards job lane.shot lane.block (List.range job.layout.workgroups)
  let owned := job.layout.workgroups * job.layout.entriesPerWorkgroup
  let rest := lane.block.extract owned lane.block.size
  { lane with
    block := block ++ rest
    sums := sums.toArray
    log := (shardReports job lane.shot lane.block).foldl ReportLog.push lane.log }

/-- Executes the step, shard by shard if it fits. -/
def execute (lane : Lane R) (job : Job R) : Lane R :=
  if fitsShard job lane.shot then lane.executeSharded job else lane.executeWhole job

def step (lane : Lane R) (job : Job R) (shotIdx : Nat) : Lane R :=
  (lane.prepare job shotIdx).execute job

end Lane

end ShotSim
