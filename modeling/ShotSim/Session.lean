import ShotSim.Report

/-!
# Sessions

A session holds a configuration, a program and a machine, and runs the program any number of times.
The stream that a program becomes is kept between runs for as long as the session takes it to be
current.
-/

namespace ShotSim

inductive Level
  | info
  | debug
  | warn
  deriving DecidableEq, Repr

namespace Level

def name : Level → String
  | info => "INFO"
  | debug => "DEBUG"
  | warn => "WARN"

end Level

structure LogLine where
  level : Level
  text : String
  deriving DecidableEq, Repr

/-- Settings from the environment; both may be missing or malformed. -/
structure Environment where
  maxOpsPerDispatch : Option String
  backend : Option String
  deriving DecidableEq, Repr

namespace Environment

def empty : Environment := ⟨none, none⟩

def digits? (chars : List Char) : Option Nat :=
  if chars.isEmpty || !chars.all Char.isDigit then none
  else some (chars.foldl (fun n c => n * 10 + (c.toNat - 48)) 0)

/-- A decimal count below `2 ^ bits` with an optional plus sign. -/
def count? (text : String) (bits : Nat) : Option Nat :=
  let chars := match text.toList with
    | '+' :: rest => rest
    | chars => chars
  (digits? chars).filter (· < Nat.pow 2 bits)

/-- Steps between two submissions. -/
def stepsPerSubmission (env : Environment) : Nat :=
  ((env.maxOpsPerDispatch.bind (count? · 64)).filter (0 < ·)).getD 16

/-- The backend to use in place of the configured one. -/
def backendOr (env : Environment) (configured : Backend) : Backend :=
  (env.backend.bind Backend.ofName?).getD configured

end Environment

structure RunOutcome (R : Type) where
  result : Except (SimError R) (RunResults R)
  log : List LogLine

/-- Inputs of a run besides its session: settings, the GPU found by the adapter search, if any, and
the processor threads. The outcome of a GPU run is a parameter. -/
structure Host (R : Type) extends Environment where
  gpu : Option (Stream R → Plan → Config R → RunOutcome R) := none
  pool : Pool := {}

namespace Host

variable {R : Type}

def empty : Host R := { toEnvironment := .empty }

instance : Coe Environment (Host R) := ⟨fun env => { toEnvironment := env }⟩

/-- The backend of a run. A GPU is chosen implicitly only if one was found. -/
def resolve (host : Host R) (configured : Backend) : Backend :=
  match host.backendOr configured with
  | .auto => if host.gpu.isSome then .gpu else .cpu
  | backend => backend

def runOnGpu (host : Host R) (stream : Stream R) (plan : Plan) (config : Config R) : RunOutcome R :=
  match host.gpu with
  | none => ⟨.error .noAdapter, []⟩
  | some gpu => gpu stream plan config

end Host

structure Session (R : Type) where
  config : Config R
  program : List (Op R)
  /-- The stream of the last run, while it is taken to be current. -/
  stream : Option (Stream R)
  machine : Machine R

namespace Session

variable {R : Type} [Scalar R]

def new (config : Config R) : Session R := ⟨config, [], none, .fresh⟩

/-- Whether two configurations weave the same noise as far as the session compares: equal tables,
and idle noise in both or in neither. -/
def sameNoise (a b : Config R) : Bool :=
  (match a.noise, b.noise with
    | none, none => true
    | some m, some n => m.sameTables n
    | _, _ => false) &&
  a.idle.isSome == b.idle.isSome

/-- Replaces the configuration. The cached stream is kept if the noise is the same. -/
def setConfig (s : Session R) (config : Config R) : Session R :=
  { s with config := config, stream := if sameNoise config s.config then s.stream else none }

def setProgram (s : Session R) (program : List (Op R)) : Session R :=
  { s with program := program, stream := none }

def setNoise (s : Session R) (noise : NoiseModel R) : Session R :=
  { s with config := { s.config with noise := some noise }, stream := none }

def setIdle (s : Session R) (idle : IdleModel R) : Session R :=
  { s with config := { s.config with idle := some idle }, stream := none }

def buildStream (s : Session R) : Stream R :=
  .build s.program s.config.noise s.config.idle.isSome s.config.qubits

/-- Runs the batches of a plan in sequence. -/
def runBatches (config : Config R) (plan : Plan) :
    List (Nat × Nat) → Nat → Machine R → Machine R × List (BatchOutput R) × List LogLine
  | [], _, m => (m, [], [])
  | (first, shots) :: rest, index, m =>
    let m := m.beginBatch
      ⟨UInt32.ofNat first, config.seed, shots, plan.circuitQubits, config.threshold⟩
    let m := m.run plan.ops
    let line : LogLine := ⟨.debug, s!"batch {index}: shots {first}..{first + shots}"⟩
    let out := m.read config.capture
    let (m, outs, lines) := runBatches config plan rest (index + 1) m
    (m, out :: outs, line :: lines)

def openingLines (plan : Plan) (env : Environment) : List LogLine :=
  [⟨.info, s!"running {plan.shots} shots of {plan.ops} ops on {plan.circuitQubits} qubits in " ++
      s!"{plan.batches} batch(es) of up to {plan.shotsPerBatch} shots"⟩,
   ⟨.debug, s!"layout: {plan.layout.workgroups} workgroups per shot, " ++
      s!"{plan.layout.entriesPerThread} entries per thread, " ++
      s!"submitting every {env.stepsPerSubmission} steps"⟩]

def failureLines (r : RunResults R) : List LogLine :=
  match r.failed with
  | [] => []
  | first :: rest =>
    [⟨.warn, s!"{rest.length + 1} of {r.shots.length} shots failed; " ++
      s!"first failure in shot {first.id.toNat}: " ++ first.status.logText⟩]

def truncationLines (r : RunResults R) : List LogLine :=
  let truncated := r.truncated
  if truncated.isEmpty then []
  else
    let dropped := (truncated.map (·.dropped)).foldl (· + ·) 0
    [⟨.warn, s!"{truncated.length} shots exceeded their results capacity; " ++
      s!"{dropped} records were dropped"⟩]

def fallbackLine : LogLine := ⟨.info, "no suitable GPU adapter found, running on the CPU grid"⟩

def runStream (s : Session R) (stream : Stream R) (host : Host R) : Session R × RunOutcome R :=
  match Plan.make s.config stream.length with
  | .error e => (s, ⟨.error e, []⟩)
  | .ok plan =>
    let opening := openingLines plan host.toEnvironment
    if host.resolve s.config.backend = .gpu then
      let outcome := host.runOnGpu stream plan s.config
      (s, ⟨outcome.result, opening ++ outcome.log⟩)
    else
      let fallback := if host.backendOr s.config.backend = .auto then [fallbackLine] else []
      let m := { s.machine with pool := host.pool }
      let m := (m.load stream.ops s.config.idleParams).prepareRun plan
      let (m, outs, lines) := runBatches s.config plan plan.batchRanges 0 m
      let name := Machine.name host.pool
      let results := RunResults.collect stream plan s.config.capture name outs
      ({ s with machine := m },
       ⟨.ok results,
        opening ++ fallback ++ lines ++ [⟨.info, "ran on " ++ name⟩] ++
          failureLines results ++ truncationLines results⟩)

def run (s : Session R) (host : Host R) : Session R × RunOutcome R :=
  match s.config.validate, s.config.validateProgram s.program with
  | .error e, _ => (s, ⟨.error e, []⟩)
  | .ok _, .error e => (s, ⟨.error e, []⟩)
  | .ok _, .ok _ =>
    let stream := s.stream.getD s.buildStream
    { s with stream := some stream }.runStream stream host

inductive Command (R : Type)
  | setConfig (config : Config R)
  | setProgram (program : List (Op R))
  | setNoise (noise : NoiseModel R)
  | setIdle (idle : IdleModel R)
  | run

def perform (s : Session R) (host : Host R) : Command R → Session R × Option (RunOutcome R)
  | .setConfig config => (s.setConfig config, none)
  | .setProgram program => (s.setProgram program, none)
  | .setNoise noise => (s.setNoise noise, none)
  | .setIdle idle => (s.setIdle idle, none)
  | .run =>
    let (s, outcome) := s.run host
    (s, some outcome)

end Session

def runProgram {R : Type} [Scalar R] (program : List (Op R)) (config : Config R) (host : Host R) :
    RunOutcome R :=
  (((Session.new config).setProgram program).run host).2

end ShotSim
