import ShotSim.Machine
import ShotSim.Noise.Weave

/-!
# Results

What a run reports: for each shot how it ended, the basis states it saw, its measurements and its
times; and for the run as a whole the mean probability of each basis state.
-/

namespace ShotSim

/-- The final status of a shot. -/
inductive ShotStatus
  | ok
  /-- Operation `op` of the program has an opcode that cannot be carried out. -/
  | unsupportedOperation (op : Nat) (opcode : UInt32)
  /-- Operation `op` of the program addresses a qubit that it must not. -/
  | invalidQubit (op : Nat)
  deriving DecidableEq, Repr

namespace ShotStatus

/-- Decodes a status word and its operation. `opcodes` are those of the executed stream and
`origins` the program operations they come from; an origin counts if it fits a word. -/
def decode (code : StatusCode) (statusOp : Nat) (opcodes : List UInt32) (origins : List Nat) :
    ShotStatus :=
  let op := match origins[statusOp]? with
    | some origin => if origin < UInt32.size then origin else statusOp
    | none => statusOp
  match code with
  | .ok => ok
  | .unsupportedOp => unsupportedOperation op (opcodes[statusOp]?.getD 0xffffffff)
  | .invalidQubit | .other _ => invalidQubit op

def isOk : ShotStatus → Bool
  | ok => true
  | _ => false

def name : ShotStatus → String
  | ok => "ok"
  | unsupportedOperation _ _ => "unsupported_operation"
  | invalidQubit _ => "invalid_qubit"

def logText : ShotStatus → String
  | ok => "Ok"
  | unsupportedOperation op opcode =>
    "UnsupportedOperation \x7b op_idx: " ++ toString op ++ ", opcode: " ++
      toString opcode.toNat ++ " \x7d"
  | invalidQubit op => "InvalidQubit \x7b op_idx: " ++ toString op ++ " \x7d"

end ShotStatus

structure ShotResult (R : Type) where
  id : UInt32
  status : ShotStatus
  /-- Reported basis states, by rising index. -/
  records : List (Record R)
  /-- Reports that found no room. -/
  dropped : Nat
  measurements : List Outcome
  elapsed : R
  /-- Busy time of each qubit of the circuit. -/
  heat : List R

structure RunResults (R : Type) where
  shots : List (ShotResult R)
  /-- Amplitudes of the circuit's qubits, if they were asked for. -/
  states : Option (List (Array (Cplx R)))
  success : Bool
  device : String

/-- The executed stream: a restart, the woven program and a final report. -/
abbrev Stream (R : Type) := List (Strand R)

namespace Stream

variable {R : Type} [Scalar R]

/-- The stream of a program. A final report is appended unless the program ends with one. -/
def build (program : List (Op R)) (noise : Option (NoiseModel R)) (idle : Bool) (qubits : Nat) :
    Stream R :=
  let body := ⟨.resetAll, 0⟩ :: weave program noise idle qubits
  let report :=
    if (body.getLast?.map (·.op.code)) = some .mEveryZ then []
    else (weave [.mEveryZ] none idle qubits).map fun strand =>
      { strand with origin := program.length - 1 }
  body ++ report

def ops (s : Stream R) : List (Op R) := s.map (·.op)

def opcodes (s : Stream R) : List UInt32 := s.map (·.op.code.toWord)

def origins (s : Stream R) : List Nat := s.map (·.origin)

end Stream

namespace RunResults

variable {R : Type} [Scalar R]

def shotResult (stream : Stream R) (qubits : Nat) (shot : Shot R) (log : ReportLog R)
    (slots : List Outcome) : ShotResult R where
  id := shot.id
  status := .decode shot.status shot.statusOp stream.opcodes stream.origins
  records := log.sorted
  dropped := log.dropped
  measurements := slots
  elapsed := shot.elapsed
  heat := (shot.qubits.toList.take qubits).map (·.heat)

def batchResults (stream : Stream R) (qubits : Nat) (out : BatchOutput R) : List (ShotResult R) :=
  (out.shots.zip (out.logs.zip out.slots)).map fun (shot, log, slots) =>
    shotResult stream qubits shot log slots

def collect (stream : Stream R) (plan : Plan) (capture : Bool) (device : String)
    (outs : List (BatchOutput R)) : RunResults R :=
  let shots := outs.flatMap (batchResults stream plan.circuitQubits)
  { shots := shots
    states :=
      if capture then
        some (outs.flatMap fun out =>
          (out.states.getD []).map fun block => block.extract 0 (Nat.pow 2 plan.circuitQubits))
      else none
    success := shots.all (·.status.isOk)
    device := device }

def failed (r : RunResults R) : List (ShotResult R) := r.shots.filter fun shot => !shot.status.isOk

def truncated (r : RunResults R) : List (ShotResult R) :=
  r.shots.filter fun shot => decide (0 < shot.dropped)

end RunResults

/-!
## Mean probabilities
-/

/-- Sums by key, keys rising. -/
abbrev Tally := List (Nat × Float)

namespace Tally

/-- Adds to the sum of a key; a new key starts from zero. -/
def add (key : Nat) (x : Float) : Tally → Tally
  | [] => [(key, 0 + x)]
  | (k, total) :: rest =>
    if key < k then (key, 0 + x) :: (k, total) :: rest
    else if key = k then (k, total + x) :: rest
    else (k, total) :: add key x rest

end Tally

namespace RunResults

/-- Mean probability of every reported basis state over the successful shots, by rising index. -/
def aggregate (r : RunResults Float32) : Tally :=
  let good := r.shots.filter (·.status.isOk)
  let tally := (good.flatMap (·.records)).foldl
    (fun tally record => Tally.add record.index record.probability.toFloat tally) []
  tally.map fun (key, total) => (key, total / Float.ofNat good.length)

end RunResults

end ShotSim
