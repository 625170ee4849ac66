import ShotSim.Decimal.Text
import ShotSim.Idle.Model
import ShotSim.Noise.Model

/-!
# Errors

Why a run is refused, and the text that says so.
-/

namespace ShotSim

def maxBufferSize : Nat := 1073741824

def maxWorkgroups : Nat := 65535

inductive BufferKind
  | stateVector
  | results
  deriving DecidableEq, Repr

inductive ConfigError
  | noResultSlots
  | qubitsPerWorkgroup (actual : Nat)
  | workgroups (actual : Nat)
  deriving DecidableEq, Repr

inductive NoiseError (R : Type)
  | model (cause : ModelError R)
  | idle (cause : IdleError R)

/-- Reasons for rejecting a run. -/
inductive SimError (R : Type)
  | qubitCount (actual : Nat)
  | noShots
  | emptyProgram
  | programTooLarge (ops : Nat)
  | qubitOutOfRange (op qubit qubitCount : Nat)
  | duplicateQubit (op qubit : Nat)
  | resultOutOfRange (op slot resultCount : Nat)
  | threshold (actual : R)
  | noise (cause : NoiseError R)
  | config (cause : ConfigError)
  | bufferTooLarge (kind : BufferKind) (size : Nat)
  | noAdapter

/-- Failures of functions on unvalidated input. -/
inductive Failure (R : Type)
  | refused (cause : SimError R)
  | fault (cause : Fault)

/-!
## Texts
-/

namespace TableError

def message : TableError Float32 → String
  | lengths strings probabilities => s!"{strings} pauli strings but {probabilities} probabilities"
  | pauliString text => s!"invalid pauli string `{text}`"
  | probability p => "probability " ++ Decimal.messageText p ++ " is not in [0, 1]"
  | total sum => "probabilities add up to " ++ Decimal.messageText sum ++ ", more than 1"
  | loss p => "loss probability " ++ Decimal.messageText p ++ " is not in [0, 1]"

end TableError

namespace ModelError

def message : ModelError Float32 → String
  | arity site actual =>
    s!"table `{site.name}` is for {actual} qubits, expected {site.qubits}"
  | table site cause => s!"table `{site.name}`: " ++ cause.message

end ModelError

namespace IdleError

def message : IdleError Float32 → String
  | t1 value => "t1 must be positive, got " ++ Decimal.messageText value
  | t2 value => "t2 must be positive, got " ++ Decimal.messageText value
  | t2TooLong long short =>
    "t2 (" ++ Decimal.messageText long ++ ") cannot exceed 2 * t1 (" ++
      Decimal.messageText short ++ ")"
  | dueFraction value => "due fraction must be in (0, 1], got " ++ Decimal.messageText value
  | duration value =>
    "op durations must be finite and non-negative, got " ++ Decimal.messageText value

end IdleError

namespace NoiseError

def message : NoiseError Float32 → String
  | model cause => cause.message
  | idle cause => cause.message

end NoiseError

namespace ConfigError

def message : ConfigError → String
  | noResultSlots => "results_per_shot must be at least 1"
  | qubitsPerWorkgroup actual =>
    s!"max_qubits_per_workgroup must be in {minQubitsPerWorkgroup}..={maxQubitsPerWorkgroup}, " ++
      s!"got {actual}"
  | workgroups actual =>
    s!"{actual} workgroups per shot exceed the dispatch limit of {maxWorkgroups}"

end ConfigError

namespace BufferKind

def name : BufferKind → String
  | stateVector => "state vector"
  | results => "results"

end BufferKind

namespace SimError

def message : SimError Float32 → String
  | qubitCount actual =>
    s!"qubit count {actual} is outside the supported range 1..={maxQubitCount}"
  | noShots => "shot count must be at least 1"
  | emptyProgram => "no program has been set"
  | programTooLarge ops => s!"program has {ops} ops, which does not fit in a single ops buffer"
  | qubitOutOfRange op qubit available =>
    s!"op {op} addresses qubit {qubit} but the circuit only has {available} qubits"
  | duplicateQubit op qubit => s!"op {op} uses qubit {qubit} more than once"
  | resultOutOfRange op slot available =>
    s!"op {op} writes result {slot} but only {available} results are allocated"
  | threshold actual =>
    "result threshold " ++ Decimal.messageText actual ++ " must be finite and in the range [0, 1)"
  | noise cause => "invalid noise parameters: " ++ cause.message
  | config cause => "invalid run configuration: " ++ cause.message
  | bufferTooLarge kind size =>
    s!"{kind.name} needs {size} bytes, over the {maxBufferSize} byte buffer limit"
  | noAdapter => "GPU device error: No suitable GPU adapter found"

end SimError

end ShotSim
