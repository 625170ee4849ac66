import ShotSim.Backend
import ShotSim.Error
import ShotSim.Op

/-!
# Run configurations

Everything about a run but its program, and the checks that a configuration and a program have to
pass before anything is computed.
-/

namespace ShotSim

/-- Everything about a run except the program. -/
structure Config (R : Type) where
  qubits : Nat
  shots : Nat
  seed : UInt32
  /-- Basis states with a probability above this are reported. -/
  threshold : R
  /-- Reports that a shot has room for. -/
  resultsPerShot : Nat
  /-- Measurement slots of a shot. -/
  resultCount : Nat
  noise : Option (NoiseModel R)
  idle : Option (IdleModel R)
  qubitsPerWorkgroup : Nat
  /-- Whether amplitudes are returned. -/
  capture : Bool
  backend : Backend

namespace Config

variable {R : Type} [Scalar R]

def validate (c : Config R) : Except (SimError R) Unit := do
  if c.qubits = 0 || maxQubitCount < c.qubits then throw (.qubitCount c.qubits)
  if c.shots = 0 then throw .noShots
  if !Scalar.isFinite c.threshold || !(Scalar.le 0 c.threshold && Scalar.lt c.threshold 1) then
    throw (.threshold c.threshold)
  if c.resultsPerShot = 0 then throw (.config .noResultSlots)
  if c.qubitsPerWorkgroup < minQubitsPerWorkgroup ||
      maxQubitsPerWorkgroup < c.qubitsPerWorkgroup then
    throw (.config (.qubitsPerWorkgroup c.qubitsPerWorkgroup))
  if let some noise := c.noise then noise.validate.mapError fun e => .noise (.model e)
  if let some idle := c.idle then idle.validate.mapError fun e => .noise (.idle e)

/-- Checks the operands of operation `index` from left to right; `before` holds those already
seen. -/
def checkQubits (c : Config R) (index : Nat) : List Nat → List Nat → Except (SimError R) Unit
  | [], _ => pure ()
  | q :: rest, before => do
    if c.qubits ≤ q then throw (.qubitOutOfRange index q c.qubits)
    if before.contains q then throw (.duplicateQubit index q)
    checkQubits c index rest (before ++ [q])

/-- Checks one operation. Unknown opcodes are left for the shots to report. -/
def checkOp (c : Config R) (index : Nat) (op : Op R) : Except (SimError R) Unit := do
  if !op.code.isKnown || op.isResetAll then return
  c.checkQubits index op.qubits []
  if op.code.isMeasurement && decide (c.resultCount ≤ op.q2) then
    throw (.resultOutOfRange index op.q2 c.resultCount)

def checkOps (c : Config R) : List (Op R) → Nat → Except (SimError R) Unit
  | [], _ => pure ()
  | op :: rest, start => do
    c.checkOp start op
    checkOps c rest (start + 1)

def validateProgram (c : Config R) (program : List (Op R)) : Except (SimError R) Unit := do
  if program.isEmpty then throw .emptyProgram
  c.checkOps program 0

/-- The idle parameters of the shots; without idle noise all durations are zero. -/
def idleParams (c : Config R) : IdleParams R := (c.idle.map (·.params)).getD 0

def defaultThreshold : Float32 := 1e-6

def standard : Config Float32 where
  qubits := 1
  shots := 1
  seed := 0
  threshold := defaultThreshold
  resultsPerShot := 256
  resultCount := 0
  noise := none
  idle := none
  qubitsPerWorkgroup := maxQubitsPerWorkgroup
  capture := false
  backend := .auto

end Config

end ShotSim
