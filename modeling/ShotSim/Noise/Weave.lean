import ShotSim.Noise.Model
import ShotSim.Op

/-!
# Noise in the stream

Before a program runs, noise operations and points at which idle decay can act are woven into it.
Every operation of the woven stream remembers which operation of the program it came from.
-/

namespace ShotSim

/-- An operation of the woven stream and the index of the operation it came from. -/
structure Strand (R : Type) where
  op : Op R
  origin : Nat

namespace NoiseModel

variable {R : Type} [Scalar R]

def tableFor? (m : NoiseModel R) (op : Op R) : Option (NoiseTable R) :=
  (NoiseSite.ofCode? op.code).bind fun site =>
    let t := m.table site
    if t.isNoiseless then none else some t

/-- The Pauli noise of a table as an operation on the operands of `op`. -/
def pauliOp (op : Op R) (t : NoiseTable R) : Op R :=
  let p := t.probabilityTable
  if t.qubits = 1 then .pauli1 op.q1 (p.getD 1 0) (p.getD 2 0) (p.getD 3 0)
  else .pauli2 op.q1 op.q2 p

/-- The loss operations of a table. A two-qubit operation loses each operand independently. -/
def lossOps (op : Op R) (t : NoiseTable R) : List (Op R) :=
  if Scalar.lt 0 t.loss then
    if op.code.arity = 2 then
      [.identity op.q1, .loss op.q1 t.loss, .identity op.q2, .loss op.q2 t.loss]
    else [.loss op.q1 t.loss]
  else []

/-- The noise operations of `op`, if its table is not noiseless. -/
def noiseOps? (m : NoiseModel R) (op : Op R) : Option (List (Op R)) :=
  (m.tableFor? op).map fun t =>
    (if t.hasPauliNoise then [pauliOp op t] else []) ++ lossOps op t

/-- The fault raised by the noise of an operation under an unvalidated model. -/
def fault? (m : NoiseModel R) (op : Op R) : Option Fault :=
  (m.tableFor? op).bind fun t =>
    if t.hasPauliNoise then t.overflow?.map (.indexOutOfBounds pauliCodes) else none

def noiseOpsChecked (m : NoiseModel R) (op : Op R) : Except Fault (Option (List (Op R))) :=
  match m.fault? op with
  | some fault => .error fault
  | none => .ok (m.noiseOps? op)

end NoiseModel

section Weave

variable {R : Type} [Scalar R]

/-- An operation with its noise: behind a gate, or before a measurement on an identity. -/
def withNoise (noise : Option (NoiseModel R)) (op : Op R) : List (Op R) :=
  let added := (noise.bind (·.noiseOps? op)).getD []
  let moved := if op.code = .move then { op with code := .id } else op
  if op.code.isMeasurement && !added.isEmpty then .identity op.q1 :: added ++ [op]
  else moved :: added

/-- Identities before an operation at which the decay of its qubits is injected. -/
def decayPoints (qubitCount : Nat) (op : Op R) (noisy : Bool) : List (Op R) :=
  if 1 < op.code.arity then op.qubits.map .identity
  else if op.code.isMeasurement && !noisy then [.identity op.q1]
  else if op.code = .mEveryZ then (List.range qubitCount).map .identity
  else []

/-- The expansion of an operation. An identity without noise and idle decay is dropped. -/
def weaveOp (noise : Option (NoiseModel R)) (idle : Bool) (qubitCount : Nat) (op : Op R) :
    List (Op R) :=
  let body := withNoise noise op
  if idle then decayPoints qubitCount op (1 < body.length) ++ body
  else if body.length = 1 && body.all (·.code = .id) then []
  else body

def weaveFrom (noise : Option (NoiseModel R)) (idle : Bool) (qubitCount : Nat) :
    List (Op R) → Nat → List (Strand R)
  | [], _ => []
  | op :: rest, start =>
    (weaveOp noise idle qubitCount op).map (⟨·, start⟩) ++
      weaveFrom noise idle qubitCount rest (start + 1)

def weave (program : List (Op R)) (noise : Option (NoiseModel R)) (idle : Bool) (qubitCount : Nat) :
    List (Strand R) :=
  weaveFrom noise idle qubitCount program 0

def weaveChecked (program : List (Op R)) (noise : Option (NoiseModel R)) (idle : Bool)
    (qubitCount : Nat) : Except Fault (List (Strand R)) :=
  match program.findSome? fun op => noise.bind (·.fault? op) with
  | some fault => .error fault
  | none => .ok (weave program noise idle qubitCount)

end Weave

end ShotSim
