import ShotSim.Layout
import ShotSim.Op
import ShotSim.Rng

/-!
# Control blocks

What a shot keeps besides its amplitudes: its place in the program, its random stream, what it knows
of each qubit, its clock, and the step it has decided on.
-/

namespace ShotSim

inductive Outcome
  | zero
  | one
  /-- The measured qubit had been lost. -/
  | lost
  deriving DecidableEq, Repr, Inhabited

namespace Outcome

def toNat : Outcome → Nat
  | zero => 0
  | one => 1
  | lost => 2

def ofBit (bit : Bool) : Outcome := if bit then one else zero

end Outcome

/-- Status word of a shot. -/
inductive StatusCode
  | ok
  | unsupportedOp
  | invalidQubit
  /-- A word without a meaning of its own; it counts as a failure. -/
  | other (word : UInt32)
  deriving DecidableEq, Repr

namespace StatusCode

def toWord : StatusCode → UInt32
  | ok => 0
  | unsupportedOp => 1
  | invalidQubit => 2
  | other word => word

def ofWord (word : UInt32) : StatusCode :=
  if word = 0 then ok else if word = 1 then unsupportedOp else if word = 2 then invalidQubit
  else other word

end StatusCode

/-- Per-qubit state of a shot. -/
structure QubitState (R : Type) where
  /-- Probability of reading 0, up to normalization. -/
  zero : R
  /-- Probability of reading 1, up to normalization. -/
  one : R
  /-- Time spent in operations. -/
  heat : R
  /-- Time since decay was last applied. -/
  idle : R

structure Draws (R : Type) where
  pauli : R
  damping : R
  dephase : R
  measure : R
  loss : R

/-- The parallel region of a shot. -/
structure Region (R : Type) where
  active : Bool
  /-- Qubits addressed so far, as a mask. -/
  qubits : Nat
  /-- Longest operation so far. -/
  duration : R

/-- The control block of a shot. -/
structure Shot (R : Type) where
  id : UInt32
  /-- Operation that the next step prepares. -/
  nextOp : Nat
  /-- Operation that was prepared last. -/
  opIdx : Nat
  /-- What the prepared step does to the amplitudes. -/
  selected : Opcode
  /-- Operands of the operator in `scratch`. -/
  injectedArity : Nat
  /-- Operator that the shot built for itself. -/
  scratch : Coeffs R
  rng : Rng
  draws : Draws R
  /-- Factor that brings the amplitudes back to unit norm. -/
  renormalize : R
  status : StatusCode
  /-- Operation that the status speaks of. -/
  statusOp : Nat
  elapsed : R
  region : Region R
  /-- Lost qubits, as a mask. -/
  lost : Nat
  /-- Flag word for the collection of each qubit's probabilities. -/
  collect : UInt32
  qubits : Vector (QubitState R) maxQubitCount

section Zero

variable {R : Type} [Scalar R]

instance : Zero (QubitState R) := ⟨⟨0, 0, 0, 0⟩⟩

instance : Zero (Draws R) := ⟨⟨0, 0, 0, 0, 0⟩⟩

instance : Zero (Region R) := ⟨⟨false, 0, 0⟩⟩

instance : Zero (Shot R) where
  zero :=
    { id := 0, nextOp := 0, opIdx := 0, selected := .id, injectedArity := 0, scratch := Coeffs.zero
      rng := Rng.zero, draws := 0, renormalize := 0, status := .ok, statusOp := 0, elapsed := 0
      region := 0, lost := 0, collect := 0, qubits := Vector.replicate _ 0 }

end Zero

namespace Shot

variable {R : Type} [Scalar R]

def qubit (s : Shot R) (q : Nat) : QubitState R := s.qubits[q]?.getD 0

def setQubit (s : Shot R) (q : Nat) (state : QubitState R) : Shot R :=
  { s with qubits := s.qubits.setIfInBounds q state }

def mapQubits (s : Shot R) (count : Nat) (f : Nat → QubitState R → QubitState R) : Shot R :=
  { s with qubits := s.qubits.mapIdx fun q state => if q < count then f q state else state }

/-- Whether the step collects qubit probabilities: the flag word is not 0. -/
def collects (s : Shot R) : Bool := s.collect != 0

def isLost (s : Shot R) (q : Nat) : Bool := s.lost.testBit q

/-- Takes the five draws of a step. All five are taken in every step, so the position of the
generator depends on the number of steps only. -/
def draw (s : Shot R) : Shot R :=
  let g1 := s.rng.step
  let g2 := g1.step
  let g3 := g2.step
  let g4 := g3.step
  { s with
    rng := g4.step
    draws := ⟨s.rng.fraction, g1.fraction, g2.fraction, g3.fraction, g4.fraction⟩ }

/-- Selects the operator `entries` on `arity` operands. -/
def inject (s : Shot R) (arity : Nat) (entries : List (Cplx R)) : Shot R :=
  { s with scratch := s.scratch.overlay entries, injectedArity := arity, selected := .injected }

end Shot

end ShotSim
