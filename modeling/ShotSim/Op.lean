import ShotSim.Cplx
import ShotSim.Opcode

/-!
# Operations

One entry of a program: an opcode, up to three operand qubits, an angle and a table of coefficients.
What the operands and the table mean depends on the opcode: measurements keep their result slot in
the second operand, and noise operations keep probabilities in the real parts of the table.
-/

namespace ShotSim

/-- The operand of a reset that denotes all qubits. -/
def allQubits : Nat := 4294967295

/-- One operation of a program. -/
structure Op (R : Type) where
  code : Opcode
  q1 : Nat
  q2 : Nat
  q3 : Nat
  angle : R
  coeffs : Coeffs R
  deriving DecidableEq

namespace Op

variable {R : Type}

def qubits (op : Op R) : List Nat := [op.q1, op.q2, op.q3].take op.code.arity

def isResetAll (op : Op R) : Bool := op.code = .reset && op.q1 = allQubits

def map {S : Type} (f : R → S) (op : Op R) : Op S :=
  ⟨op.code, op.q1, op.q2, op.q3, f op.angle, op.coeffs.map (Cplx.map f)⟩

variable [GateConstants R]

/-- The operation on the given operands without angle and coefficients. -/
def bare (code : Opcode) (q1 q2 q3 : Nat) : Op R := ⟨code, q1, q2, q3, 0, Coeffs.zero⟩

instance : Inhabited (Op R) := ⟨bare .id 0 0 0⟩

/-!
## Gates
-/

def gate1 (code : Opcode) (q : Nat) (entries : List (Cplx R)) : Op R :=
  { bare code q 0 0 with coeffs := Coeffs.ofList entries }

/-- A diagonal one-qubit gate. -/
def phase1 (code : Opcode) (q : Nat) (zero one : Cplx R) : Op R :=
  { bare code q 0 0 with coeffs := Coeffs.diagonal [zero, one] }

def identity (q : Nat) : Op R := phase1 .id q 1 1

def move (q : Nat) : Op R := phase1 .move q 1 1

def x (q : Nat) : Op R := gate1 .x q [0, 1, 1, 0]

def y (q : Nat) : Op R := gate1 .y q [0, Cplx.ofImag (-1), Cplx.ofImag 1, 0]

def z (q : Nat) : Op R := phase1 .z q 1 (Cplx.ofReal (-1))

def h (q : Nat) : Op R :=
  let r : R := GateConstants.invSqrtTwo
  gate1 .h q [.ofReal r, .ofReal r, .ofReal r, .ofReal (-r)]

def s (q : Nat) : Op R := phase1 .s q 1 (Cplx.ofImag 1)

def sAdj (q : Nat) : Op R := phase1 .sAdj q 1 (Cplx.ofImag (-1))

def t (q : Nat) : Op R := phase1 .t q 1 ⟨GateConstants.invSqrtTwo, GateConstants.invSqrtTwo⟩

def tAdj (q : Nat) : Op R := phase1 .tAdj q 1 ⟨GateConstants.invSqrtTwo, -GateConstants.invSqrtTwo⟩

def sx (q : Nat) : Op R :=
  let r : R := GateConstants.half
  gate1 .sx q [⟨r, r⟩, ⟨r, -r⟩, ⟨r, -r⟩, ⟨r, r⟩]

def sxAdj (q : Nat) : Op R :=
  let r : R := GateConstants.half
  gate1 .sxAdj q [⟨r, -r⟩, ⟨r, r⟩, ⟨r, r⟩, ⟨r, -r⟩]

/-- A rotation; its matrix is computed from the angle when it is applied. -/
def rotation (code : Opcode) (angle : R) (q1 q2 : Nat) : Op R :=
  { bare code q1 q2 0 with angle := angle }

def rx (angle : R) (q : Nat) : Op R := rotation .rx angle q 0

def ry (angle : R) (q : Nat) : Op R := rotation .ry angle q 0

def rz (angle : R) (q : Nat) : Op R := rotation .rz angle q 0

def rxx (angle : R) (q1 q2 : Nat) : Op R := rotation .rxx angle q1 q2

def ryy (angle : R) (q1 q2 : Nat) : Op R := rotation .ryy angle q1 q2

def rzz (angle : R) (q1 q2 : Nat) : Op R := rotation .rzz angle q1 q2

def cx (control target : Nat) : Op R :=
  { bare .cx control target 0 with
    coeffs := Coeffs.permutation 4 fun i => if i = 2 then 3 else if i = 3 then 2 else i }

def cz (control target : Nat) : Op R :=
  { bare .cz control target 0 with coeffs := Coeffs.diagonal [1, 1, 1, .ofReal (-1)] }

def swap (q1 q2 : Nat) : Op R :=
  { bare .swap q1 q2 0 with
    coeffs := Coeffs.permutation 4 fun i => if i = 1 then 2 else if i = 2 then 1 else i }

def ccx (control1 control2 target : Nat) : Op R :=
  { bare .ccx control1 control2 target with
    coeffs := Coeffs.permutation 8 fun i => if i = 6 then 7 else if i = 7 then 6 else i }

def matrix (q : Nat) (entries : List (Cplx R)) : Op R := gate1 .matrix q (entries.take 4)

def matrix2 (q1 q2 : Nat) (entries : List (Cplx R)) : Op R :=
  { bare .matrix2 q1 q2 0 with coeffs := Coeffs.ofList (entries.take 16) }

def matrix3 (q1 q2 q3 : Nat) (entries : List (Cplx R)) : Op R :=
  { bare .matrix3 q1 q2 q3 with coeffs := Coeffs.ofList entries }

/-!
## Resets, measurements, timing and noise
-/

/-- Reset of all qubits, which restarts the shot. -/
def resetAll : Op R := bare .reset allQubits 0 0

def reset (q : Nat) : Op R := bare .reset q 0 0

/-- Measures `q` into result slot `slot`. -/
def mz (q slot : Nat) : Op R := bare .mz q slot 0

def mResetZ (q slot : Nat) : Op R := bare .mResetZ q slot 0

/-- Reports the probabilities of all basis states. -/
def mEveryZ : Op R := bare .mEveryZ 0 0 0

/-- Denotes the operator that a shot builds for itself; not allowed in programs. -/
def injected (q1 q2 q3 : Nat) : Op R := bare .injected q1 q2 q3

def parallelStart : Op R := bare .parallelStart 0 0 0

def parallelEnd : Op R := bare .parallelEnd 0 0 0

def pauli1 (q : Nat) (px py pz : R) : Op R :=
  gate1 .pauli1 q [0, .ofReal px, .ofReal py, .ofReal pz]

/-- Pauli noise on two qubits. Entry `4 * p1 + p2` is the probability of Pauli `p1` on `q1` and `p2`
on `q2`; entry 0 is unused. -/
def pauli2 (q1 q2 : Nat) (probabilities : List R) : Op R :=
  { bare .pauli2 q1 q2 0 with
    coeffs := Coeffs.ofList (0 :: ((probabilities.take 16).drop 1).map Cplx.ofReal) }

def loss (q : Nat) (p : R) : Op R := gate1 .loss q [.ofReal p]

end Op

end ShotSim
