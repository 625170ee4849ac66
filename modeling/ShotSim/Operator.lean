import ShotSim.Op

/-!
# Operators

The linear maps that gates apply to a group of amplitudes. A group of `k` operands has `2 ^ k`
members, the first operand being the most significant bit of the local index.

Gates that only move or only multiply amplitudes have shapes of their own, so that they touch no
coefficient that they do not need.
-/

namespace ShotSim

inductive Shape
  /-- Exchanges two members. -/
  | swap (a b : Nat)
  /-- Multiplies each member by its diagonal entry. -/
  | diagonal
  /-- Multiplies by the whole matrix. -/
  | dense
  deriving DecidableEq, Repr

/-- An operator on groups of `dim` members, with coefficients row by row. -/
structure Operator (R : Type) where
  dim : Nat
  shape : Shape
  coeffs : Coeffs R

namespace Operator

variable {R : Type} [Scalar R]

/-- Row `row` of the matrix times the group: summed from zero, by rising column. -/
def row (op : Operator R) (amps : List (Cplx R)) (row : Nat) : Cplx R :=
  amps.zipIdx.foldl (fun acc (a, col) => acc + op.coeffs.get (row * op.dim + col) * a) 0

def apply (op : Operator R) (amps : List (Cplx R)) : List (Cplx R) :=
  match op.shape with
  | .swap a b =>
    amps.mapIdx fun i amp =>
      if i = a then amps.getD b amp else if i = b then amps.getD a amp else amp
  | .diagonal => amps.mapIdx fun i amp => amp * op.coeffs.get (i * op.dim + i)
  | .dense => amps.mapIdx fun i _ => op.row amps i

end Operator

/-!
## Rotations
-/

section Rotations

variable {R : Type} [Scalar R]

/-- Rx, Ry or, for every other opcode, Rz by `angle`. -/
def rotation1 (code : Opcode) (angle : R) : List (Cplx R) :=
  let s := Scalar.sin (angle / Scalar.two)
  let c := Scalar.cos (angle / Scalar.two)
  match code with
  | .rx => [.ofReal c, .ofImag (-s), .ofImag (-s), .ofReal c]
  | .ry => [.ofReal c, .ofReal (-s), .ofReal s, .ofReal c]
  | _ => [⟨c, -s⟩, 0, 0, ⟨c, s⟩]

/-- Rxx, Ryy or, for every other opcode, Rzz by `angle`. -/
def rotation2 (code : Opcode) (angle : R) : List (Cplx R) :=
  let s := Scalar.sin (angle / Scalar.two)
  let c := Scalar.cos (angle / Scalar.two)
  match code with
  | .rxx =>
    [.ofReal c, 0, 0, .ofImag (-s),
     0, .ofReal c, .ofImag (-s), 0,
     0, .ofImag (-s), .ofReal c, 0,
     .ofImag (-s), 0, 0, .ofReal c]
  | .ryy =>
    [.ofReal c, 0, 0, .ofImag s,
     0, .ofReal c, .ofImag (-s), 0,
     0, .ofImag (-s), .ofReal c, 0,
     .ofImag s, 0, 0, .ofReal c]
  | _ =>
    [⟨c, -s⟩, 0, 0, 0,
     0, ⟨c, s⟩, 0, 0,
     0, 0, ⟨c, s⟩, 0,
     0, 0, 0, ⟨c, -s⟩]

end Rotations

namespace Operator

variable {R : Type} [Scalar R]

/-- The operator of a gate for its selected opcode. Opcodes without a shape of their own apply the
coefficients as a one-qubit matrix. -/
def ofGate (code : Opcode) (op : Op R) : Operator R :=
  match code with
  | .x => ⟨2, .swap 0 1, Coeffs.zero⟩
  | .z | .s | .sAdj | .t | .tAdj => ⟨2, .diagonal, op.coeffs⟩
  | .rz => ⟨2, .diagonal, Coeffs.ofList (rotation1 code op.angle)⟩
  | .rx | .ry => ⟨2, .dense, Coeffs.ofList (rotation1 code op.angle)⟩
  | .cx => ⟨4, .swap 2 3, Coeffs.zero⟩
  | .swap => ⟨4, .swap 1 2, Coeffs.zero⟩
  | .cz => ⟨4, .diagonal, op.coeffs⟩
  | .rzz => ⟨4, .diagonal, Coeffs.ofList (rotation2 code op.angle)⟩
  | .rxx | .ryy => ⟨4, .dense, Coeffs.ofList (rotation2 code op.angle)⟩
  | .matrix2 => ⟨4, .dense, op.coeffs⟩
  | .ccx => ⟨8, .swap 6 7, Coeffs.zero⟩
  | .matrix3 => ⟨8, .dense, op.coeffs⟩
  | _ => ⟨2, .dense, op.coeffs⟩

end Operator

end ShotSim
