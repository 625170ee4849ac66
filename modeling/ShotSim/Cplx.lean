import ShotSim.Scalar

/-!
# Complex numbers

Amplitudes and matrix entries: pairs of scalars with the textbook product.
-/

namespace ShotSim

structure Cplx (R : Type) where
  re : R
  im : R
  deriving DecidableEq, Repr

namespace Cplx

variable {R : Type}

def map {S : Type} (f : R → S) (a : Cplx R) : Cplx S := ⟨f a.re, f a.im⟩

section Constants

variable [GateConstants R]

instance : Zero (Cplx R) := ⟨⟨0, 0⟩⟩

instance : One (Cplx R) := ⟨⟨1, 0⟩⟩

instance : Inhabited (Cplx R) := ⟨0⟩

def ofReal (x : R) : Cplx R := ⟨x, 0⟩

def ofImag (y : R) : Cplx R := ⟨0, y⟩

end Constants

section Arithmetic

variable [Scalar R]

instance : Add (Cplx R) := ⟨fun a b => ⟨a.re + b.re, a.im + b.im⟩⟩

instance : Neg (Cplx R) := ⟨fun a => ⟨-a.re, -a.im⟩⟩

instance : Mul (Cplx R) :=
  ⟨fun a b => ⟨a.re * b.re - a.im * b.im, a.re * b.im + a.im * b.re⟩⟩

def scale (a : Cplx R) (r : R) : Cplx R := ⟨a.re * r, a.im * r⟩

def normSqr (a : Cplx R) : R := a.re * a.re + a.im * a.im

end Arithmetic

end Cplx

/-!
## Coefficient tables

Room for a dense operator on three qubits. Operators on one or two qubits use the first 4 or 16
places, row by row.
-/

def coeffCapacity : Nat := 64

/-- A table of complex coefficients, row by row. -/
abbrev Coeffs (R : Type) := Vector (Cplx R) coeffCapacity

namespace Coeffs

variable {R : Type} [GateConstants R]

def zero : Coeffs R := Vector.replicate _ 0

def get (m : Coeffs R) (i : Nat) : Cplx R := m[i]?.getD 0

/-- `entries` written over the first places of `m`. -/
def overlay (m : Coeffs R) (entries : List (Cplx R)) : Coeffs R :=
  Vector.ofFn fun i => entries[i.val]?.getD m[i]

def ofList (entries : List (Cplx R)) : Coeffs R := zero.overlay entries

def diagonal (entries : List (Cplx R)) : Coeffs R :=
  let dim := entries.length
  ofList ((List.range (dim * dim)).map fun i =>
    if i / dim = i % dim then entries.getD (i % dim) 0 else 0)

/-- The `dim × dim` permutation matrix that sends column `p row` to `row`. -/
def permutation (dim : Nat) (p : Nat → Nat) : Coeffs R :=
  ofList ((List.range (dim * dim)).map fun i => if p (i / dim) = i % dim then 1 else 0)

def dense (m : Coeffs R) (dim : Nat) : List (Cplx R) := (List.range (dim * dim)).map m.get

end Coeffs

end ShotSim
