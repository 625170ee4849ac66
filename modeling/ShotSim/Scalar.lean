/-!
# Scalars

The arithmetic that amplitudes, probabilities and times are carried out in.

Every definition of the simulator is stated over a type `R` with the operations of `Scalar R`, and
no law about them is assumed. `Float32` is the instance that runs; exact instances serve statements
about the algebra of the gates.
-/

namespace ShotSim

/-- The constants of the gate matrices, given without arithmetic. -/
class GateConstants (R : Type) extends Zero R, One R, Neg R where
  /-- One half. -/
  half : R
  /-- The amplitude `1/√2`. -/
  invSqrtTwo : R

/-- The operations, comparisons and constants required of scalars. -/
class Scalar (R : Type) extends GateConstants R, Add R, Sub R, Mul R, Div R, BEq R where
  /-- The number that a count stands for. -/
  ofNat : Nat → R
  /-- Drift from unit norm up to which a state is not rescaled. -/
  normTolerance : R
  /-- Slack by which a list of probabilities may exceed one. -/
  epsilon : R
  sqrt : R → R
  sin : R → R
  cos : R → R
  exp : R → R
  abs : R → R
  /-- Strictly below; false as soon as one side is not a number. -/
  lt : R → R → Bool
  /-- At most; false as soon as one side is not a number. -/
  le : R → R → Bool
  isFinite : R → Bool

namespace Scalar

variable {R : Type} [Scalar R]

def two : R := ofNat 2

/-- NaN: a value that is not at most itself. -/
def isNaN (x : R) : Bool := !le x x

/-- The larger of two values, ignoring NaN. -/
def max (a b : R) : R := if lt a b then b else if le a a then a else b

/-- The smaller of two values, ignoring NaN. -/
def min (a b : R) : R := if lt b a then b else if le a a then a else b

/-- `x` clamped to `[lo, hi]`; NaN is kept. -/
def clamp (x lo hi : R) : R := if lt x lo then lo else if lt hi x then hi else x

def within (x lo hi : R) : Bool := le lo x && le x hi

def sum (xs : List R) : R := xs.foldl (· + ·) 0

end Scalar

/-!
## Single precision

`sin`, `cos` and `exp` are the nearest single to the double precision value.
-/

instance : Scalar Float32 where
  zero := 0
  one := 1
  half := Float32.ofBits 0x3f000000
  invSqrtTwo := Float32.ofBits 0x3f3504f3
  ofNat := Float32.ofNat
  normTolerance := Float32.ofBits 0x3727c5ac
  epsilon := Float32.ofBits 0x34000000
  sqrt := Float32.sqrt
  sin x := x.toFloat.sin.toFloat32
  cos x := x.toFloat.cos.toFloat32
  exp x := x.toFloat.exp.toFloat32
  abs := Float32.abs
  lt a b := decide (a < b)
  le a b := decide (a ≤ b)
  isFinite := Float32.isFinite

end ShotSim
