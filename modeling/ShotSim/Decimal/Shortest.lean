/-!
# Shortest decimal digits

A binary floating point number stands for every real that rounds to it. `shortest` finds the fewest
decimal digits that name such a real, and among those the nearest to the number itself, in exact
arithmetic.

A positive number is given as `mantissa * 2 ^ exponent`, a decimal as `digits * 10 ^ exponent`.
-/

namespace ShotSim

namespace Decimal

/-- A positive decimal number `digits * 10 ^ exponent`. -/
structure Digits where
  digits : Nat
  exponent : Int
  deriving DecidableEq, Repr

/-- Rounding of a number half way between two decimals. -/
inductive Tie
  | up
  | even
  deriving DecidableEq, Repr

/-- A binary number `mantissa * 2 ^ exponent`. `narrowBelow` marks that its lower neighbour is
nearer than the upper one, as at a power of two. -/
structure Binary where
  mantissa : Nat
  exponent : Int
  narrowBelow : Bool
  deriving DecidableEq, Repr

structure Ratio where
  num : Nat
  den : Nat
  deriving DecidableEq, Repr

namespace Ratio

def ofBinary (n : Nat) (e : Int) : Ratio :=
  if 0 ≤ e then ⟨n * Nat.pow 2 e.toNat, 1⟩ else ⟨n, Nat.pow 2 (-e).toNat⟩

def ofDecimal (n : Nat) (e : Int) : Ratio :=
  if 0 ≤ e then ⟨n * Nat.pow 10 e.toNat, 1⟩ else ⟨n, Nat.pow 10 (-e).toNat⟩

def shift (x : Ratio) (e : Int) : Ratio :=
  if 0 ≤ e then ⟨x.num * Nat.pow 10 e.toNat, x.den⟩ else ⟨x.num, x.den * Nat.pow 10 (-e).toNat⟩

def lt (x y : Ratio) : Bool := decide (x.num * y.den < y.num * x.den)

def le (x y : Ratio) : Bool := decide (x.num * y.den ≤ y.num * x.den)

def round (x : Ratio) (tie : Tie) : Nat :=
  let q := x.num / x.den
  let r := x.num % x.den
  if 2 * r < x.den then q
  else if x.den < 2 * r then q + 1
  else match tie with
    | .up => q + 1
    | .even => if q % 2 = 0 then q else q + 1

end Ratio

namespace Binary

def value (b : Binary) : Ratio := .ofBinary b.mantissa b.exponent

/-- The least real that rounds to the number. -/
def lower (b : Binary) : Ratio :=
  if b.narrowBelow then .ofBinary (4 * b.mantissa - 1) (b.exponent - 2)
  else .ofBinary (2 * b.mantissa - 1) (b.exponent - 1)

/-- The greatest real that rounds to the number. -/
def upper (b : Binary) : Ratio := .ofBinary (2 * b.mantissa + 1) (b.exponent - 1)

/-- Whether a real rounds to the number. The end points do if the mantissa is even. -/
def rounds (b : Binary) (x : Ratio) : Bool :=
  if b.mantissa % 2 = 0 then b.lower.le x && x.le b.upper else b.lower.lt x && x.lt b.upper

end Binary

/-- The greatest `e` between `lo` and `lo + fuel` with `10 ^ e ≤ x`, or `lo`. -/
def magnitudeFrom (x : Ratio) (lo : Int) : Nat → Int
  | 0 => lo
  | fuel + 1 =>
    let e := lo + (fuel + 1)
    if (Ratio.ofDecimal 1 e).le x then e else magnitudeFrom x lo fuel

def magnitude (x : Ratio) : Int := magnitudeFrom x (-400) 800

/-- The decimal with `count` digits that rounds to the number, if any; the nearest if there are
several. -/
def candidate (b : Binary) (tie : Tie) (top : Int) (count : Nat) : Option Digits :=
  let e := top - count + 1
  let scaled := b.value.shift (-e)
  let nearest := scaled.round tie
  let down := scaled.num / scaled.den
  ([nearest, down, down + 1].find? fun n => 0 < n && b.rounds (.ofDecimal n e)).map (⟨·, e⟩)

/-- The first candidate with `count`, `count + 1`, … digits. -/
def shortestFrom (b : Binary) (tie : Tie) (top : Int) : Nat → Nat → Digits
  | 0, _ => ⟨b.value.num / b.value.den, 0⟩
  | fuel + 1, count =>
    match candidate b tie top count with
    | some d => d
    | none => shortestFrom b tie top fuel (count + 1)

def trim : Nat → Digits → Digits
  | 0, d => d
  | fuel + 1, d =>
    if d.digits ≠ 0 ∧ d.digits % 10 = 0 then trim fuel ⟨d.digits / 10, d.exponent + 1⟩ else d

/-- The shortest decimal that rounds to the number. -/
def shortest (b : Binary) (tie : Tie) : Digits :=
  trim 20 (shortestFrom b tie (magnitude b.value) 20 1)

end Decimal

end ShotSim
