import ShotSim.Decimal.Shortest

/-!
# Text of numbers

Floating point numbers as decimal text: in full for messages, and with an exponent at the far ends
of the range for data. `fixed` gives a fixed number of places.
-/

namespace ShotSim

namespace Decimal

/-- Classification of a floating point bit pattern. -/
inductive Parts
  | nan
  | infinite (negative : Bool)
  | zero (negative : Bool)
  | finite (negative : Bool) (value : Binary)
  deriving DecidableEq, Repr

/-- Decodes bits with `fraction` fraction bits and `width` exponent bits. -/
def Parts.ofBits (bits fraction width : Nat) : Parts :=
  let negative := bits.testBit (fraction + width)
  let e := bits / Nat.pow 2 fraction % Nat.pow 2 width
  let f := bits % Nat.pow 2 fraction
  let bias : Int := Nat.pow 2 (width - 1) - 1
  if e = Nat.pow 2 width - 1 then if f = 0 then infinite negative else nan
  else if e = 0 then
    if f = 0 then zero negative else finite negative ⟨f, 1 - bias - fraction, false⟩
  else finite negative ⟨Nat.pow 2 fraction + f, e - bias - fraction, f = 0 && decide (1 < e)⟩

def Parts.ofSingle (x : Float32) : Parts := .ofBits x.toBits.toNat 23 8

def Parts.ofDouble (x : Float) : Parts := .ofBits x.toBits.toNat 52 11

def zeros (count : Nat) : String := String.ofList (List.replicate count '0')

def sign (negative : Bool) : String := if negative then "-" else ""

/-- Positional notation, without exponent. -/
def Digits.positional (d : Digits) : String :=
  let text := toString d.digits
  if 0 ≤ d.exponent then text ++ zeros d.exponent.toNat
  else
    let places := (-d.exponent).toNat
    let chars := text.toList
    if places < chars.length then
      String.ofList (chars.take (chars.length - places)) ++ "." ++
        String.ofList (chars.drop (chars.length - places))
    else "0." ++ zeros (places - chars.length) ++ text

def Digits.leading (d : Digits) : Int := d.exponent + (toString d.digits).length - 1

/-- Scientific notation with one leading digit and a signed exponent. -/
def Digits.scientific (d : Digits) : String :=
  let e := d.leading
  let exponent := if 0 ≤ e then "e+" ++ toString e.toNat else "e-" ++ toString (-e).toNat
  match (toString d.digits).toList with
  | [] => ""
  | [c] => String.ofList [c] ++ exponent
  | c :: rest => String.ofList (c :: '.' :: rest) ++ exponent

/-- Message format: the shortest digits in positional notation, ties up. -/
def messageText (x : Float32) : String :=
  match Parts.ofSingle x with
  | .nan => "NaN"
  | .infinite negative => sign negative ++ "inf"
  | .zero negative => sign negative ++ "0"
  | .finite negative b => sign negative ++ (shortest b .up).positional

def plainExponent (e : Int) : Bool := decide (-6 ≤ e) && decide (e ≤ 12)

/-- Data format: the shortest digits with a point or an exponent, ties to even. NaN is `null`. -/
def dataText (x : Float32) : String :=
  match Parts.ofSingle x with
  | .nan | .infinite _ => "null"
  | .zero negative => sign negative ++ "0.0"
  | .finite negative b =>
    let d := shortest b .even
    sign negative ++
      if plainExponent d.leading then
        if 0 ≤ d.exponent then d.positional ++ ".0" else d.positional
      else d.scientific

/-- Fixed notation with `places` decimals, ties to even. -/
def fixed (x : Float) (places : Nat) : String :=
  let render (negative : Bool) (n : Nat) : String :=
    let text := toString n
    let text := zeros (places + 1 - text.length) ++ text
    let chars := text.toList
    sign negative ++ String.ofList (chars.take (chars.length - places)) ++
      (if places = 0 then "" else "." ++ String.ofList (chars.drop (chars.length - places)))
  match Parts.ofDouble x with
  | .nan => "NaN"
  | .infinite negative => sign negative ++ "inf"
  | .zero negative => render negative 0
  | .finite negative b => render negative ((b.value.shift places).round .even)

end Decimal

end ShotSim
