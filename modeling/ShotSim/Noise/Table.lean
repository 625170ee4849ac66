import ShotSim.Fault
import ShotSim.Scalar

/-!
# Noise tables

The noise of one kind of operation: Pauli strings with their probabilities, which exclude one
another, and the probability that a qubit is lost.
-/

namespace ShotSim

inductive TableError (R : Type)
  | lengths (strings probabilities : Nat)
  | pauliString (text : String)
  | probability (p : R)
  | total (sum : R)
  | loss (p : R)

/-- Capacity of a probability table: the codes of two Paulis. -/
def pauliCodes : Nat := 16

/-- Noise of one kind of operation. -/
structure NoiseTable (R : Type) where
  /-- Qubits of the operation. -/
  qubits : Nat
  strings : List String
  probabilities : List R
  loss : R

def pauliDigit? (c : Char) : Option Nat :=
  match c.toUpper with
  | 'I' => some 0
  | 'X' => some 1
  | 'Y' => some 2
  | 'Z' => some 3
  | _ => none

def pauliLetter (digit : Nat) : Char :=
  match digit % 4 with
  | 0 => 'I'
  | 1 => 'X'
  | 2 => 'Y'
  | _ => 'Z'

/-- The letters of a Pauli string read as a number in base 4, first letter most significant. -/
def pauliFold : List Char → Nat → Option Nat
  | [], code => some code
  | c :: rest, code => (pauliDigit? c).bind fun digit => pauliFold rest (code * 4 + digit)

/-- The code of a Pauli string on `qubits` qubits, if it is one. -/
def pauliCode? (text : String) (qubits : Nat) : Option Nat :=
  if text.toList.length = qubits then pauliFold text.toList 0 else none

namespace NoiseTable

variable {R : Type} [Scalar R]

def noiseless (qubits : Nat) : NoiseTable R := ⟨qubits, [], [], 0⟩

def pauli (px py pz : R) : NoiseTable R := ⟨1, ["X", "Y", "Z"], [px, py, pz], 0⟩

/-- The Pauli strings that depolarizing noise draws from. -/
def depolarizingStrings (qubits : Nat) : List String :=
  if qubits = 1 then ["X", "Y", "Z"]
  else (List.range' 1 15).map fun code =>
    String.ofList [pauliLetter (code / 4), pauliLetter (code % 4)]

/-- Every non-identity Pauli string with an equal share of probability `p`. -/
def depolarizing (qubits : Nat) (p : R) : NoiseTable R :=
  let strings := depolarizingStrings qubits
  let share := p / Scalar.ofNat strings.length
  ⟨qubits, strings, List.replicate strings.length share, 0⟩

def withLoss (t : NoiseTable R) (p : R) : NoiseTable R := { t with loss := p }

def isNoiseless (t : NoiseTable R) : Bool := t.probabilities.all (· == 0) && t.loss == 0

def hasPauliNoise (t : NoiseTable R) : Bool := t.probabilities.any fun p => Scalar.lt 0 p

def isProbability (p : R) : Bool := Scalar.isFinite p && Scalar.within p 0 1

def validate (t : NoiseTable R) : Except (TableError R) Unit := do
  if t.strings.length ≠ t.probabilities.length then
    throw (.lengths t.strings.length t.probabilities.length)
  if let some text := t.strings.find? fun text => (pauliCode? text t.qubits).isNone then
    throw (.pauliString text)
  if let some p := t.probabilities.find? fun p => !isProbability p then
    throw (.probability p)
  if Scalar.lt (1 + Scalar.epsilon) (Scalar.sum t.probabilities) then
    throw (.total (Scalar.sum t.probabilities))
  if !isProbability t.loss then
    throw (.loss t.loss)

/-- The codes of the strings with their probabilities. Invalid strings are left out. -/
def coded (t : NoiseTable R) : List (Nat × R) :=
  (t.strings.zip t.probabilities).filterMap fun (text, p) =>
    (pauliCode? text t.qubits).map (·, p)

/-- Probabilities by code. Strings with the same code add up. -/
def probabilityTable (t : NoiseTable R) : List R :=
  (List.range pauliCodes).map fun code =>
    Scalar.sum ((t.coded.filter (·.1 = code)).map (·.2))

/-- The first code beyond the capacity of the probability table. -/
def overflow? (t : NoiseTable R) : Option Nat := (t.coded.map (·.1)).find? (pauliCodes ≤ ·)

/-- The probability table of an unvalidated table; fails on codes beyond its capacity. -/
def probabilityTable? (t : NoiseTable R) : Except Fault (List R) :=
  match t.overflow? with
  | some code => .error (.indexOutOfBounds pauliCodes code)
  | none => .ok t.probabilityTable

end NoiseTable

end ShotSim
