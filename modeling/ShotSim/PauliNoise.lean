import ShotSim.Collapse

/-!
# Pauli noise and loss

A noise operation carries probabilities in its coefficient table, and a draw of the step selects
what happens: no Pauli or one of them, and loss or none.
-/

namespace ShotSim

section Select

variable {R : Type} [Scalar R]

/-- Position, counted from `index`, of the first running total of `probabilities` that exceeds the
draw; 0 if none does. -/
def selectFrom (draw : R) : List R → Nat → R → Nat
  | [], _, _ => 0
  | p :: rest, index, total =>
    if Scalar.lt draw (total + p) then index else selectFrom draw rest (index + 1) (total + p)

/-- The code of the Pauli that a draw selects, where `probabilities` starts with code 1; 0 for
none. -/
def selectPauli (probabilities : List R) (draw : R) : Nat := selectFrom draw probabilities 1 0

def pauliMatrix : Nat → List (Cplx R)
  | 1 => [0, 1, 1, 0]
  | 2 => [0, .ofImag (-1), .ofImag 1, 0]
  | 3 => [1, 0, 0, -1]
  | _ => [1, 0, 0, 1]

/-- Product of two one-qubit matrices on two qubits, `first` on the more significant one. -/
def tensor (first second : List (Cplx R)) : List (Cplx R) :=
  (List.range 16).map fun i =>
    let row := i / 4
    let col := i % 4
    first.getD (row / 2 * 2 + col / 2) 0 * second.getD (row % 2 * 2 + col % 2) 0

end Select

namespace Op

variable {R : Type} [Scalar R]

/-- The probabilities of a Pauli noise operation from code 1 up to, exclusive, `codes`. -/
def pauliProbabilities (op : Op R) (codes : Nat) : List R :=
  (List.range' 1 (codes - 1)).map fun code => (op.coeffs.get code).re

def lossProbability (op : Op R) : R := (op.coeffs.get 0).re

end Op

namespace Shot

variable {R : Type} [Scalar R]

def applyPauli1 (s : Shot R) (op : Op R) : Shot R :=
  let code := selectPauli (op.pauliProbabilities 4) s.draws.pauli
  if code = 0 then s else s.inject 1 (pauliMatrix code)

def applyPauli2 (s : Shot R) (op : Op R) : Shot R :=
  let code := selectPauli (op.pauliProbabilities 16) s.draws.pauli
  if code = 0 then s else s.inject 2 (tensor (pauliMatrix (code / 4)) (pauliMatrix (code % 4)))

/-- Loss: the qubit is flagged as lost and collapsed to 0. -/
def applyLoss (s : Shot R) (op : Op R) : Shot R :=
  if Scalar.lt s.draws.loss op.lossProbability then
    { s with lost := s.lost ||| 1 <<< op.q1 }.collapse op.q1 true
  else s

end Shot

end ShotSim
