import ShotSim.Shot

/-!
# Measurement

Reading a qubit draws an outcome from its probabilities and leaves an operator behind that projects
the amplitudes onto it.
-/

namespace ShotSim

namespace QubitState

variable {R : Type} [Scalar R]

/-- Probability of reading 1; 0 when nothing is known. -/
def oneProbability (q : QubitState R) : R :=
  let total := q.zero + q.one
  if Scalar.lt 0 total then Scalar.clamp (q.one / total) 0 1 else 0

end QubitState

/-- The one-qubit matrix that projects onto an outcome and rescales. With `reset` the outcome 1 is
also flipped to 0. -/
def projector {R : Type} [Scalar R] (outcome reset : Bool) (scale : R) : List (Cplx R) :=
  if outcome then
    if reset then [0, .ofReal scale, 0, 0] else [0, 0, 0, .ofReal scale]
  else [.ofReal scale, 0, 0, 0]

namespace Shot

variable {R : Type} [Scalar R]

def readsOne (s : Shot R) (q : Nat) : Bool := Scalar.lt s.draws.measure (s.qubit q).oneProbability

/-- Collapses qubit `q` onto the outcome that `readsOne` gives, with `reset` back to 0. -/
def collapse (s : Shot R) (q : Nat) (reset : Bool) : Shot R :=
  let outcome := s.readsOne q
  let p1 := (s.qubit q).oneProbability
  let p := if outcome then p1 else 1 - p1
  let endsInOne := outcome && !reset
  let state := s.qubit q
  let s := s.setQubit q
    { state with zero := if endsInOne then 0 else 1, one := if endsInOne then 1 else 0 }
  s.inject 1 (projector outcome reset (1 / Scalar.sqrt p))

end Shot

end ShotSim
