import ShotSim.Shot

/-!
# Collation

After each step every workgroup leaves the sums of the probabilities it has seen. The next step adds
them up to learn the norm of the state and, when they were collected, the probabilities of each
qubit.
-/

namespace ShotSim

def collationQubits : Nat := 31

/-- The sums of a workgroup after a step. -/
structure Sums (R : Type) where
  /-- Probability of all amplitudes. -/
  total : R
  /-- Probability of the amplitudes in which each qubit is set. -/
  ones : Vector R collationQubits

structure Visit (R : Type) where
  index : Nat
  probability : R

namespace Sums

variable {R : Type} [Scalar R]

instance : Zero (Sums R) := ⟨⟨0, Vector.replicate _ 0⟩⟩

def one (s : Sums R) (q : Nat) : R := s.ones[q]?.getD 0

/-- The sums of a workgroup from the visits of its threads: each thread adds up its own visits in
order, and the threads are added in order. -/
def ofThreads (collect : Bool) (qubitCount : Nat) (threads : List (List (Visit R))) : Sums R where
  total := Scalar.sum (threads.map fun visits => Scalar.sum (visits.map (·.probability)))
  ones := Vector.ofFn fun q =>
    if collect && decide (q.val < qubitCount) then
      Scalar.sum (threads.map fun visits =>
        Scalar.sum ((visits.filter (·.index.testBit q)).map (·.probability)))
    else 0

end Sums

/-- The factor that normalizes a state of the given total probability; one if the drift is within
tolerance or the total is not positive. -/
def renormalizer {R : Type} [Scalar R] (total : R) : R :=
  if Scalar.lt 0 total && Scalar.lt Scalar.normTolerance (Scalar.abs (total - 1)) then
    1 / Scalar.sqrt total
  else 1

namespace Shot

variable {R : Type} [Scalar R]

/-- Reads the collation of the preceding step: the norm always, the qubit probabilities if they were
collected. -/
def takeCollation (s : Shot R) (sums : Array (Sums R)) (qubitCount : Nat) : Shot R :=
  let total := Scalar.sum (sums.toList.map (·.total))
  let s := { s with renormalize := renormalizer total }
  if s.collects then
    s.mapQubits qubitCount fun q state =>
      let one := Scalar.sum (sums.toList.map (·.one q))
      { state with one := one, zero := Scalar.max (total - one) 0 }
  else s

end Shot

end ShotSim
