/-!
# Faults

What goes wrong in the arithmetic itself. Inputs that were checked beforehand bring none of this
about; the functions that can be called without a check say so in their type.
-/

namespace ShotSim

/-- Arithmetic faults. -/
inductive Fault
  | indexOutOfBounds (size index : Nat)
  | divisionByZero
  deriving DecidableEq, Repr

namespace Fault

def message : Fault → String
  | indexOutOfBounds size index =>
    s!"index out of bounds: the len is {size} but the index is {index}"
  | divisionByZero => "attempt to divide by zero"

end Fault

end ShotSim
