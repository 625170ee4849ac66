import ShotSim.Idle.Decay

/-!
# The clock of a shot

Every operation takes its configured time. The qubits it addresses are busy for that time and all
other qubits wait. Inside a parallel region nothing is charged; the region is charged once, when it
ends, with its longest operation and all the qubits it addressed.
-/

namespace ShotSim

namespace Op

variable {R : Type} [Scalar R]

/-- The qubits an operation addresses, as a mask. A reset of the whole shot addresses none. -/
def qubitMask (op : Op R) : Nat :=
  if op.isResetAll then 0 else op.qubits.foldl (fun mask q => mask ||| 1 <<< q) 0

end Op

namespace Shot

variable {R : Type} [Scalar R]

/-- Charges `duration`, with the qubits of `busy` at work. A duration of zero or less changes
nothing. -/
def charge (s : Shot R) (busy : Nat) (duration : R) (qubitCount : Nat) : Shot R :=
  if Scalar.le duration 0 then s
  else
    let s := s.mapQubits qubitCount fun q state =>
      if busy.testBit q then { state with heat := state.heat + duration }
      else { state with idle := state.idle + duration }
    { s with elapsed := s.elapsed + duration }

def accrue (s : Shot R) (op : Op R) (params : IdleParams R) (qubitCount : Nat) : Shot R :=
  match op.code with
  | .parallelStart => if s.region.active then s else { s with region := ⟨true, 0, 0⟩ }
  | .parallelEnd =>
    if s.region.active then
      { s.charge s.region.qubits s.region.duration qubitCount with region := 0 }
    else s
  | code =>
    let duration := params.duration code
    if s.region.active then
      { s with region :=
          { s.region with
            qubits := s.region.qubits ||| op.qubitMask
            duration := Scalar.max s.region.duration duration } }
    else s.charge op.qubitMask duration qubitCount

end Shot

end ShotSim
