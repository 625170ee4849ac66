import ShotSim.Shot

/-!
# Idle decay

A qubit that waits relaxes towards 0 and loses its phase. The time it has waited is kept until it is
due, and then one branch of the decay is drawn and applied as an operator.
-/

namespace ShotSim

/-- Opcodes at or above this word take no time. -/
def durationTableSize : Nat := 32

/-- Coherence times and durations. -/
structure IdleParams (R : Type) where
  t1 : R
  t2 : R
  dueThreshold : R
  enabled : Bool
  durations : Vector R durationTableSize

namespace IdleParams

variable {R : Type} [Scalar R]

instance : Zero (IdleParams R) := ⟨⟨0, 0, 0, false, Vector.replicate _ 0⟩⟩

def duration (p : IdleParams R) (code : Opcode) : R := p.durations[code.toWord.toNat]?.getD 0

/-- Whether decay is enabled and the qubit has been idle for at least the decay threshold. -/
def isDue (p : IdleParams R) (q : QubitState R) : Bool :=
  p.enabled && Scalar.lt 0 q.idle && Scalar.le p.dueThreshold q.idle

/-- The amplitude damping branch selected by a draw, normalized. `gamma` is the probability that a
set qubit has relaxed and `p1` the probability that the qubit is set. -/
def damping (gamma p1 draw : R) : List (Cplx R) :=
  let jump := gamma * p1
  if Scalar.lt draw jump then
    [0, .ofReal (1 / Scalar.sqrt p1), 0, 0]
  else
    let norm := 1 / Scalar.sqrt (1 - jump)
    [.ofReal norm, 0, 0, .ofReal (Scalar.sqrt (1 - gamma) * norm)]

/-- Rate of pure dephasing. -/
def dephasingRate (p : IdleParams R) : R := 1 / p.t2 - GateConstants.half / p.t1

def dephases (p : IdleParams R) (idle draw : R) : Bool :=
  let rate := p.dephasingRate
  Scalar.lt 0 rate && Scalar.lt draw ((1 - Scalar.exp (-idle * rate)) / Scalar.two)

def flipPhase (m : List (Cplx R)) : List (Cplx R) :=
  m.mapIdx fun i a => if i < 2 then a else -a

/-- The decay of a qubit over `idle`, as a one-qubit matrix: damping, then dephasing. -/
def decay (p : IdleParams R) (idle p1 dampingDraw dephaseDraw : R) : List (Cplx R) :=
  let gamma := 1 - Scalar.exp (-idle / p.t1)
  let m := damping gamma p1 dampingDraw
  if p.dephases idle dephaseDraw then flipPhase m else m

end IdleParams

end ShotSim
