import ShotSim.Idle.Decay

/-!
# Idle noise models

Coherence times and the time that each kind of operation takes, as they are configured.
-/

namespace ShotSim

/-- Idle noise as configured. Times share one arbitrary unit. -/
structure IdleModel (R : Type) where
  /-- Relaxation time. -/
  t1 : R
  /-- Dephasing time. -/
  t2 : R
  /-- Share of the shorter time after which a waiting qubit is due. -/
  dueFraction : R
  durations : Vector R durationTableSize

inductive IdleError (R : Type)
  | t1 (value : R)
  | t2 (value : R)
  | t2TooLong (t2 t1 : R)
  | dueFraction (value : R)
  | duration (value : R)

namespace IdleModel

variable {R : Type} [Scalar R]

/-- The model with the given coherence times and zero durations. -/
def ofTimes (t1 t2 dueFraction : R) : IdleModel R := ⟨t1, t2, dueFraction, Vector.replicate _ 0⟩

/-- Sets the duration of an opcode. Opcodes beyond the table take no time. -/
def withDuration (m : IdleModel R) (code : Opcode) (duration : R) : IdleModel R :=
  { m with durations := m.durations.setIfInBounds code.toWord.toNat duration }

def withDurations (m : IdleModel R) (codes : List Opcode) (duration : R) : IdleModel R :=
  codes.foldl (fun m code => m.withDuration code duration) m

def isPositive (x : R) : Bool := !Scalar.isNaN x && !Scalar.le x 0

def validate (m : IdleModel R) : Except (IdleError R) Unit := do
  if !isPositive m.t1 then throw (.t1 m.t1)
  if !isPositive m.t2 then throw (.t2 m.t2)
  if Scalar.lt (Scalar.two * m.t1) m.t2 then throw (.t2TooLong m.t2 m.t1)
  if !isPositive m.dueFraction || Scalar.lt 1 m.dueFraction then throw (.dueFraction m.dueFraction)
  if let some d := m.durations.toList.find? fun d => !Scalar.isFinite d || Scalar.lt d 0 then
    throw (.duration d)

def dueThreshold (m : IdleModel R) : R := m.dueFraction * Scalar.min m.t1 m.t2

def params (m : IdleModel R) : IdleParams R := ⟨m.t1, m.t2, m.dueThreshold, true, m.durations⟩

def defaultDueFraction : Float32 := 0.05

end IdleModel

end ShotSim
