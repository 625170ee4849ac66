import ShotSim.Op

/-!
# Single precision numbers as bits

A number as it is stored, without an arithmetic of its own. Zeros of different sign differ here, and
so do any two bit patterns that are not a number. Operations over `Single` are therefore equal
exactly if they are the same record.

* `Single.toFloat32` is the number that a bit pattern stands for;
* `Op.value` is the operation that a record stands for.
-/

namespace ShotSim

/-- The 32 bits of a single precision number. -/
structure Single where
  bits : UInt32
  deriving DecidableEq, Repr

namespace Single

def signBit : UInt32 := 0x80000000

def ofFloat32 (x : Float32) : Single := ⟨x.toBits⟩

def toFloat32 (x : Single) : Float32 := Float32.ofBits x.bits

/-- Changing the sign changes one bit. -/
instance : GateConstants Single where
  zero := ⟨0⟩
  one := ⟨0x3f800000⟩
  neg x := ⟨x.bits ^^^ signBit⟩
  half := ⟨0x3f000000⟩
  invSqrtTwo := ⟨0x3f3504f3⟩

end Single

/-- The operation denoted by a record. -/
def Op.value (op : Op Single) : Op Float32 := op.map Single.toFloat32

end ShotSim
