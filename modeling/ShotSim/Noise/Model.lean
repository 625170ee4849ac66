import ShotSim.Noise.Table
import ShotSim.Opcode

/-!
# Noise models

A noise table for every kind of operation that can be noisy.
-/

namespace ShotSim

/-- The kinds of operation that have a noise table. -/
inductive NoiseSite
  | i
  | x
  | y
  | z
  | h
  | s
  | sAdj
  | t
  | tAdj
  | sx
  | sxAdj
  | rx
  | ry
  | rz
  | cx
  | cz
  | rxx
  | ryy
  | rzz
  | swap
  | mov
  | mz
  | mResetZ
  deriving DecidableEq, Repr

namespace NoiseSite

def all : List NoiseSite :=
  [i, x, y, z, h, s, sAdj, t, tAdj, sx, sxAdj, rx, ry, rz, cx, cz, rxx, ryy, rzz, swap, mov,
    mz, mResetZ]

def name : NoiseSite → String
  | i => "i"
  | x => "x"
  | y => "y"
  | z => "z"
  | h => "h"
  | s => "s"
  | sAdj => "s_adj"
  | t => "t"
  | tAdj => "t_adj"
  | sx => "sx"
  | sxAdj => "sx_adj"
  | rx => "rx"
  | ry => "ry"
  | rz => "rz"
  | cx => "cx"
  | cz => "cz"
  | rxx => "rxx"
  | ryy => "ryy"
  | rzz => "rzz"
  | swap => "swap"
  | mov => "mov"
  | mz => "mz"
  | mResetZ => "mresetz"

def ofName? (text : String) : Option NoiseSite := all.find? (·.name = text)

def qubits : NoiseSite → Nat
  | cx | cz | rxx | ryy | rzz | swap => 2
  | _ => 1

/-- The noise site of an opcode, if it can be noisy. -/
def ofCode? : Opcode → Option NoiseSite
  | .id => some i
  | .x => some x
  | .y => some y
  | .z => some z
  | .h => some h
  | .s => some s
  | .sAdj => some sAdj
  | .t => some t
  | .tAdj => some tAdj
  | .sx => some sx
  | .sxAdj => some sxAdj
  | .rx => some rx
  | .ry => some ry
  | .rz => some rz
  | .cx => some cx
  | .cz => some cz
  | .rxx => some rxx
  | .ryy => some ryy
  | .rzz => some rzz
  | .swap => some swap
  | .move => some mov
  | .mz => some mz
  | .mResetZ => some mResetZ
  | _ => none

end NoiseSite

/-- A noise table for each kind of operation. -/
structure NoiseModel (R : Type) where
  table : NoiseSite → NoiseTable R

inductive ModelError (R : Type)
  | arity (site : NoiseSite) (actual : Nat)
  | table (site : NoiseSite) (cause : TableError R)

namespace NoiseModel

variable {R : Type} [Scalar R]

def noiseless : NoiseModel R := ⟨fun site => .noiseless site.qubits⟩

/-- One table for all one-qubit gates and one for all two-qubit gates; measurements are
noiseless. -/
def uniform (one two : NoiseTable R) : NoiseModel R where
  table site :=
    match site with
    | .mz | .mResetZ => .noiseless 1
    | _ => if site.qubits = 2 then two else one

def set (m : NoiseModel R) (site : NoiseSite) (t : NoiseTable R) : NoiseModel R :=
  ⟨fun other => if other = site then t else m.table other⟩

def validateSite (m : NoiseModel R) (site : NoiseSite) : Except (ModelError R) Unit :=
  let t := m.table site
  if t.qubits ≠ site.qubits then .error (.arity site t.qubits)
  else t.validate.mapError (.table site)

def validate (m : NoiseModel R) : Except (ModelError R) Unit :=
  NoiseSite.all.forM m.validateSite

def sameTables (m n : NoiseModel R) : Bool :=
  NoiseSite.all.all fun site =>
    let a := m.table site
    let b := n.table site
    a.qubits == b.qubits && a.strings == b.strings && a.probabilities == b.probabilities &&
      a.loss == b.loss

end NoiseModel

end ShotSim
