/-!
# Opcodes

What an operation of a program does. Programs carry opcodes as 32-bit words, and a word that names
no operation is kept as it is: a shot that comes across it reports it.
-/

namespace ShotSim

/-- The kinds of operation. Other words are `unknown`. -/
inductive Opcode
  | id
  | reset
  | x
  | y
  | z
  | h
  | s
  | sAdj
  | t
  | tAdj
  | sx
  | sxAdj
  | rx
  | ry
  | rz
  | cx
  | cz
  | rxx
  | ryy
  | rzz
  | ccx
  | mz
  | mResetZ
  | mEveryZ
  | swap
  | matrix
  | matrix2
  | matrix3
  | move
  | injected
  | parallelStart
  | parallelEnd
  | pauli1
  | pauli2
  | loss
  | unknown (word : UInt32)
  deriving DecidableEq, Repr

namespace Opcode

def toWord : Opcode → UInt32
  | id => 0
  | reset => 1
  | x => 2
  | y => 3
  | z => 4
  | h => 5
  | s => 6
  | sAdj => 7
  | t => 8
  | tAdj => 9
  | sx => 10
  | sxAdj => 11
  | rx => 12
  | ry => 13
  | rz => 14
  | cx => 15
  | cz => 16
  | rxx => 17
  | ryy => 18
  | rzz => 19
  | ccx => 20
  | mz => 21
  | mResetZ => 22
  | mEveryZ => 23
  | swap => 24
  | matrix => 25
  | matrix2 => 26
  | matrix3 => 27
  | move => 28
  | injected => 29
  | parallelStart => 30
  | parallelEnd => 31
  | pauli1 => 128
  | pauli2 => 129
  | loss => 130
  | unknown word => word

/-- The opcodes that have a name, by rising word. -/
def named : List Opcode :=
  [id, reset, x, y, z, h, s, sAdj, t, tAdj, sx, sxAdj, rx, ry, rz, cx, cz, rxx, ryy, rzz, ccx, mz,
    mResetZ, mEveryZ, swap, matrix, matrix2, matrix3, move, injected, parallelStart, parallelEnd,
    pauli1, pauli2, loss]

def ofWord (word : UInt32) : Opcode :=
  (named.find? fun code => code.toWord = word).getD (unknown word)

def isKnown : Opcode → Bool
  | unknown _ => false
  | _ => true

def name? : Opcode → Option String
  | id => some "Id"
  | reset => some "Reset"
  | x => some "X"
  | y => some "Y"
  | z => some "Z"
  | h => some "H"
  | s => some "S"
  | sAdj => some "SAdj"
  | t => some "T"
  | tAdj => some "TAdj"
  | sx => some "Sx"
  | sxAdj => some "SxAdj"
  | rx => some "Rx"
  | ry => some "Ry"
  | rz => some "Rz"
  | cx => some "Cx"
  | cz => some "Cz"
  | rxx => some "Rxx"
  | ryy => some "Ryy"
  | rzz => some "Rzz"
  | ccx => some "Ccx"
  | mz => some "Mz"
  | mResetZ => some "MResetZ"
  | mEveryZ => some "MEveryZ"
  | swap => some "Swap"
  | matrix => some "Matrix"
  | matrix2 => some "Matrix2Q"
  | matrix3 => some "Matrix3Q"
  | move => some "Move"
  | injected => some "Injected"
  | parallelStart => some "ParallelStart"
  | parallelEnd => some "ParallelEnd"
  | pauli1 => some "PauliNoise1Q"
  | pauli2 => some "PauliNoise2Q"
  | loss => some "LossNoise"
  | unknown _ => none

/-- Number of operands; 0 for operations on the whole shot. -/
def arity : Opcode → Nat
  | id | reset | x | y | z | h | s | sAdj | t | tAdj | sx | sxAdj | rx | ry | rz
  | mz | mResetZ | matrix | move | pauli1 | loss => 1
  | cx | cz | rxx | ryy | rzz | swap | matrix2 | pauli2 => 2
  | ccx | matrix3 => 3
  | mEveryZ | injected | parallelStart | parallelEnd | unknown _ => 0

def isNoise : Opcode → Bool
  | pauli1 | pauli2 | loss => true
  | _ => false

def isMeasurement : Opcode → Bool
  | mz | mResetZ => true
  | _ => false

/-- One-qubit operations that absorb the decay of an idle qubit. -/
def takesDecay : Opcode → Bool
  | id | move | x | y | z | h | s | sAdj | t | tAdj | sx | sxAdj | rx | ry | rz | matrix => true
  | _ => false

end Opcode

end ShotSim
