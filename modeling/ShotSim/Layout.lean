/-!
# Layout of a shot

How the amplitudes of one shot are split over workgroups, and within a workgroup over threads.
-/

namespace ShotSim

def threadsPerWorkgroup : Nat := 32

/-- A workgroup never owns more than this many qubits' worth of amplitudes. -/
def maxQubitsPerWorkgroup : Nat := 12

/-- A workgroup never owns fewer, so that every thread has whole groups of eight. -/
def minQubitsPerWorkgroup : Nat := 8

/-- Smaller circuits are padded to this many qubits. -/
def minQubitCount : Nat := 10

def maxQubitCount : Nat := 27

def twosIn : Nat → Nat → Nat
  | 0, _ => 0
  | fuel + 1, n => if n % 2 = 0 then twosIn fuel (n / 2) + 1 else 0

/-- Low zero bits of a 64-bit word; 64 for zero. -/
def trailingZeros (n : Nat) : Nat := twosIn 64 n

/-- How a shot's amplitudes are split. -/
structure Layout where
  /-- Qubits the shot has room for. -/
  qubitCount : Nat
  workgroups : Nat
  entriesPerThread : Nat
  deriving DecidableEq, Repr

namespace Layout

/-- The layout for a circuit when a workgroup takes at most `perWorkgroup` qubits. -/
def ofCircuit (circuitQubits perWorkgroup : Nat) : Layout :=
  let n := max circuitQubits minQubitCount
  let m := min perWorkgroup maxQubitsPerWorkgroup
  let workgroups := if n ≤ m then 1 else Nat.pow 2 (n - m)
  ⟨n, workgroups, Nat.pow 2 n / workgroups / threadsPerWorkgroup⟩

def entriesPerShot (l : Layout) : Nat := Nat.pow 2 l.qubitCount

def entriesPerWorkgroup (l : Layout) : Nat := l.entriesPerThread * threadsPerWorkgroup

/-- Index bits that stay inside the stretch of one workgroup. -/
def shardBits (l : Layout) : Nat := trailingZeros l.entriesPerWorkgroup

end Layout

end ShotSim
