import ShotSim.Scalar

/-!
# Random streams

Every shot draws from a stream of its own. The stream is fixed by the seed of the run and the id of
the shot, so a shot sees the same draws whichever batch it falls into.

* `laneHash` spreads neighbouring ids over the 32-bit words;
* `Rng.ofSeed` expands a word into a generator;
* `Rng.output` reads the word that a generator yields next and `Rng.step` moves past it.
-/

namespace ShotSim

/-- Word hash: two multiplications by odd constants between three xorshifts. -/
def laneHash (value : UInt32) : UInt32 :=
  let a := (value ^^^ (value >>> 16)) * 0x7feb352d
  let b := (a ^^^ (a >>> 15)) * 0x846ca68b
  b ^^^ (b >>> 16)

/-- Left rotation of `x` by `k` bits, for `0 < k < 32`. -/
def rotateLeft (x k : UInt32) : UInt32 := (x <<< k) ||| (x >>> (32 - k))

/-- Generator state of four words. -/
structure Rng where
  s0 : UInt32
  s1 : UInt32
  s2 : UInt32
  s3 : UInt32
  deriving DecidableEq, Repr

namespace Rng

/-- The all-zero fixed point. -/
def zero : Rng := ⟨0, 0, 0, 0⟩

def seedStride : UInt32 := 0x9e3779b9

/-- The generator for a seed word: four hashes, and never the all-zero state. -/
def ofSeed (seed : UInt32) : Rng :=
  let z1 := seed + seedStride
  let z2 := z1 + seedStride
  let z3 := z2 + seedStride
  let z4 := z3 + seedStride
  let state : Rng := ⟨laneHash z1, laneHash z2, laneHash z3, laneHash z4⟩
  if state = zero then { state with s0 := 1 } else state

def ofShot (seed shotId : UInt32) : Rng := ofSeed (seed ^^^ laneHash shotId)

def output (g : Rng) : UInt32 := rotateLeft (g.s0 + g.s3) 7 + g.s0

def step (g : Rng) : Rng :=
  let s2 := g.s2 ^^^ g.s0
  let s3 := g.s3 ^^^ g.s1
  ⟨g.s0 ^^^ s3, g.s1 ^^^ s2, s2 ^^^ (g.s1 <<< 9), rotateLeft s3 11⟩

def next (g : Rng) : UInt32 × Rng := (g.output, g.step)

/-- The next fraction in `[0, 1)`, from the upper 24 bits of the next word. -/
def fraction {R : Type} [Scalar R] (g : Rng) : R :=
  Scalar.ofNat (g.output >>> 8).toNat * (1 / Scalar.ofNat 16777216)

def advance (g : Rng) : Nat → Rng
  | 0 => g
  | n + 1 => (g.step).advance n

end Rng

end ShotSim
