import ShotSim.Config

/-!
# Run plans

How the shots of a run are split into batches, and how large the buffers of a batch are.
-/

namespace ShotSim

def amplitudeSize : Nat := 8

def recordSize : Nat := 8

def wordSize : Nat := 4

def opSize : Nat := 544

def shotSize : Nat := 1040

def sumsSize : Nat := 128

def maxOps : Nat := maxBufferSize / opSize

/-- Sizes and batches of a run. -/
structure Plan where
  circuitQubits : Nat
  layout : Layout
  resultCount : Nat
  resultsPerShot : Nat
  shots : Nat
  shotsPerBatch : Nat
  batches : Nat
  ops : Nat
  deriving DecidableEq, Repr

namespace Plan

def shotsBuffer (p : Plan) : Nat := p.shotsPerBatch * shotSize

def stateBuffer (p : Plan) : Nat := p.shotsPerBatch * (p.layout.entriesPerShot * amplitudeSize)

def sumsBuffer (p : Plan) : Nat := p.shotsPerBatch * p.layout.workgroups * sumsSize

def resultsBuffer (p : Plan) : Nat := p.shotsPerBatch * (p.resultsPerShot * recordSize)

def cursorsBuffer (p : Plan) : Nat := p.shotsPerBatch * wordSize

def measurementsBuffer (p : Plan) : Nat := p.shotsPerBatch * max p.resultCount 1 * wordSize

/-- Shots of one batch: as many as the buffers and one dispatch hold, and at least one. -/
def batchSize (shots stateSize resultsSize workgroups : Nat) : Nat :=
  max 1 (min shots
    (min (min (maxBufferSize / stateSize) (maxBufferSize / resultsSize))
      (maxWorkgroups / workgroups)))

def make {R : Type} (c : Config R) (ops : Nat) : Except (SimError R) Plan := do
  let layout := Layout.ofCircuit c.qubits c.qubitsPerWorkgroup
  let stateSize := layout.entriesPerShot * amplitudeSize
  let resultsSize := c.resultsPerShot * recordSize
  if maxBufferSize < stateSize then throw (.bufferTooLarge .stateVector stateSize)
  if maxBufferSize < resultsSize then throw (.bufferTooLarge .results resultsSize)
  if maxWorkgroups < layout.workgroups then throw (.config (.workgroups layout.workgroups))
  if maxOps < ops then throw (.programTooLarge ops)
  let size := batchSize c.shots stateSize resultsSize layout.workgroups
  return {
    circuitQubits := c.qubits
    layout := layout
    resultCount := c.resultCount
    resultsPerShot := c.resultsPerShot
    shots := c.shots
    shotsPerBatch := size
    batches := (c.shots + size - 1) / size
    ops := ops }

/-- The plan of an unvalidated configuration; fails if shots have no report slots. -/
def makeChecked {R : Type} (c : Config R) (ops : Nat) : Except (Failure R) Plan :=
  match make c ops with
  | .error e => .error (.refused e)
  | .ok plan => if c.resultsPerShot = 0 then .error (.fault .divisionByZero) else .ok plan

/-- First shot and number of shots of each batch, from batch `index` on while shots remain. -/
def batchesFrom (p : Plan) : Nat → Nat → Nat → List (Nat × Nat)
  | 0, _, _ => []
  | count + 1, index, remaining =>
    let now := min remaining p.shotsPerBatch
    (index * p.shotsPerBatch, now) :: batchesFrom p count (index + 1) (remaining - now)

def batchRanges (p : Plan) : List (Nat × Nat) := p.batchesFrom p.batches 0 p.shots

end Plan

end ShotSim
