import ShotSim.Lane
import ShotSim.Plan

/-!
# The machine

Carries out batches of shots. Its memory outlives a batch: a run only makes it larger or smaller,
and what was in it stays until a shot restarts.

The lanes of a machine are laid out one after another. When the sizes change, the contents are read
as one stretch and cut anew.
-/

namespace ShotSim

/-- A machine: its program, parameters and the memory of its shots. -/
structure Machine (R : Type) where
  ops : Array (Op R)
  idle : IdleParams R
  batch : Batch R
  layout : Layout
  resultsPerShot : Nat
  resultCount : Nat
  lanes : Array (Lane R)
  /-- Steps since the batch began. -/
  steps : Nat
  pool : Pool := {}

structure BatchOutput (R : Type) where
  shots : List (Shot R)
  logs : List (ReportLog R)
  slots : List (List Outcome)
  states : Option (List (Array (Cplx R)))

/-- Piece `index` of `items` cut into pieces of `size`; `fill` where there is nothing. -/
def piece {α : Type} (items : Array α) (size index : Nat) (fill : α) : Array α :=
  (Array.range size).map fun i => items.getD (index * size + i) fill

namespace Machine

variable {R : Type} [Scalar R]

def fresh : Machine R where
  ops := #[]
  idle := 0
  batch := ⟨0, 0, 0, 0, 0⟩
  layout := Layout.ofCircuit 0 maxQubitsPerWorkgroup
  resultsPerShot := 0
  resultCount := 0
  lanes := #[]
  steps := 0

def name (pool : Pool := {}) : String := s!"CPU ({pool.threads} threads)"

def load (m : Machine R) (ops : List (Op R)) (idle : IdleParams R) : Machine R :=
  { m with ops := ops.toArray, idle := idle }

/-- Allocates the buffers of a plan. -/
def prepareRun (m : Machine R) (p : Plan) : Machine R :=
  let shots := m.lanes.map (·.shot)
  let block := m.lanes.flatMap (·.block)
  let sums := m.lanes.flatMap (·.sums)
  let records := m.lanes.flatMap (·.log.slots)
  let cursors := m.lanes.map (·.log.cursor)
  let slots := m.lanes.flatMap (·.slots)
  { m with
    layout := p.layout
    resultsPerShot := p.resultsPerShot
    resultCount := p.resultCount
    lanes := (Array.range p.shotsPerBatch).map fun i =>
      { shot := shots.getD i 0
        block := piece block p.layout.entriesPerShot i 0
        sums := piece sums p.layout.workgroups i 0
        log := ⟨cursors.getD i 0, piece records p.resultsPerShot i 0⟩
        slots := piece slots (max p.resultCount 1) i .zero } }

def beginBatch (m : Machine R) (batch : Batch R) : Machine R :=
  { m with
    batch := batch
    lanes := m.lanes.map fun lane => { lane with shot := 0 }
    steps := 0 }

/-- The data read by the steps of the current batch. -/
def job (m : Machine R) : Job R :=
  ⟨m.ops, m.batch, m.idle, m.layout, m.resultCount, m.pool.schedule⟩

def mapActive (m : Machine R) (f : Nat → Lane R → Lane R) : Machine R :=
  { m with lanes := m.lanes.mapIdx fun i lane => if i < m.batch.shots then f i lane else lane }

def prepare (m : Machine R) : Machine R :=
  let job := m.job
  let m := m.mapActive fun i lane => lane.prepare job i
  { m with steps := m.steps + 1 }

def execute (m : Machine R) : Machine R :=
  let job := m.job
  m.mapActive fun _ lane => lane.execute job

def run (m : Machine R) : Nat → Machine R
  | 0 => m
  | count + 1 => (m.prepare.execute).run count

def active (m : Machine R) : List (Lane R) := m.lanes.toList.take m.batch.shots

def read (m : Machine R) (capture : Bool) : BatchOutput R where
  shots := m.active.map (·.shot)
  logs := m.active.map (·.log)
  slots := m.active.map fun lane => lane.slots.toList.take m.resultCount
  states := if capture then some (m.active.map (·.block)) else none

end Machine

end ShotSim
