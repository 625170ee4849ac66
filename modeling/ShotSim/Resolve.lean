import ShotSim.Clock
import ShotSim.Collation
import ShotSim.Operator
import ShotSim.PauliNoise
import ShotSim.Schedule

/-!
# Deciding on a step

At each step a shot looks at its next operation and decides what happens to its amplitudes: nothing
but a rescale, a gate as it stands, an operator of its own making (a projection, a noise branch, a
decay), a report, or a restart. It does so without touching an amplitude.
-/

namespace ShotSim

/-- Data common to all shots of a batch. -/
structure Batch (R : Type) where
  /-- Id of the first shot. -/
  firstShot : UInt32
  seed : UInt32
  shots : Nat
  /-- Qubits of the circuit, before padding. -/
  qubits : Nat
  /-- Basis states above this probability are reported. -/
  threshold : R

/-- Everything a step reads besides the memory of its own shot. -/
structure Job (R : Type) where
  ops : Array (Op R)
  batch : Batch R
  idle : IdleParams R
  layout : Layout
  /-- Measurement slots of a shot. -/
  resultCount : Nat
  schedule : Schedule := .inOrder

/-- A control block together with the measurement slots of the shot. -/
structure Register (R : Type) where
  shot : Shot R
  slots : Array Outcome

namespace Shot

variable {R : Type} [Scalar R]

/-- Fails the shot: it keeps its state until it is restarted. -/
def fail (s : Shot R) (code : StatusCode) (opIdx : Nat) : Shot R :=
  { s with status := code, statusOp := opIdx, selected := .id }

def restart (s : Shot R) (batch : Batch R) (shotIdx : Nat) : Shot R :=
  let id := batch.firstShot + UInt32.ofNat shotIdx
  let fresh : Shot R := 0
  { fresh with
    id := id
    nextOp := s.nextOp
    rng := Rng.ofShot batch.seed id
    renormalize := 1
    selected := .reset }.mapQubits batch.qubits fun _ state => { state with zero := 1 }

def gateMatrix (s : Shot R) (op : Op R) : List (Cplx R) :=
  match s.selected with
  | .rx | .ry | .rz => rotation1 s.selected op.angle
  | .id => [1, 0, 0, 1]
  | _ => op.coeffs.dense 2

end Shot

def compose1 {R : Type} [Scalar R] (outer inner : List (Cplx R)) : List (Cplx R) :=
  (List.range 4).map fun i =>
    let row := i / 2
    let col := i % 2
    outer.getD (row * 2) 0 * inner.getD col 0 + outer.getD (row * 2 + 1) 0 * inner.getD (2 + col) 0

namespace Shot

variable {R : Type} [Scalar R]

/-- Injects the decay of a due qubit directly before the operation, as one operator. -/
def injectDecay (s : Shot R) (params : IdleParams R) (op : Op R) : Shot R :=
  let state := s.qubit op.q1
  if params.isDue state then
    let decay := params.decay state.idle state.oneProbability s.draws.damping s.draws.dephase
    let fused := compose1 (s.gateMatrix op) decay
    { s with scratch := Coeffs.zero }.inject 1 fused |>.setQubit op.q1 { state with idle := 0 }
  else s

end Shot

/-- Whether the qubits are in the circuit and distinct. -/
def validQubits (qubitCount : Nat) : List Nat → Bool
  | [] => true
  | q :: rest => decide (q < qubitCount) && !rest.contains q && validQubits qubitCount rest

namespace Register

variable {R : Type} [Scalar R]

def setSlot (r : Register R) (resultCount slot : Nat) (outcome : Outcome) : Register R :=
  if slot < resultCount then { r with slots := r.slots.setIfInBounds slot outcome } else r

def clearSlots (slots : Array Outcome) (resultCount : Nat) : Array Outcome :=
  slots.mapIdx fun i o => if i < resultCount then .zero else o

/-- A measurement or reset of one qubit. A lost qubit is left unchanged and reads as lost. -/
def measure (r : Register R) (job : Job R) (op : Op R) (lost : Bool) : Register R :=
  let outcome := if lost then .lost else Outcome.ofBit (r.shot.readsOne op.q1)
  let shot := if lost then r.shot else r.shot.collapse op.q1 (op.code != .mz)
  if op.code = .reset then { r with shot := shot }
  else { r with shot := shot }.setSlot job.resultCount op.q2 outcome

/-- Selects the step of an operation on valid qubits. Lost qubits are left unchanged. -/
def select (r : Register R) (job : Job R) (op : Op R) (lost : Bool) : Register R :=
  match op.code with
  | .id | .move | .parallelStart | .parallelEnd => r
  | .mEveryZ => { r with shot := { r.shot with selected := .mEveryZ } }
  | .mz | .mResetZ | .reset => r.measure job op lost
  | .pauli1 => if lost then r else { r with shot := r.shot.applyPauli1 op }
  | .pauli2 => if lost then r else { r with shot := r.shot.applyPauli2 op }
  | .loss => if lost then r else { r with shot := r.shot.applyLoss op }
  | code => if lost then r else { r with shot := { r.shot with selected := code } }

/-- Resolves an operation: rejects invalid ones, selects the step, injects due decay and accrues
time. -/
def resolve (r : Register R) (job : Job R) (op : Op R) (opIdx : Nat) : Register R :=
  if !op.code.isKnown || op.code = .injected then
    { r with shot := r.shot.fail .unsupportedOp opIdx }
  else if !validQubits job.batch.qubits op.qubits then
    { r with shot := r.shot.fail .invalidQubit opIdx }
  else
    let lost := op.qubits.any r.shot.isLost
    let r := r.select job op lost
    let shot :=
      if !lost && op.code.takesDecay then r.shot.injectDecay job.idle op else r.shot
    { r with shot := shot.accrue op job.idle job.batch.qubits }

end Register

namespace Job

variable {R : Type} [Scalar R]

/-- Whether the step of operation `idx` reads the probabilities of a qubit. -/
def readsProbabilities (job : Job R) (idx : Nat) : Bool :=
  job.idle.enabled ||
    match job.ops[idx]? with
    | none => false
    | some op =>
      match op.code with
      | .mz | .mResetZ | .loss => true
      | .reset => !op.isResetAll
      | _ => false

end Job

end ShotSim
