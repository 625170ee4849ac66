import ShotSim.BasisIndex
import ShotSim.Resolve

/-!
# Going over the amplitudes

A decided step is carried out by workers. Each worker visits its own groups of amplitudes in a fixed
order, replaces each group by what the step makes of it, and notes the probabilities it has seen.

* `Mode` is the shape of the work, `groups` the order in which a worker goes about it;
* `Action` says what becomes of a group;
* `Window.runWorkgroup` carries out the share of one workgroup, and `Window.workgroupReports` is
  what it reports.
-/

namespace ShotSim

/-- The shape of a step. -/
inductive Mode
  /-- Every amplitude is set anew. -/
  | resetAll
  /-- Probabilities are reported. -/
  | extract
  /-- Only the pending rescale is applied. -/
  | scaleOnly
  | gate1
  | gate2
  | gate3
  deriving DecidableEq, Repr

namespace Mode

def name : Mode → String
  | resetAll => "ResetAll"
  | extract => "Extract"
  | scaleOnly => "ScaleOnly"
  | gate1 => "Gate1Q"
  | gate2 => "Gate2Q"
  | gate3 => "Gate3Q"

/-- Operands of a gate; 0 for the modes that visit single amplitudes. -/
def arity : Mode → Nat
  | resetAll | extract | scaleOnly => 0
  | gate1 => 1
  | gate2 => 2
  | gate3 => 3

/-- Whether every worker visits a contiguous range. -/
def isContiguous (m : Mode) : Bool := m.arity = 0

def ofArity : Nat → Mode
  | 1 => gate1
  | 2 => gate2
  | 3 => gate3
  | _ => scaleOnly

end Mode

namespace Shot

variable {R : Type} [Scalar R]

def mode (s : Shot R) : Mode :=
  match s.selected with
  | .reset => .resetAll
  | .mEveryZ => .extract
  | .injected => .ofArity s.injectedArity
  | .id => .scaleOnly
  | code => .ofArity code.arity

def operator (s : Shot R) (op : Op R) : Operator R :=
  match s.selected with
  | .injected => ⟨Nat.pow 2 s.injectedArity, .dense, s.scratch⟩
  | code => .ofGate code op

end Shot

/-- The groups visited by a worker, in order. One-qubit gates walk from pair to pair. -/
def groups (mode : Mode) (q1 q2 q3 entriesPerThread worker : Nat) : List (List Nat) :=
  match mode with
  | .gate1 =>
    let count := entriesPerThread / 2
    (BasisIndex.pairWalk (1 <<< q1) count (BasisIndex.pairOffset (worker * count) q1)).map
      fun offset => BasisIndex.pairMembers offset q1
  | .gate2 =>
    (BasisIndex.workerItems worker (entriesPerThread / 4)).map
      fun item => BasisIndex.quadMembers item q1 q2
  | .gate3 =>
    (BasisIndex.workerItems worker (entriesPerThread / 8)).map
      fun item => BasisIndex.octetMembers item q1 q2 q3
  | _ => (BasisIndex.workerItems worker entriesPerThread).map fun index => [index]

/-- The action of a step on a group of amplitudes. -/
inductive Action (R : Type)
  /-- The state in which every qubit is 0. -/
  | ground
  /-- Amplitudes are only looked at. -/
  | look
  | rescale (factor : R)
  | gate (operator : Operator R) (factor : R)

namespace Action

variable {R : Type} [Scalar R]

/-- The group after the action. Gates act on rescaled amplitudes. -/
def act : Action R → List Nat → List (Cplx R) → List (Cplx R)
  | ground, members, _ => members.map fun index => if index = 0 then 1 else 0
  | look, _, amps => amps
  | rescale factor, _, amps => amps.map (·.scale factor)
  | gate operator factor, _, amps => operator.apply (amps.map (·.scale factor))

def ofShot (s : Shot R) (op : Op R) : Action R :=
  match s.mode with
  | .resetAll => ground
  | .extract => look
  | .scaleOnly => rescale s.renormalize
  | .gate1 | .gate2 | .gate3 => gate (s.operator op) s.renormalize

end Action

/-!
## Windows on the amplitudes
-/

/-- A range of a shot's amplitudes starting at index `base`. -/
structure Window (R : Type) where
  base : Nat
  amps : Array (Cplx R)

namespace Window

variable {R : Type} [Scalar R]

def get (w : Window R) (index : Nat) : Cplx R := w.amps.getD (index - w.base) 0

def set (w : Window R) (index : Nat) (amp : Cplx R) : Window R :=
  { w with amps := w.amps.setIfInBounds (index - w.base) amp }

def scatter (w : Window R) : List Nat → List (Cplx R) → Window R
  | index :: members, amp :: amps => (w.set index amp).scatter members amps
  | _, _ => w

end Window

/-- Applies an action to groups in sequence. Returns the window and the visits. -/
def sweep {R : Type} [Scalar R] (action : Action R) :
    List (List Nat) → Window R → Window R × List (Visit R)
  | [], w => (w, [])
  | members :: rest, w =>
    let amps := action.act members (members.map w.get)
    let (w, visits) := sweep action rest (w.scatter members amps)
    (w, members.zipWith (fun index amp => ⟨index, amp.normSqr⟩) amps ++ visits)

/-!
## Reported basis states
-/

structure Record (R : Type) where
  index : Nat
  probability : R

/-- Report slots of a shot and the number of reports so far. Reports beyond the capacity are counted
but not kept. -/
structure ReportLog (R : Type) where
  cursor : UInt32
  slots : Array (Record R)

namespace ReportLog

variable {R : Type} [Scalar R]

instance : Zero (Record R) := ⟨⟨0, 0⟩⟩

def push (log : ReportLog R) (record : Record R) : ReportLog R :=
  { cursor := log.cursor + 1, slots := log.slots.setIfInBounds log.cursor.toNat record }

/-- The kept reports, in the order of arrival. -/
def kept (log : ReportLog R) : List (Record R) := log.slots.toList.take log.cursor.toNat

def sorted (log : ReportLog R) : List (Record R) :=
  log.kept.mergeSort fun a b => decide (a.index ≤ b.index)

def dropped (log : ReportLog R) : Nat := log.cursor.toNat - log.slots.size

end ReportLog

/-- The basis states among `indices` whose rescaled probability exceeds the threshold. -/
def reports {R : Type} [Scalar R] (factor threshold : R) (w : Window R) (indices : List Nat) :
    List (Record R) :=
  let scale := factor * factor
  indices.filterMap fun index =>
    let probability := (w.get index).normSqr * scale
    if Scalar.lt threshold probability then some ⟨index, probability⟩ else none

/-!
## Workgroups
-/

namespace Window

variable {R : Type} [Scalar R]

def workerReports (w : Window R) (job : Job R) (shot : Shot R) (worker : Nat) : List (Record R) :=
  if shot.mode = .extract then
    reports shot.renormalize job.batch.threshold w
      (BasisIndex.workerItems worker job.layout.entriesPerThread)
  else []

/-- The reports of a workgroup, worker by worker. -/
def workgroupReports (w : Window R) (job : Job R) (shot : Shot R) (workgroup : Nat) :
    List (Record R) :=
  (BasisIndex.workerItems workgroup threadsPerWorkgroup).flatMap (w.workerReports job shot)

def runWorker (w : Window R) (job : Job R) (shot : Shot R) (op : Op R) (worker : Nat) :
    Window R × List (Visit R) :=
  sweep (.ofShot shot op)
    (groups shot.mode op.q1 op.q2 op.q3 job.layout.entriesPerThread worker) w

def runWorkers (job : Job R) (shot : Shot R) (op : Op R) :
    List Nat → Window R → Window R × List (List (Visit R))
  | [], w => (w, [])
  | worker :: rest, w =>
    let (w, visits) := w.runWorker job shot op worker
    let (w, threads) := runWorkers job shot op rest w
    (w, visits :: threads)

def runWorkgroup (w : Window R) (job : Job R) (shot : Shot R) (workgroup : Nat) :
    Window R × Sums R :=
  let op := job.ops[shot.opIdx]?.getD default
  let workers := BasisIndex.workerItems workgroup threadsPerWorkgroup
  let (w, threads) := runWorkers job shot op workers w
  (w, Sums.ofThreads shot.collects job.batch.qubits threads)

end Window

/-- Amplitudes, and the log shared by the workgroups that visit them in sequence. -/
structure Bench (R : Type) where
  window : Window R
  log : ReportLog R

/-- Runs one workgroup. Reports change no amplitude, so they are made first. -/
def Bench.runWorkgroup {R : Type} [Scalar R] (b : Bench R) (job : Job R) (shot : Shot R)
    (workgroup : Nat) : Bench R × Sums R :=
  let log := (b.window.workgroupReports job shot workgroup).foldl ReportLog.push b.log
  let (window, sums) := b.window.runWorkgroup job shot workgroup
  (⟨window, log⟩, sums)

end ShotSim
