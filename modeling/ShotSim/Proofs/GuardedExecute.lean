import Mathlib.Data.List.Basic
import ShotSim.Proofs.GuardedIndex
import ShotSim.Proofs.Workgroups

/-!
# Guarded execution — a step that checks every access to the amplitudes

A step loads an operator, finds the amplitudes of each group in the stretch that it was given, puts
the new ones back and adds up what it has seen.  Here all of this is done with checked indices.
Nothing is stopped if the step was decided on by a shot: then its qubits are distinct and in the
circuit, its operation is one of the program, and its operator has the size of the groups.

* `Shot.Sound` — what a step relies on;
* `load_eq`, `apply_eq` — the operator of a step, and its application to a group;
* `sweep_eq` — groups one after another;
* `runWorkgroup_eq`, `execute_eq` — workgroups, on the whole block or on their own stretches.
-/

namespace ShotSim

open BasisIndex

variable {R : Type} [Scalar R]

/-! ## Operators -/

def groupCapacity : Nat := 8

/-- The dimension is at most that of the largest group, and exchanged members are within it. -/
structure Operator.Sound {R : Type} (operator : Operator R) : Prop where
  dim_le : operator.dim ≤ groupCapacity
  members : ∀ a b, operator.shape = .swap a b → a < operator.dim ∧ b < operator.dim

theorem Mode.arity_ofArity {k : Nat} (h : 0 < (ofArity k).arity) : (ofArity k).arity = k := by
  match k, h with
  | 1, _ | 2, _ | 3, _ => rfl
  | 0, h | _ + 4, h => exact absurd h (Nat.lt_irrefl 0)

namespace Shot

variable {s : Shot R} (h : s.selected ≠ .pauli2) (hgate : 0 < s.mode.arity) (op : Op R)

include h hgate

/-- The operator of a step has the dimension of its mode. -/
theorem dim_operator : (s.operator op).dim = 2 ^ s.mode.arity := by
  cases hselected : s.selected with
  | injected =>
      have hmode : s.mode = .ofArity s.injectedArity := by rw [mode, hselected]
      rw [hmode] at hgate ⊢
      rw [Mode.arity_ofArity hgate, operator, hselected]
      rfl
  | pauli2 => exact absurd hselected h
  | reset | mEveryZ | id | parallelStart | parallelEnd | unknown =>
      rw [mode, hselected] at hgate
      cases hgate
  | _ =>
      rw [mode, operator, hselected]
      rfl

theorem sound_operator : (s.operator op).Sound := by
  have hdim := dim_operator h hgate op
  refine ⟨?_, ?_⟩
  · rw [hdim]
    exact Nat.pow_le_pow_right (by omega) s.mode.arity_le
  · intro a b hswap
    rw [operator] at hswap ⊢
    split at hswap
    · cases hswap
    · unfold Operator.ofGate at hswap ⊢
      split at hswap <;> cases hswap <;> simp

end Shot

namespace Guarded

def dim (s : Shot R) (op : Op R) : Guarded Nat :=
  if s.selected = .injected then shl indexBits 1 s.injectedArity else return (s.operator op).dim

def load (s : Shot R) (op : Op R) : Guarded (Operator R) := do
  let dim ← dim s op
  demand (dim * dim ≤ coeffCapacity) (.range coeffCapacity 0 (dim * dim))
  return { s.operator op with dim := dim }

def apply (operator : Operator R) (amps : List (Cplx R)) : Guarded (List (Cplx R)) := do
  let dim := operator.dim
  demand (amps.length = dim) (.lengths amps.length dim)
  match operator.shape with
  | .swap a b =>
    demand (a < amps.length) (.index amps.length a)
    demand (b < amps.length) (.index amps.length b)
  | .diagonal =>
    (List.range amps.length).forM fun i =>
      demand (i * dim + i < coeffCapacity) (.index coeffCapacity (i * dim + i))
  | .dense =>
    -- The group is copied before its members are overwritten.
    demand (dim ≤ groupCapacity) (.range groupCapacity 0 dim)
    (List.range amps.length).forM fun row =>
      demand ((row + 1) * dim ≤ coeffCapacity) (.range coeffCapacity (row * dim) ((row + 1) * dim))
  return operator.apply amps

def act : Action R → List Nat → List (Cplx R) → Guarded (List (Cplx R))
  | .gate operator factor, members, amps => do
    demand (members.length ≤ groupCapacity) (.range groupCapacity 0 members.length)
    apply operator (amps.map (·.scale factor))
  | action, members, amps => return action.act members amps

def action (s : Shot R) (op : Op R) : Guarded (Action R) :=
  match s.mode with
  | .resetAll => return .ground
  | .extract => return .look
  | .scaleOnly => return .rescale s.renormalize
  | .gate1 | .gate2 | .gate3 => do return .gate (← load s op) s.renormalize

/-- Loading the operator of a gate is within bounds. -/
theorem load_eq {s : Shot R} (h : s.selected ≠ .pauli2) (hgate : 0 < s.mode.arity) (op : Op R) :
    load s op = .ok (s.operator op) := by
  have hdim := Shot.dim_operator h hgate op
  have hsound := Shot.sound_operator h hgate op
  have hloaded : dim s op = .ok (s.operator op).dim := by
    unfold dim
    split
    · rename_i hinjected
      -- The shift is by the arity that goes with the operator, which is that of the mode.
      have hpow : (s.operator op).dim = 2 ^ s.injectedArity := by
        rw [Shot.operator, hinjected]
        rfl
      have harity : s.injectedArity = s.mode.arity :=
        Nat.pow_right_injective (Nat.le_refl 2) (hpow.symm.trans hdim)
      have hle := s.mode.arity_le
      rw [shl_one (by rw [harity, indexBits]; omega), Nat.one_shiftLeft, hpow]
    · rfl
  have hroom : (s.operator op).dim * (s.operator op).dim ≤ coeffCapacity :=
    Nat.mul_le_mul hsound.dim_le hsound.dim_le
  rw [load, hloaded, ok_bind, demand_of hroom, ok_bind]
  rfl

/-- Applying a sound operator to a group of its size is within bounds. -/
theorem apply_eq {operator : Operator R} (h : operator.Sound) {amps : List (Cplx R)}
    (hlength : amps.length = operator.dim) : apply operator amps = .ok (operator.apply amps) := by
  have hroom : operator.dim * operator.dim ≤ coeffCapacity := Nat.mul_le_mul h.dim_le h.dim_le
  -- Row `row` ends at coefficient `(row + 1) * dim`, within capacity.
  have hrow : ∀ row ∈ List.range amps.length, (row + 1) * operator.dim ≤ coeffCapacity := by
    intro row hmem
    rw [hlength] at hmem
    exact (Nat.mul_le_mul_right _ (List.mem_range.1 hmem)).trans hroom
  unfold apply
  dsimp only
  rw [demand_of hlength, ok_bind]
  cases hshape : operator.shape with
  | swap a b =>
      obtain ⟨ha, hb⟩ := h.members a b hshape
      dsimp only
      rw [demand_of (hlength ▸ ha), ok_bind, demand_of (hlength ▸ hb), ok_bind]
      rfl
  | diagonal =>
      dsimp only
      rw [forM_eq, ok_bind]
      · rfl
      · intro i hmem
        have hlt : i < operator.dim := hlength ▸ List.mem_range.1 hmem
        have hnext := hrow i hmem
        rw [Nat.succ_mul] at hnext
        exact demand_of (by omega) _
  | dense =>
      dsimp only
      rw [demand_of h.dim_le, ok_bind, forM_eq, ok_bind]
      · rfl
      · intro row hmem
        exact demand_of (hrow row hmem) _

/-- The action of a step is within bounds on groups of its arity. -/
theorem act_ofShot_eq {s : Shot R} (h : s.selected ≠ .pauli2) (op : Op R) {members : List Nat}
    (hmembers : members.length = 2 ^ s.mode.arity) {amps : List (Cplx R)}
    (hamps : amps.length = members.length) :
    act (.ofShot s op) members amps = .ok ((Action.ofShot s op).act members amps) := by
  by_cases hgate : 0 < s.mode.arity
  · have hsound := Shot.sound_operator h hgate op
    have hsize : members.length = (s.operator op).dim :=
      hmembers.trans (Shot.dim_operator h hgate op).symm
    rw [Action.ofShot_of_gate hgate, act, demand_of (hsize ▸ hsound.dim_le), ok_bind]
    exact apply_eq hsound (by rw [List.length_map, hamps, hsize])
  · have hmode : s.mode.arity = 0 := by omega
    cases hshape : s.mode with
    | resetAll | extract | scaleOnly =>
        rw [Action.ofShot, hshape]
        rfl
    | gate1 | gate2 | gate3 =>
        rw [hshape] at hmode
        cases hmode

theorem action_eq {s : Shot R} (h : s.selected ≠ .pauli2) (op : Op R) :
    action s op = .ok (.ofShot s op) := by
  unfold action Action.ofShot
  cases hmode : s.mode with
  | resetAll | extract | scaleOnly => rfl
  | gate1 | gate2 | gate3 =>
      dsimp only
      rw [load_eq h (by rw [hmode]; decide), ok_bind]
      rfl

/-! ## Stretches of amplitudes -/

def fetch (w : Window R) (index : Nat) : Guarded (Cplx R) := do
  read w.amps (← sub index w.base)

def store (w : Window R) (index : Nat) (amp : Cplx R) : Guarded (Window R) := do
  return { w with amps := ← write w.amps (← sub index w.base) amp }

def scatter (w : Window R) : List Nat → List (Cplx R) → Guarded (Window R)
  | index :: members, amp :: amps => do scatter (← store w index amp) members amps
  | _, _ => return w

/-- Adds an amplitude to the sums: slot 0 is the total, slot `q + 1` that of qubit `q`. -/
def note (collect : Bool) (qubitCount index : Nat) : Guarded PUnit :=
  if collect then
    (List.range qubitCount).forM fun q => do
      let bits ← shr indexBits index q
      demand (bits % 2 = 0 ∨ q + 1 < collationQubits + 1) (.index (collationQubits + 1) (q + 1))
  else return ⟨⟩

def sweep (collect : Bool) (qubitCount : Nat) (action : Action R) :
    List (List Nat) → Window R → Guarded (Window R × List (Visit R))
  | [], w => return (w, [])
  | members :: rest, w => do
    let amps ← act action members (← members.mapM (fetch w))
    let after ← scatter w members amps
    members.forM (note collect qubitCount)
    let (w, visits) ← sweep collect qubitCount action rest after
    return (w, members.zipWith (fun index amp => ⟨index, amp.normSqr⟩) amps ++ visits)

def reports (factor threshold : R) (w : Window R) : List Nat → Guarded (List (Record R))
  | [] => return []
  | index :: rest => do
    let probability := (← fetch w index).normSqr * (factor * factor)
    let later ← reports factor threshold w rest
    return if Scalar.lt threshold probability then ⟨index, probability⟩ :: later else later

/-- Fetching an owned amplitude is within bounds. -/
theorem fetch_eq {w : Window R} {index : Nat} (h : w.Owns index) :
    fetch w index = .ok (w.get index) := by
  have hget : w.amps[index - w.base]? = some (w.get index) := by
    simp [Window.get, h.2]
  rw [fetch, sub_of_le h.1, ok_bind, read_of_some hget]

omit [Scalar R] in
/-- Storing an owned amplitude is within bounds. -/
theorem store_eq {w : Window R} {index : Nat} (h : w.Owns index) (amp : Cplx R) :
    store w index amp = .ok (w.set index amp) := by
  rw [store, sub_of_le h.1, ok_bind, write_of_lt h.2, ok_bind]
  rfl

omit [Scalar R] in
/-- Scattering over owned indices is within bounds. -/
theorem scatter_eq {w : Window R} {members : List Nat} (h : ∀ i ∈ members, w.Owns i)
    (amps : List (Cplx R)) : scatter w members amps = .ok (w.scatter members amps) := by
  induction members generalizing w amps with
  | nil => rfl
  | cons index members ih =>
      cases amps with
      | nil => rfl
      | cons amp amps =>
          rw [scatter, store_eq (h index List.mem_cons_self), ok_bind,
            ih (Window.owns_set_of_cons h amp), Window.scatter]

/-- Collating is within bounds up to `collationQubits`. -/
theorem note_eq {qubitCount : Nat} (h : qubitCount ≤ collationQubits) (collect : Bool)
    (index : Nat) : note collect qubitCount index = .ok ⟨⟩ := by
  unfold note
  split
  · apply forM_eq
    intro q hmem
    have hq : q < collationQubits := Nat.lt_of_lt_of_le (List.mem_range.1 hmem) h
    have hshift : q < indexBits := Nat.lt_trans hq (by decide)
    rw [shr_of_lt hshift, ok_bind, demand_of (Or.inr (Nat.succ_lt_succ hq))]
  · rfl

/-- Reporting owned indices is within bounds. -/
theorem reports_eq (factor threshold : R) {w : Window R} {indices : List Nat}
    (h : ∀ i ∈ indices, w.Owns i) :
    reports factor threshold w indices = .ok (ShotSim.reports factor threshold w indices) := by
  induction indices with
  | nil => rfl
  | cons index rest ih =>
      rw [List.forall_mem_cons] at h
      rw [reports, fetch_eq h.1, ok_bind, ih h.2, ok_bind, reports_cons]
      rfl

/-- A sweep over owned groups is within bounds. -/
theorem sweep_eq {collect : Bool} {qubitCount : Nat} (hqubits : qubitCount ≤ collationQubits)
    {action : Action R} {gs : List (List Nat)} {w : Window R}
    (hact : ∀ members ∈ gs, ∀ amps : List (Cplx R), amps.length = members.length →
      act action members amps = .ok (action.act members amps))
    (hown : ∀ i ∈ gs.flatten, w.Owns i) :
    sweep collect qubitCount action gs w = .ok (ShotSim.sweep action gs w) := by
  induction gs generalizing w with
  | nil => rfl
  | cons members rest ih =>
      have hhead := owns_of_mem_head hown
      have hfetch : members.mapM (fetch w) = .ok (members.map w.get) :=
        mapM_eq fun i hi => fetch_eq (hhead i hi)
      have hgroup := hact members List.mem_cons_self (members.map w.get) (by simp)
      have hnote : members.forM (note collect qubitCount) = .ok ⟨⟩ :=
        forM_eq fun i _ => note_eq hqubits collect i
      have hrest := ih (fun other hother => hact other (List.mem_cons_of_mem _ hother))
        (owns_scatter_of_mem_rest hown (action.act members (members.map w.get)))
      rw [sweep, hfetch, ok_bind, hgroup, ok_bind, scatter_eq hhead, ok_bind, hnote, ok_bind, hrest,
        ok_bind]
      rfl

end Guarded

/-! ## Workers -/

/-- Preconditions of executing a prepared step: distinct operands in range, a gate only on an
operation of the program, and no undrawn noise. -/
structure Shot.Sound (shot : Shot R) (job : Job R) : Prop where
  placed : shot.Placed (job.current shot) job.layout.qubitCount
  listed : 0 < shot.mode.arity → shot.opIdx < job.ops.size
  drawn : shot.selected ≠ .pauli2

namespace Guarded

def workerReports (w : Window R) (job : Job R) (shot : Shot R) (worker : Nat) :
    Guarded (List (Record R)) :=
  if shot.mode = .extract then do
    let items ← workerItems worker job.layout.entriesPerThread
    reports shot.renormalize job.batch.threshold w items
  else return []

def runWorker (w : Window R) (job : Job R) (shot : Shot R) (op : Op R) (action : Action R)
    (worker : Nat) : Guarded (Window R × List (Visit R)) := do
  let gs ← groups shot.mode op.q1 op.q2 op.q3 job.layout.entriesPerThread worker
  sweep shot.collects job.batch.qubits action gs w

def runWorkers (job : Job R) (shot : Shot R) (op : Op R) (action : Action R) :
    List Nat → Window R → Guarded (Window R × List (List (Visit R)))
  | [], w => return (w, [])
  | worker :: rest, w => do
    let (w, visits) ← runWorker w job shot op action worker
    let (w, threads) ← runWorkers job shot op action rest w
    return (w, visits :: threads)

def workersOf (workgroup : Nat) : Guarded (List Nat) :=
  (List.range threadsPerWorkgroup).mapM fun thread =>
    fit wordBits (workgroup * threadsPerWorkgroup + thread)

def workgroupReports (w : Window R) (job : Job R) (shot : Shot R) (workgroup : Nat) :
    Guarded (List (Record R)) := do
  let told ← (← workersOf workgroup).mapM (workerReports w job shot)
  return told.flatten

def runWorkgroup (w : Window R) (job : Job R) (shot : Shot R) (workgroup : Nat) :
    Guarded (Window R × Sums R) := do
  let op := job.ops[shot.opIdx]?.getD default
  let action ← action shot op
  let (w, threads) ← runWorkers job shot op action (← workersOf workgroup) w
  return (w, Sums.ofThreads shot.collects job.batch.qubits threads)

section Workers

variable {job : Job R} {shot : Shot R} {e w : Nat} (ht : job.layout.Tiled e w)
  (hsize : job.layout.qubitCount ≤ maxQubitCount) (hqubits : job.batch.qubits ≤ maxQubitCount)
  (hsound : shot.Sound job)

include ht hsize hqubits hsound

omit [Scalar R] hqubits hsound in
/-- The items of every worker fit a word. -/
theorem workerItems_le {worker : Nat}
    (hworker : worker < job.layout.workgroups * threadsPerWorkgroup) :
    (worker + 1) * job.layout.entriesPerThread ≤ 2 ^ wordBits := by
  have hle := Nat.mul_le_mul_right job.layout.entriesPerThread hworker
  rw [Nat.mul_assoc, Nat.mul_comm threadsPerWorkgroup, ← Layout.entriesPerWorkgroup,
    ht.workgroups_mul] at hle
  exact hle.trans (Nat.pow_le_pow_right (by omega) (hsize.trans (by decide)))

omit hqubits hsound in
theorem workerReports_eq {v : Window R} {worker : Nat}
    (hworker : worker < job.layout.workgroups * threadsPerWorkgroup)
    (hown : ∀ i ∈ (job.workerShare shot worker).flatten, v.Owns i) :
    workerReports v job shot worker = .ok (v.workerReports job shot worker) := by
  have hitems := Nat.lt_of_le_of_lt (workerItems_le ht hsize hworker)
    (by decide : 2 ^ wordBits < 2 ^ indexBits)
  rw [workerReports, Window.workerReports]
  split
  · rename_i hmode
    have hshare : (job.workerShare shot worker).flatten =
        BasisIndex.workerItems worker job.layout.entriesPerThread := by
      simp [Job.workerShare, hmode, ShotSim.groups, ← List.flatMap_def]
    rw [workerItems_eq hitems, ok_bind, reports_eq _ _ (hshare ▸ hown)]
  · rfl

/-- A worker whose share is owned runs within bounds. -/
theorem runWorker_eq {v : Window R} {worker : Nat}
    (hworker : worker < job.layout.workgroups * threadsPerWorkgroup)
    (hown : ∀ i ∈ (job.workerShare shot worker).flatten, v.Owns i) :
    runWorker v job shot (job.current shot) (job.action shot) worker =
      .ok (v.runWorker job shot (job.current shot) worker) := by
  have hcollation : job.batch.qubits ≤ collationQubits := hqubits.trans (by decide)
  have hgroups := groups_eq hsound.placed.nodup
    (fun q hq => Nat.lt_of_lt_of_le (hsound.placed.lt q hq) (hsize.trans (by decide)))
    (workerItems_le ht hsize hworker)
  have hlengths : ∀ members ∈ job.workerShare shot worker,
      members.length = 2 ^ shot.mode.arity := by
    intro members hmem
    rw [Job.workerShare, groups_eq_map_group shot.mode (job.current shot) hsound.placed.nodup]
      at hmem
    obtain ⟨item, _, rfl⟩ := List.mem_map.1 hmem
    rw [length_group, Mode.length_operands]
  have hsweep : sweep shot.collects job.batch.qubits (job.action shot) (job.workerShare shot worker)
      v = .ok (ShotSim.sweep (job.action shot) (job.workerShare shot worker) v) := by
    apply sweep_eq hcollation _ hown
    intro members hmem amps hamps
    exact act_ofShot_eq hsound.drawn (job.current shot) (hlengths members hmem) hamps
  rw [runWorker, hgroups, ok_bind]
  exact hsweep

/-- A sequence of workers runs within bounds; ownership is invariant. -/
theorem runWorkers_eq {workers : List Nat} {v : Window R}
    (hworkers : ∀ worker ∈ workers, worker < job.layout.workgroups * threadsPerWorkgroup)
    (hown : ∀ i ∈ (workers.flatMap (job.workerShare shot)).flatten, v.Owns i) :
    runWorkers job shot (job.current shot) (job.action shot) workers v =
      .ok (Window.runWorkers job shot (job.current shot) workers v) := by
  induction workers generalizing v with
  | nil => rfl
  | cons worker rest ih =>
      rw [List.flatMap_cons, List.flatten_append] at hown
      have hfirst := runWorker_eq ht hsize hqubits hsound (hworkers worker List.mem_cons_self)
        fun i hi => hown i (List.mem_append_left _ hi)
      have hrest := @ih (v.runWorker job shot (job.current shot) worker).1
        (fun other hother => hworkers other (List.mem_cons_of_mem _ hother)) (by
          intro i hi
          rw [Window.runWorker_eq, owns_sweep]
          exact hown i (List.mem_append_right _ hi))
      rw [runWorkers, hfirst, ok_bind]
      dsimp only
      rw [hrest, ok_bind]
      rfl

omit [Scalar R] hqubits hsound in
/-- Worker numbers fit a word. -/
theorem workersOf_eq {workgroup : Nat} (hworkgroup : workgroup < job.layout.workgroups) :
    workersOf workgroup = .ok (BasisIndex.workerItems workgroup threadsPerWorkgroup) := by
  have hlast :
      (workgroup + 1) * threadsPerWorkgroup ≤ job.layout.workgroups * threadsPerWorkgroup :=
    Nat.mul_le_mul_right _ hworkgroup
  rw [Nat.succ_mul] at hlast
  have hcount : job.layout.workgroups * threadsPerWorkgroup ≤ 2 ^ wordBits := by
    have hle : w + 5 ≤ maxQubitCount := by
      have hqubitCount := ht.qubits
      omega
    rw [ht.workgroups, show threadsPerWorkgroup = 2 ^ 5 by rfl, ← Nat.pow_add]
    exact Nat.pow_le_pow_right (by omega) (hle.trans (by decide))
  rw [workersOf, BasisIndex.workerItems, List.range'_eq_map_range]
  apply mapM_eq
  intro thread hthread
  have hlt := List.mem_range.1 hthread
  exact fit_of_lt (by omega)

omit [Scalar R] ht hsize hqubits hsound in
theorem lt_of_mem_workerItems {workgroup : Nat} (hworkgroup : workgroup < job.layout.workgroups) :
    ∀ worker ∈ BasisIndex.workerItems workgroup threadsPerWorkgroup,
      worker < job.layout.workgroups * threadsPerWorkgroup := by
  intro worker hworker
  have hlast :
      (workgroup + 1) * threadsPerWorkgroup ≤ job.layout.workgroups * threadsPerWorkgroup :=
    Nat.mul_le_mul_right _ hworkgroup
  rw [Nat.succ_mul] at hlast
  have hrange := (List.mem_range'_1.1 hworker).2
  omega

omit hqubits hsound in
/-- A workgroup whose share is owned reports within bounds. -/
theorem workgroupReports_eq {v : Window R} {workgroup : Nat}
    (hworkgroup : workgroup < job.layout.workgroups)
    (hown : ∀ i ∈ (job.share shot workgroup).flatten, v.Owns i) :
    workgroupReports v job shot workgroup = .ok (v.workgroupReports job shot workgroup) := by
  have hworkers : (BasisIndex.workerItems workgroup threadsPerWorkgroup).mapM
      (workerReports v job shot) =
        .ok ((BasisIndex.workerItems workgroup threadsPerWorkgroup).map
          (v.workerReports job shot)) := by
    apply mapM_eq
    intro worker hworker
    apply workerReports_eq ht hsize (lt_of_mem_workerItems hworkgroup worker hworker)
    intro i hi
    obtain ⟨g, hg, hig⟩ := List.mem_flatten.1 hi
    exact hown i (List.mem_flatten.2 ⟨g, List.mem_flatMap.2 ⟨worker, hworker, hg⟩, hig⟩)
  rw [workgroupReports, workersOf_eq ht hsize hworkgroup, ok_bind, hworkers, ok_bind,
    Window.workgroupReports, List.flatMap_def]
  rfl

/-- A workgroup whose share is owned runs within bounds. -/
theorem runWorkgroup_eq {v : Window R} {workgroup : Nat}
    (hworkgroup : workgroup < job.layout.workgroups)
    (hown : ∀ i ∈ (job.share shot workgroup).flatten, v.Owns i) :
    runWorkgroup v job shot workgroup = .ok (v.runWorkgroup job shot workgroup) := by
  have hrun := runWorkers_eq ht hsize hqubits hsound (lt_of_mem_workerItems hworkgroup) hown
  have haction := action_eq hsound.drawn (job.current shot)
  rw [Job.current] at haction hrun
  rw [runWorkgroup]
  dsimp only
  rw [haction, ok_bind, workersOf_eq ht hsize hworkgroup, ok_bind]
  rw [Job.action, Job.current] at hrun
  rw [hrun, ok_bind]
  rfl

end Workers

/-! ## The step of a lane -/

/-- Whether every workgroup stays within its own shard. Only gates read their operation. -/
def fitsShard (job : Job R) (shot : Shot R) : Guarded Bool :=
  if shot.mode.isContiguous then return true
  else do
    let op ← read job.ops shot.opIdx
    return ([op.q1, op.q2, op.q3].take shot.mode.arity).all fun q =>
      decide (q < job.layout.shardBits)

def runWhole (job : Job R) (shot : Shot R) :
    List Nat → Bench R → Guarded (Bench R × List (Sums R))
  | [], b => return (b, [])
  | workgroup :: rest, b => do
    let told ← workgroupReports b.window job shot workgroup
    let (window, sums) ← runWorkgroup b.window job shot workgroup
    let (b, more) ← runWhole job shot rest ⟨window, told.foldl ReportLog.push b.log⟩
    return (b, sums :: more)

/-- The shard of a workgroup, with indices of the whole shot. -/
def shard (job : Job R) (block : Array (Cplx R)) (workgroup : Nat) : Guarded (Window R) := do
  let size := job.layout.entriesPerWorkgroup
  let base ← fit indexBits (workgroup * size)
  return ⟨base, ← slice block base (base + size)⟩

def runShards (job : Job R) (shot : Shot R) (block : Array (Cplx R)) :
    List Nat → Guarded (Array (Cplx R) × List (Sums R))
  | [] => return (#[], [])
  | workgroup :: rest => do
    let (own, sums) ← runWorkgroup (← shard job block workgroup) job shot workgroup
    let (amps, more) ← runShards job shot block rest
    return (own.amps ++ amps, sums :: more)

def shardReports (job : Job R) (shot : Shot R) (block : Array (Cplx R)) :
    Guarded (List (Record R)) := do
  let queues ← (List.range job.layout.workgroups).mapM fun workgroup => do
    workgroupReports (← shard job block workgroup) job shot workgroup
  return interleave (job.schedule shot.id shot.opIdx) queues

def execute (lane : Lane R) (job : Job R) : Guarded (Lane R) := do
  let workgroups := List.range job.layout.workgroups
  if ← fitsShard job lane.shot then
    demand (0 < job.layout.entriesPerWorkgroup) .pieces
    let (block, sums) ← runShards job lane.shot lane.block workgroups
    let told ← shardReports job lane.shot lane.block
    let owned := job.layout.workgroups * job.layout.entriesPerWorkgroup
    let rest := lane.block.extract owned lane.block.size
    return { lane with
      block := block ++ rest
      sums := sums.toArray
      log := told.foldl ReportLog.push lane.log }
  else
    let (b, sums) ← runWhole job lane.shot workgroups ⟨⟨0, lane.block⟩, lane.log⟩
    return { lane with block := b.window.amps, sums := sums.toArray, log := b.log }

section Steps

variable {job : Job R} {shot : Shot R} {e w : Nat} (ht : job.layout.Tiled e w)
  (hsize : job.layout.qubitCount ≤ maxQubitCount) (hqubits : job.batch.qubits ≤ maxQubitCount)
  (hsound : shot.Sound job)

theorem fitsShard_eq (h : shot.Sound job) : fitsShard job shot = .ok (Lane.fitsShard job shot) := by
  unfold fitsShard Lane.fitsShard
  cases hmode : shot.mode.isContiguous with
  | true => rfl
  | false =>
      have hgate : 0 < shot.mode.arity := by
        rw [Mode.isContiguous, decide_eq_false_iff_not] at hmode
        omega
      have hop : job.ops[shot.opIdx]? = some (job.ops[shot.opIdx]?.getD default) := by
        rw [Array.getElem?_eq_getElem (h.listed hgate), Option.getD_some]
      rw [if_neg Bool.false_ne_true, read_of_some hop, ok_bind]
      rfl

include ht hsize hqubits hsound

/-- A sequence of workgroups runs within bounds on the whole block. -/
theorem runWhole_eq {order : List Nat} {b : Bench R} (horder : ∀ workgroup ∈ order,
      workgroup < job.layout.workgroups)
    (hown : ∀ i ∈ (order.flatMap (job.share shot)).flatten, b.window.Owns i) :
    runWhole job shot order b = .ok (Lane.runWhole job shot order b) := by
  induction order generalizing b with
  | nil => rfl
  | cons workgroup rest ih =>
      rw [List.flatMap_cons, List.flatten_append] at hown
      have hhead : ∀ i ∈ (job.share shot workgroup).flatten, b.window.Owns i :=
        fun i hi => hown i (List.mem_append_left _ hi)
      have hin := horder workgroup List.mem_cons_self
      have hrest := @ih (b.runWorkgroup job shot workgroup).1
        (fun other hother => horder other (List.mem_cons_of_mem _ hother)) (by
          intro i hi
          rw [Bench.runWorkgroup_window, owns_sweep]
          exact hown i (List.mem_append_right _ hi))
      rw [runWhole, workgroupReports_eq ht hsize hin hhead, ok_bind,
        runWorkgroup_eq ht hsize hqubits hsound hin hhead, ok_bind]
      dsimp only
      rw [Bench.runWorkgroup] at hrest
      dsimp only at hrest
      rw [hrest, ok_bind]
      rfl

variable {block : Array (Cplx R)} (hblock : block.size = job.layout.entriesPerShot)

include hblock

omit [Scalar R] hqubits hsound in
/-- Cutting a shard out of the block is within bounds. -/
theorem shard_eq {workgroup : Nat} (hin : workgroup < job.layout.workgroups) :
    shard job block workgroup = .ok (job.layout.shard block workgroup) := by
  have hstop : workgroup * job.layout.entriesPerWorkgroup + job.layout.entriesPerWorkgroup ≤
      block.size := by
    rw [hblock, ← ht.workgroups_mul, ← Nat.succ_mul]
    exact Nat.mul_le_mul_right _ hin
  have hbase : workgroup * job.layout.entriesPerWorkgroup < 2 ^ indexBits := by
    have hshot : job.layout.entriesPerShot ≤ 2 ^ maxQubitCount :=
      Nat.pow_le_pow_right (by omega) hsize
    have hroom : 2 ^ maxQubitCount < 2 ^ indexBits := by decide
    omega
  rw [shard, fit_of_lt hbase, ok_bind, slice_of_le (Nat.le_add_right _ _) hstop, ok_bind]
  rfl

/-- When a step fits its shards, the workgroups run within bounds on them. -/
theorem runShards_eq (hfits : Lane.fitsShard job shot = true) {order : List Nat}
    (horder : ∀ workgroup ∈ order, workgroup < job.layout.workgroups) :
    runShards job shot block order = .ok (Lane.runShards job shot block order) := by
  induction order with
  | nil => rfl
  | cons workgroup rest ih =>
      have hin := horder workgroup List.mem_cons_self
      have hfirst := runWorkgroup_eq ht hsize hqubits hsound hin
        (owns_shard_of_mem_share ht hsound.placed hfits hblock hin)
      have hrest := ih fun other hother => horder other (List.mem_cons_of_mem _ hother)
      rw [runShards, shard_eq ht hsize hblock hin, ok_bind, hfirst, ok_bind]
      dsimp only
      rw [hrest, ok_bind]
      rfl

omit hqubits in
theorem shardReports_eq (hfits : Lane.fitsShard job shot = true) :
    shardReports job shot block = .ok (Lane.shardReports job shot block) := by
  have hqueues : ((List.range job.layout.workgroups).mapM fun workgroup => do
      workgroupReports (← shard job block workgroup) job shot workgroup) =
        .ok ((List.range job.layout.workgroups).map fun workgroup =>
          (job.layout.shard block workgroup).workgroupReports job shot workgroup) := by
    apply mapM_eq
    intro workgroup hworkgroup
    have hin := List.mem_range.1 hworkgroup
    rw [shard_eq ht hsize hblock hin, ok_bind]
    exact workgroupReports_eq ht hsize hin
      (owns_shard_of_mem_share ht hsound.placed hfits hblock hin)
  rw [shardReports, hqueues, ok_bind]
  rfl

end Steps

/-- A sound step executes without a breach. -/
theorem execute_eq {lane : Lane R} {job : Job R} {e w : Nat} (ht : job.layout.Tiled e w)
    (hsize : job.layout.qubitCount ≤ maxQubitCount) (hqubits : job.batch.qubits ≤ maxQubitCount)
    (hsound : lane.shot.Sound job) (hblock : lane.block.size = job.layout.entriesPerShot) :
    execute lane job = .ok (lane.execute job) := by
  have hall : ∀ workgroup ∈ List.range job.layout.workgroups, workgroup < job.layout.workgroups :=
    fun _ hmem => List.mem_range.1 hmem
  rw [execute]
  dsimp only
  rw [fitsShard_eq hsound, ok_bind, Lane.execute]
  cases hfits : Lane.fitsShard job lane.shot with
  | true =>
      have hpieces : 0 < job.layout.entriesPerWorkgroup := by
        rw [ht.entriesPerWorkgroup]
        exact Nat.two_pow_pos _
      rw [if_pos rfl, if_pos rfl, demand_of hpieces, ok_bind,
        runShards_eq ht hsize hqubits hsound hblock hfits hall, ok_bind,
        shardReports_eq ht hsize hsound hblock hfits, ok_bind]
      rfl
  | false =>
      have hwhole := runWhole_eq (b := ⟨⟨0, lane.block⟩, lane.log⟩) ht hsize hqubits hsound hall
        (owns_of_mem_shares ht hsound.placed hblock)
      rw [if_neg Bool.false_ne_true, if_neg Bool.false_ne_true, hwhole, ok_bind]
      rfl

end Guarded

end ShotSim
