import Mathlib.Data.List.Basic
import ShotSim.Proofs.FreshStart
import ShotSim.Proofs.Execute
import ShotSim.Proofs.Weave

/-!
# Freshness — the probabilities that a step reads are never stale

A shot keeps the probabilities of its qubits from step to step, but most steps change the amplitudes
without bringing them up to date.  They are brought up to date just before they are read.

* `Shot.Consults` — the operation looks at the probabilities of a qubit;
* `Shot.reweigh`, `resolve_reweigh` — an operation that does not look at them decides the same
  whatever they are;
* `Job.collation`, `sums_execute` — a step leaves the sums of the block as it then stands;
* `Shot.Consults.readsProbabilities_eq_true` — the step before has been told to collect;
* `probabilities_fresh` — what is read is what those sums say.
-/

namespace ShotSim

open BasisIndex

variable {R : Type} [Scalar R]

/-! ## Looking at the probabilities of a qubit -/

namespace Shot

/-- Resolving `op` reads the probabilities of qubit `q`: for a measurement, a reset, a loss that
fires or a decay that is due. -/
def Consults (s : Shot R) (job : Job R) (op : Op R) (q : Nat) : Prop :=
  q = op.q1 ∧ validQubits job.batch.qubits op.qubits = true ∧ op.qubits.any s.isLost = false ∧
    (op.code = .mz ∨ op.code = .mResetZ ∨ op.code = .reset ∨
      op.code = .loss ∧ Scalar.lt s.draws.loss op.lossProbability = true ∨
      op.code.takesDecay = true ∧ job.idle.isDue (s.qubit q) = true)

/-- The control block with other probabilities for qubit `q`. -/
def reweigh (q : Nat) (zero one : R) (s : Shot R) : Shot R :=
  { s with qubits := s.qubits.mapIdx fun i state =>
      if i = q then { state with zero := zero, one := one } else state }

section Reweigh

variable (q : Nat) (zero one : R) (s : Shot R)

omit [Scalar R] in
/-- `reweigh` changes the probabilities of qubit `q` only. -/
theorem getElem?_qubits_reweigh (p : Nat) :
    (s.reweigh q zero one).qubits[p]? =
      s.qubits[p]?.map fun state =>
        if p = q then { state with zero := zero, one := one } else state := by
  simp [reweigh]

theorem qubit_reweigh_of_ne {p : Nat} (h : p ≠ q) : (s.reweigh q zero one).qubit p = s.qubit p := by
  rw [qubit, qubit, getElem?_qubits_reweigh]
  simp [h]

theorem idle_qubit_reweigh (p : Nat) :
    ((s.reweigh q zero one).qubit p).idle = (s.qubit p).idle := by
  rw [qubit, qubit, getElem?_qubits_reweigh]
  cases s.qubits[p]? with
  | none => rfl
  | some state =>
      simp only [Option.map_some, Option.getD_some]
      split <;> rfl

omit [Scalar R] in
theorem setQubit_reweigh_of_ne {p : Nat} (h : p ≠ q) (state : QubitState R) :
    (s.reweigh q zero one).setQubit p state = (s.setQubit p state).reweigh q zero one := by
  have hqubits : (s.qubits.mapIdx fun i old =>
        if i = q then { old with zero := zero, one := one } else old).setIfInBounds p state =
      (s.qubits.setIfInBounds p state).mapIdx fun i old =>
        if i = q then { old with zero := zero, one := one } else old := by
    ext i hi
    simp only [Vector.getElem_setIfInBounds, Vector.getElem_mapIdx]
    -- Entry `p` is replaced, and it is not the one that has been reweighed.
    by_cases hp : p = i
    · simp [hp, hp ▸ h]
    · simp [hp]
  exact congrArg (fun qubits => { s with qubits := qubits }) hqubits

omit [Scalar R] in
/-- A map over the qubits that ignores probabilities commutes with `reweigh`. -/
theorem mapQubits_reweigh (count : Nat) {f : Nat → QubitState R → QubitState R}
    (h : ∀ i state, f i { state with zero := zero, one := one } =
      { f i state with zero := zero, one := one }) :
    (s.reweigh q zero one).mapQubits count f = (s.mapQubits count f).reweigh q zero one := by
  have hqubits : ((s.qubits.mapIdx fun i old =>
        if i = q then { old with zero := zero, one := one } else old).mapIdx fun i state =>
          if i < count then f i state else state) =
      (s.qubits.mapIdx fun i state => if i < count then f i state else state).mapIdx fun i old =>
        if i = q then { old with zero := zero, one := one } else old := by
    ext i hi
    simp only [Vector.getElem_mapIdx]
    split <;> split <;> simp [h]
  exact congrArg (fun qubits => { s with qubits := qubits }) hqubits

/-- Collapsing another qubit commutes with `reweigh`. -/
theorem collapse_reweigh {p : Nat} (h : p ≠ q) (reset : Bool) :
    (s.reweigh q zero one).collapse p reset = (s.collapse p reset).reweigh q zero one := by
  unfold collapse readsOne
  rw [qubit_reweigh_of_ne q zero one s h]
  dsimp only
  rw [setQubit_reweigh_of_ne q zero one s h]
  rfl

/-- Single-qubit Pauli noise commutes with `reweigh`. -/
theorem applyPauli1_reweigh (op : Op R) :
    (s.reweigh q zero one).applyPauli1 op = (s.applyPauli1 op).reweigh q zero one := by
  unfold applyPauli1
  dsimp only
  rw [apply_ite (reweigh q zero one)]
  rfl

/-- Two-qubit Pauli noise commutes with `reweigh`. -/
theorem applyPauli2_reweigh (op : Op R) :
    (s.reweigh q zero one).applyPauli2 op = (s.applyPauli2 op).reweigh q zero one := by
  unfold applyPauli2
  dsimp only
  rw [apply_ite (reweigh q zero one)]
  rfl

/-- Loss commutes with `reweigh`, unless it hits `q`. -/
theorem applyLoss_reweigh {op : Op R}
    (h : op.q1 = q → Scalar.lt s.draws.loss op.lossProbability = false) :
    (s.reweigh q zero one).applyLoss op = (s.applyLoss op).reweigh q zero one := by
  have hdraws : (s.reweigh q zero one).draws = s.draws := rfl
  unfold applyLoss
  rw [hdraws]
  split
  · rename_i hfires
    have hne : op.q1 ≠ q := by
      intro hq
      rw [h hq] at hfires
      cases hfires
    exact collapse_reweigh q zero one { s with lost := s.lost ||| 1 <<< op.q1 } hne true
  · rfl

/-- Decay injection commutes with `reweigh`, unless `q` is the operand and is due. -/
theorem injectDecay_reweigh (params : IdleParams R) {op : Op R}
    (h : op.q1 = q → params.isDue (s.qubit q) = false) :
    (s.reweigh q zero one).injectDecay params op =
      (s.injectDecay params op).reweigh q zero one := by
  have hdue : params.isDue ((s.reweigh q zero one).qubit op.q1) = params.isDue (s.qubit op.q1) := by
    rw [IdleParams.isDue, IdleParams.isDue, idle_qubit_reweigh]
  unfold injectDecay
  dsimp only
  rw [hdue]
  split
  · rename_i hisDue
    have hne : op.q1 ≠ q := by
      intro hq
      rw [hq, h hq] at hisDue
      cases hisDue
    rw [qubit_reweigh_of_ne q zero one s hne, ← setQubit_reweigh_of_ne q zero one _ hne]
    rfl
  · rfl

theorem charge_reweigh (busy : Nat) (duration : R) (n : Nat) :
    (s.reweigh q zero one).charge busy duration n =
      (s.charge busy duration n).reweigh q zero one := by
  unfold charge
  dsimp only
  split
  · rfl
  · rw [mapQubits_reweigh]
    · rfl
    · intro i state
      split <;> rfl

/-- Idle time accounting commutes with `reweigh`. -/
theorem accrue_reweigh (op : Op R) (params : IdleParams R) (n : Nat) :
    (s.reweigh q zero one).accrue op params n = (s.accrue op params n).reweigh q zero one := by
  have hregion : (s.reweigh q zero one).region = s.region := rfl
  unfold accrue
  rw [hregion]
  split
  · rw [apply_ite (reweigh q zero one)]
    rfl
  · rw [apply_ite (reweigh q zero one), charge_reweigh]
    rfl
  · dsimp only
    rw [apply_ite (reweigh q zero one), charge_reweigh]
    rfl

end Reweigh

end Shot

namespace Register

/-- The register with other probabilities for qubit `q`. -/
def reweigh (q : Nat) (zero one : R) (r : Register R) : Register R :=
  { r with shot := r.shot.reweigh q zero one }

variable (q : Nat) (zero one : R) (r : Register R) (job : Job R)

/-- Measurement commutes with `reweigh`, unless it reads `q`. -/
theorem measure_reweigh {op : Op R} {lost : Bool} (h : op.q1 = q → lost = true) :
    (r.reweigh q zero one).measure job op lost = (r.measure job op lost).reweigh q zero one := by
  cases lost with
  | true =>
      unfold measure setSlot
      simp only [if_true]
      rw [apply_ite (reweigh q zero one), apply_ite (reweigh q zero one)]
      rfl
  | false =>
      -- The outcome is read off a qubit other than `q`.
      have hne : op.q1 ≠ q := fun hq => Bool.false_ne_true (h hq)
      unfold measure setSlot Shot.readsOne
      simp only [Bool.false_eq_true, if_false]
      rw [apply_ite (reweigh q zero one), apply_ite (reweigh q zero one)]
      simp only [reweigh, Shot.collapse_reweigh q zero one r.shot hne,
        Shot.qubit_reweigh_of_ne q zero one r.shot hne]
      rfl

/-- Branch selection commutes with `reweigh`, unless it reads or loses `q`. -/
theorem select_reweigh {op : Op R} {lost : Bool}
    (hread : op.q1 = q → (op.code = .mz ∨ op.code = .mResetZ ∨ op.code = .reset) → lost = true)
    (hloss : op.q1 = q → op.code = .loss → lost = false →
      Scalar.lt r.shot.draws.loss op.lossProbability = false) :
    (r.reweigh q zero one).select job op lost = (r.select job op lost).reweigh q zero one := by
  unfold select
  split
  case h_6 | h_7 | h_8 =>
    rename_i hcode
    exact measure_reweigh q zero one r job fun hq => hread hq (by simp [hcode])
  case h_9 =>
    cases lost with
    | true => rfl
    | false => exact congrArg (Register.mk · r.slots) (r.shot.applyPauli1_reweigh q zero one op)
  case h_10 =>
    cases lost with
    | true => rfl
    | false => exact congrArg (Register.mk · r.slots) (r.shot.applyPauli2_reweigh q zero one op)
  case h_11 =>
    rename_i hcode
    cases lost with
    | true => rfl
    | false =>
        exact congrArg (Register.mk · r.slots)
          (r.shot.applyLoss_reweigh q zero one fun hq => hloss hq hcode rfl)
  case h_12 => cases lost <;> rfl
  all_goals rfl

/-- A gate with decay leaves the qubit states unchanged before time is accrued. -/
theorem qubits_select_of_takesDecay {op : Op R} (h : op.code.takesDecay = true) (lost : Bool) :
    (r.select job op lost).shot.qubits = r.shot.qubits := by
  -- Measurements and noise take no decay.
  have habsurd : ∀ {code : Opcode} {Q : Prop}, code.takesDecay = false → op.code = code → Q := by
    intro code Q hcode heq
    rw [heq, hcode] at h
    cases h
  exact select_cases (P := fun r' => r'.shot.qubits = r.shot.qubits) r job op lost rfl
    (fun _ => rfl) (fun hcode => hcode.elim (habsurd rfl) (·.elim (habsurd rfl) (habsurd rfl)))
    (habsurd rfl) (habsurd rfl) (fun hcode _ => habsurd rfl hcode)

/-- An operation that does not consult `q` commutes with `reweigh q`. -/
theorem resolve_reweigh {op : Op R} (h : ¬r.shot.Consults job op q) (opIdx : Nat) :
    (r.reweigh q zero one).resolve job op opIdx = (r.resolve job op opIdx).reweigh q zero one := by
  have hlost : (r.reweigh q zero one).shot.isLost = r.shot.isLost := rfl
  unfold resolve
  rw [hlost]
  split
  · rfl
  · split
    · rfl
    · rename_i hvalid
      have hvalid' : validQubits job.batch.qubits op.qubits = true := by simpa using hvalid
      generalize hany : op.qubits.any r.shot.isLost = lost
      -- The operation is valid and its qubits are there, so `h` speaks of its code alone.
      have hselect : (r.reweigh q zero one).select job op lost =
          (r.select job op lost).reweigh q zero one := by
        apply select_reweigh
        · intro hq hcode
          by_contra hpresent
          refine h ⟨hq.symm, hvalid', hany.trans (Bool.eq_false_of_not_eq_true hpresent), ?_⟩
          rcases hcode with hcode | hcode | hcode
          · exact .inl hcode
          · exact .inr (.inl hcode)
          · exact .inr (.inr (.inl hcode))
        · intro hq hcode hpresent
          apply Bool.eq_false_of_not_eq_true
          intro hfires
          exact h ⟨hq.symm, hvalid', hany.trans hpresent, .inr (.inr (.inr (.inl ⟨hcode, hfires⟩)))⟩
      dsimp only
      rw [hselect]
      have hdecay : (if (!lost && op.code.takesDecay) = true then
            ((r.select job op lost).reweigh q zero one).shot.injectDecay job.idle op
          else ((r.select job op lost).reweigh q zero one).shot) =
          (if (!lost && op.code.takesDecay) = true then
            (r.select job op lost).shot.injectDecay job.idle op
          else (r.select job op lost).shot).reweigh q zero one := by
        split
        · rename_i htakes
          rw [Bool.and_eq_true, Bool.not_eq_true'] at htakes
          apply Shot.injectDecay_reweigh
          intro hq
          rw [Shot.qubit, qubits_select_of_takesDecay r job htakes.2]
          apply Bool.eq_false_of_not_eq_true
          intro hdue
          exact h ⟨hq.symm, hvalid', hany.trans htakes.1,
            .inr (.inr (.inr (.inr ⟨htakes.2, hdue⟩)))⟩
        · rfl
      rw [hdecay, Shot.accrue_reweigh]
      rfl

end Register

/-! ## Sums of a block -/

namespace Job

/-- The sums of a workgroup over a block, in the visiting order of the prepared step. -/
def collation (job : Job R) (shot : Shot R) (block : Array (Cplx R)) (workgroup : Nat) : Sums R :=
  Sums.ofThreads shot.collects job.batch.qubits
    ((workerItems workgroup threadsPerWorkgroup).map fun worker =>
      (job.workerShare shot worker).flatten.map fun i => ⟨i, (block.getD i 0).normSqr⟩)

end Job

section Placed

variable {job : Job R} {shot : Shot R} {e w : Nat} (ht : job.layout.Tiled e w)
  (hplaced : shot.Placed (job.current shot) job.layout.qubitCount) {block : Array (Cplx R)}
  (hblock : block.size = job.layout.entriesPerShot)

include ht hplaced hblock

/-- The visited amplitudes of a group are those of the resulting window. -/
theorem visits_eq_map {g : List Nat} (hg : g ∈ job.shares shot) :
    (job.action shot).visits ⟨0, block⟩ g =
      g.map fun i => ⟨i, ((job.blockAfter shot block).getD i 0).normSqr⟩ := by
  have hlength : ((job.action shot).act g (g.map (⟨0, block⟩ : Window R).get)).length = g.length :=
    Action.length_act _ (List.length_map _)
  apply List.ext_getElem?
  intro p
  rw [Action.visits, List.getElem?_zipWith, List.getElem?_map]
  cases hp : g[p]? with
  | none => rfl
  | some i =>
      have hleft := getElem?_act_eq_blockAfter ht hplaced hblock hg hp
      have hin : p < ((job.action shot).act g (g.map (⟨0, block⟩ : Window R).get)).length := by
        rw [hlength]
        exact (List.getElem?_eq_some_iff.1 hp).1
      rw [List.getElem?_eq_getElem hin] at hleft ⊢
      simp [Array.getD_eq_getD_getElem?, ← hleft]

/-- The sums of a workgroup are the collation of the block after the step. -/
theorem shareSums_eq_collation {workgroup : Nat} (h : workgroup < job.layout.workgroups) :
    job.shareSums shot ⟨0, block⟩ workgroup =
      job.collation shot (job.blockAfter shot block) workgroup := by
  unfold Job.shareSums Job.collation
  -- Thread by thread and group by group, in the order in which they are visited.
  congr 1
  apply List.map_congr_left
  intro worker hworker
  rw [List.map_flatten, ← List.flatMap_def]
  apply List.flatMap_congr
  intro g hg
  have hshare : g ∈ job.share shot workgroup := List.mem_flatMap.2 ⟨worker, hworker, hg⟩
  exact visits_eq_map ht hplaced hblock (List.mem_flatMap.2 ⟨workgroup, List.mem_range.2 h, hshare⟩)

end Placed

/-- `execute` leaves the collation of the resulting block. -/
theorem Lane.sums_execute {job : Job R} {lane : Lane R} {e w : Nat} (ht : job.layout.Tiled e w)
    (hplaced : lane.shot.Placed (job.current lane.shot) job.layout.qubitCount)
    (hblock : lane.block.size = job.layout.entriesPerShot) :
    (lane.execute job).sums.toList =
      (List.range job.layout.workgroups).map
        (job.collation lane.shot (lane.execute job).block) := by
  rw [execute_eq ht hplaced hblock]
  apply List.map_congr_left
  intro workgroup hworkgroup
  exact shareSums_eq_collation ht hplaced hblock (List.mem_range.1 hworkgroup)

/-! ## What is read -/

/-- A requested collation sets the probabilities of every qubit of the circuit. -/
theorem Shot.qubit_takeCollation {s : Shot R} (h : s.collects = true) (sums : Array (Sums R))
    {n q : Nat} (hq : q < n) (hcap : q < maxQubitCount) :
    (s.takeCollation sums n).qubit q =
      { s.qubit q with
        one := Scalar.sum (sums.toList.map (·.one q))
        zero := Scalar.max (Scalar.sum (sums.toList.map (·.total)) -
          Scalar.sum (sums.toList.map (·.one q))) 0 } := by
  have hcollects :
      ({ s with renormalize := renormalizer (Scalar.sum (sums.toList.map (·.total))) } :
      Shot R).collects = true := h
  unfold takeCollation
  dsimp only
  rw [if_pos hcollects]
  simp [qubit, mapQubits, hq, hcap]

namespace Shot.Consults

variable {s : Shot R} {job : Job R} {op : Op R} {q : Nat} (h : s.Consults job op q)

include h

theorem lt : q < job.batch.qubits := by
  obtain ⟨rfl, hvalid, _, hcode⟩ := h
  have harity : 0 < op.code.arity := by
    rcases hcode with hcode | hcode | hcode | ⟨hcode, _⟩ | ⟨hcode, _⟩
    · simp [hcode, Opcode.arity]
    · simp [hcode, Opcode.arity]
    · simp [hcode, Opcode.arity]
    · simp [hcode, Opcode.arity]
    · revert hcode
      cases op.code <;> simp [Opcode.takesDecay, Opcode.arity]
  exact q1_lt_of_valid hvalid harity

/-- A restart names a qubit outside every circuit, so it consults none. -/
theorem not_isResetAll (hcap : job.batch.qubits ≤ maxQubitCount) : op.isResetAll = false := by
  have hlt := h.lt
  have hsmall : maxQubitCount < allQubits := by decide
  have hall : op.q1 ≠ allQubits := by
    rw [← h.1]
    omega
  simp [Op.isResetAll, hall]

/-- An operation that consults a qubit is announced by `readsProbabilities`. -/
theorem readsProbabilities_eq_true (hcap : job.batch.qubits ≤ maxQubitCount) {i : Nat}
    (hop : job.ops[i]? = some op) : job.readsProbabilities i = true := by
  have hreset := h.not_isResetAll hcap
  obtain ⟨_, _, _, hcode⟩ := h
  rw [Job.readsProbabilities, hop]
  rcases hcode with hcode | hcode | hcode | ⟨hcode, _⟩ | ⟨_, hdue⟩
  · simp [hcode]
  · simp [hcode]
  · simp [hcode, hreset]
  · simp [hcode]
  · -- A decay can only be due if there are decays at all.
    simp only [IdleParams.isDue, Bool.and_eq_true] at hdue
    simp [hdue.1.1]

end Shot.Consults

namespace Lane

/-- A prepared step collects iff the next operation may read probabilities. -/
theorem collects_prepare {lane : Lane R} {job : Job R} (shotIdx : Nat) {op : Op R}
    (h : job.ops[lane.shot.nextOp]? = some op) :
    (lane.prepare job shotIdx).shot.collects = job.readsProbabilities (lane.shot.nextOp + 1) := by
  rw [prepare, h]
  dsimp only [Shot.collects]
  cases job.readsProbabilities (lane.shot.nextOp + 1) <;> rfl

/-- The sums consulted by an operation were collected by the step before, for the current block. -/
theorem ready_of_consults {job : Job R} {e w : Nat} (ht : job.layout.Tiled e w)
    (hroom : job.batch.qubits ≤ job.layout.qubitCount) (hcap : job.batch.qubits ≤ maxQubitCount)
    {lane : Lane R} (hblock : lane.block.size = job.layout.entriesPerShot) (shotIdx : Nat)
    {op : Op R} (hop : job.ops[lane.shot.nextOp + 1]? = some op) {q : Nat}
    (h : ((lane.step job shotIdx).ready job).Consults job op q) :
    let decided := lane.prepare job shotIdx
    let before := lane.step job shotIdx
    decided.shot.collects = true ∧
      before.sums.toList =
        (List.range job.layout.workgroups).map (job.collation decided.shot before.block) ∧
      (job.shares decided.shot).flatten.Perm (List.range job.layout.entriesPerShot) ∧
      ((before.ready job).qubit q).one = Scalar.sum (before.sums.toList.map (·.one q)) ∧
      ((before.ready job).qubit q).zero =
        Scalar.max (Scalar.sum (before.sums.toList.map (·.total)) -
          Scalar.sum (before.sums.toList.map (·.one q))) 0 := by
  intro decided before
  have hplaced := placed_prepare lane job shotIdx hroom
  have hsize : decided.block.size = job.layout.entriesPerShot := by
    rw [(lane.prepare_frame job shotIdx).1, hblock]
  have hlt : lane.shot.nextOp + 1 < job.ops.size := (Array.getElem?_eq_some_iff.1 hop).1
  have hthis : job.ops[lane.shot.nextOp]? = some (job.ops[lane.shot.nextOp]) :=
    Array.getElem?_eq_getElem (Nat.lt_of_succ_lt hlt)
  have hcollects : decided.shot.collects = true := by
    rw [collects_prepare shotIdx hthis]
    exact h.readsProbabilities_eq_true hcap hop
  -- The flag is still up when the collation is taken in.
  have hflag : before.shot.draw.collects = true := by
    have hshot : before.shot = decided.shot := shot_step lane job shotIdx
    rw [← hcollects, ← hshot]
    rfl
  have hread := Shot.qubit_takeCollation hflag before.sums h.lt (Nat.lt_of_lt_of_le h.lt hcap)
  refine ⟨hcollects, sums_execute ht hplaced hsize, perm_flatten_shares ht hplaced, ?_, ?_⟩
  · exact congrArg QubitState.one hread
  · exact congrArg QubitState.zero hread

end Lane

/-- The probabilities read by a step are never stale. In a batch whose program begins with a
restart, an operation that consults a qubit is not the first one; the sums it reads were collected
by the preceding step, for the current block and with every amplitude counted once, and the
probabilities are those of the sums. Probabilities that are not consulted do not affect the
decision. -/
theorem probabilities_fresh (m : Machine R) {n perWorkgroup : Nat}
    (hlayout : m.layout = .ofCircuit n perWorkgroup) (hmin : minQubitsPerWorkgroup ≤ perWorkgroup)
    (hmax : perWorkgroup ≤ maxQubitsPerWorkgroup) (hfits : m.Fits) (batch : Batch R)
    (hroom : batch.qubits ≤ m.layout.qubitCount) (hcap : batch.qubits ≤ maxQubitCount)
    {first : Op R} (hfirst : m.ops[0]? = some first) (hreset : first.isResetAll = true)
    {shotIdx : Nat} (hshot : shotIdx < batch.shots) {i : Nat} {op : Op R}
    (hop : m.ops[i]? = some op) {lane : Lane R}
    (hlane : ((m.beginBatch batch).run i).lanes[shotIdx]? = some lane) (q : Nat) :
    let job := m.batchJob batch
    let now := lane.ready job
    lane.shot.nextOp = i ∧
    (now.Consults job op q → ∃ j decided, i = j + 1 ∧
      ((m.beginBatch batch).run j).prepare.lanes[shotIdx]? = some decided ∧
      lane = decided.execute job ∧ decided.shot.collects = true ∧
      lane.sums.toList =
        (List.range m.layout.workgroups).map (job.collation decided.shot lane.block) ∧
      (job.shares decided.shot).flatten.Perm (List.range m.layout.entriesPerShot) ∧
      (now.qubit q).one = Scalar.sum (lane.sums.toList.map (·.one q)) ∧
      (now.qubit q).zero =
        Scalar.max (Scalar.sum (lane.sums.toList.map (·.total)) -
          Scalar.sum (lane.sums.toList.map (·.one q))) 0) ∧
    (¬now.Consults job op q → ∀ zero one,
      Register.resolve ⟨now.reweigh q zero one, lane.slots⟩ job op i =
        (Register.resolve ⟨now, lane.slots⟩ job op i).reweigh q zero one) := by
  intro job now
  obtain ⟨e, w, htiled⟩ := Layout.exists_tiled_ofCircuit n hmin hmax
  have ht : job.layout.Tiled e w := by
    rw [← hlayout] at htiled
    exact htiled
  rw [m.getElem?_lanes_run hshot, Option.map_eq_some_iff] at hlane
  obtain ⟨old, hold, rfl⟩ := hlane
  let begun : Lane R := { old with shot := 0 }
  have hbegun : begun.Fits job.layout m.resultsPerShot m.resultCount :=
    (hfits old (Array.mem_of_getElem? hold)).begun
  have hi : i < job.ops.size := (Array.getElem?_eq_some_iff.1 hop).1
  -- Step `i` of a batch is the one for operation `i`.
  have hplace : ∀ count ≤ i, (begun.after job shotIdx count).shot.nextOp = count := by
    intro count hcount
    have hleft : begun.shot.nextOp + count ≤ job.ops.size := by
      have hzero : begun.shot.nextOp = 0 := rfl
      omega
    exact (Lane.nextOp_after shotIdx hleft).trans (Nat.zero_add _)
  refine ⟨hplace i (Nat.le_refl i), ?_, ?_⟩
  · intro hconsults
    cases i with
    | zero =>
        -- The restart is no operation on a qubit.
        obtain rfl : first = op := Option.some.inj (hfirst.symm.trans hop)
        rw [hconsults.not_isResetAll hcap] at hreset
        cases hreset
    | succ j =>
        let reached := begun.after job shotIdx j
        have hstep : begun.after job shotIdx (j + 1) = reached.step job shotIdx :=
          begun.after_add job shotIdx j 1
        have hblock : reached.block.size = job.layout.entriesPerShot :=
          (Lane.fits_after ht hbegun shotIdx j).block
        have hnext : job.ops[reached.shot.nextOp + 1]? = some op := by
          rw [hplace j (Nat.le_succ j)]
          exact hop
        have hdecided : ((m.beginBatch batch).run j).prepare.lanes[shotIdx]? =
            some (reached.prepare job shotIdx) := by
          rw [Machine.prepare, Machine.mapActive, Array.getElem?_mapIdx,
            m.getElem?_lanes_run hshot, hold, Machine.run_eq]
          exact congrArg some (if_pos hshot)
        rw [show now = (reached.step job shotIdx).ready job from congrArg (Lane.ready · job) hstep]
          at hconsults ⊢
        obtain ⟨hcollects, hsums, hall, hone, hzero⟩ :=
          Lane.ready_of_consults ht hroom hcap hblock shotIdx hnext hconsults
        rw [hstep]
        exact ⟨j, reached.prepare job shotIdx, rfl, hdecided, rfl, hcollects, hsums, hall,
          hone, hzero⟩
  · intro hno zero one
    exact Register.resolve_reweigh q zero one ⟨now, _⟩ job hno i

def measuringMachine : Machine Float32 :=
  (Machine.fresh.load [.resetAll, .mz 0 0] 0).prepareRun ⟨1, .ofCircuit 1 12, 1, 4, 1, 1, 1, 2⟩

/-- The measurement of a fresh qubit reads the sums of the restart. -/
theorem probabilities_fresh_measuring :
    let batch : Batch Float32 := ⟨0, 0, 1, 1, 0⟩
    let job := measuringMachine.batchJob batch
    ∃ lane decided, ((measuringMachine.beginBatch batch).run 1).lanes[0]? = some lane ∧
      (measuringMachine.beginBatch batch).prepare.lanes[0]? = some decided ∧
      lane = decided.execute job ∧ decided.shot.collects = true ∧
      ((lane.ready job).qubit 0).one = Scalar.sum (lane.sums.toList.map (·.one 0)) := by
  intro batch job
  have hsize : ((measuringMachine.beginBatch batch).run 1).lanes.size = 1 := by
    rw [(measuringMachine.run_beginBatch_frame batch 1).size]
    simp [measuringMachine, Machine.prepareRun]
  obtain ⟨lane, hlane⟩ : ∃ lane, ((measuringMachine.beginBatch batch).run 1).lanes[0]? =
      some lane :=
    ⟨_, Array.getElem?_eq_getElem (by rw [hsize]; decide)⟩
  -- After the restart no qubit is lost, so the measurement consults its operand.
  have hlost : (lane.ready job).lost = 0 := by
    have hrun := hlane
    rw [Machine.getElem?_lanes_run _ (by decide), Option.map_eq_some_iff] at hrun
    obtain ⟨old, _, rfl⟩ := hrun
    rw [Lane.lost_ready, Lane.after, Lane.after, Lane.shot_step]
    rfl
  have hconsults : (lane.ready job).Consults job (.mz 0 0) 0 := by
    refine ⟨rfl, by decide, ?_, Or.inl rfl⟩
    simp [Op.qubits, Op.mz, Op.bare, Opcode.arity, Shot.isLost, hlost]
  have hfirst : measuringMachine.ops[0]? = some .resetAll := rfl
  have hop : measuringMachine.ops[1]? = some (.mz 0 0) := rfl
  obtain ⟨_, hfresh, _⟩ := probabilities_fresh measuringMachine (n := 1) rfl (by decide) (by decide)
    (Machine.fits_prepareRun _ _) batch (by decide) (by decide) hfirst rfl (by decide) hop hlane 0
  obtain ⟨j, decided, hj, hdecided, hexecute, hcollects, _, _, hone, _⟩ := hfresh hconsults
  obtain rfl : 0 = j := Nat.succ.inj hj
  exact ⟨lane, decided, hlane, hdecided, hexecute, hcollects, hone⟩

end ShotSim
