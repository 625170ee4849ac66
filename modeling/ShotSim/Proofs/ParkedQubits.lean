import Mathlib.Data.List.Basic
import ShotSim.Proofs.Execute
import ShotSim.Proofs.Isolation
import ShotSim.Proofs.NullNumbers

/-!
# Parked qubits — what is out of reach stays in 0

A shot has room for more qubits than a small circuit has, and a qubit that is lost is never
addressed again.  Such qubits are parked: no amplitude in which one of them is set ever counts.

* `SetsParked` — the basis states in which a parked qubit is set;
* `Parked` — their amplitudes are null;
* `Parked.null_of_closed`, `Parked.null_of_empty_row` — the two ways in which a step leaves nulls;
* `Parked.blockAfter` — no step on other qubits changes that, whatever its operator;
* `Parked.blockAfter_of_loses` — a loss parks its qubit;
* `Lane.Sound`, `sound_after` — what holds after every step since the restart;
* `parked_qubits_stay_zero` — what a run can show of it.
-/

namespace ShotSim

open BasisIndex

/-- Basis state `i` sets a parked qubit: one beyond the circuit, or a lost one. -/
def SetsParked (n lost i : Nat) : Prop := ∃ q, i.testBit q = true ∧ (n ≤ q ∨ lost.testBit q = true)

theorem SetsParked.ne_zero {n lost i : Nat} (h : SetsParked n lost i) : i ≠ 0 := by
  rintro rfl
  obtain ⟨q, hq, _⟩ := h
  simp at hq

/-- `SetsParked` is unchanged by writing to qubits that are not parked. -/
theorem SetsParked.place {n lost i : Nat} (h : SetsParked n lost i) {qs : List Nat}
    (hfree : ∀ q ∈ qs, q < n ∧ lost.testBit q = false) (value : Nat) :
    SetsParked n lost (place qs i value) := by
  obtain ⟨q, hset, hparked⟩ := h
  have hout : q ∉ qs := by
    intro hq
    obtain ⟨hlt, hpresent⟩ := hfree q hq
    rcases hparked with hbeyond | hlost
    · omega
    · rw [hpresent] at hlost
      cases hlost
  exact ⟨q, by rw [testBit_place_of_notMem i value hout, hset], hparked⟩

theorem lt_two_pow_of_not_setsParked {n lost i : Nat} (h : ¬SetsParked n lost i) : i < 2 ^ n := by
  apply Nat.lt_pow_two_of_testBit
  intro q hq
  exact Bool.eq_false_of_not_eq_true fun hset => h ⟨q, hset, Or.inl hq⟩

/-- A lost qubit is clear in every index that sets no parked qubit. -/
theorem testBit_of_not_setsParked {n lost i : Nat} (h : ¬SetsParked n lost i) {q : Nat}
    (hq : lost.testBit q = true) : i.testBit q = false :=
  Bool.eq_false_of_not_eq_true fun hset => h ⟨q, hset, Or.inr hq⟩

variable {R : Type} [Scalar R] [Scalar.NullLaws R]

/-! ## Groups of null amplitudes -/

namespace Operator

/-- A row applied to null amplitudes is null. -/
theorem null_row {op : Operator R} {amps : List (Cplx R)} {row : Nat}
    (h : ∀ a col, (a, col) ∈ amps.zipIdx → (op.coeffs.get (row * op.dim + col) * a).Null) :
    (op.row amps row).Null := by
  -- The products are added up from zero, and the sum stays null all along.
  have hfold : ∀ (terms : List (Cplx R × Nat)) (acc : Cplx R), acc.Null →
      (∀ term ∈ terms, (op.coeffs.get (row * op.dim + term.2) * term.1).Null) →
      (terms.foldl (fun acc term =>
        acc + op.coeffs.get (row * op.dim + term.2) * term.1) acc).Null := by
    intro terms
    induction terms with
    | nil => exact fun _ hacc _ => hacc
    | cons term rest ih =>
        intro acc hacc hterms
        rw [List.forall_mem_cons] at hterms
        exact ih _ (hacc.add hterms.1) hterms.2
  exact hfold _ 0 Cplx.null_zero fun term hterm => h term.1 term.2 hterm

/-- Every operator maps null amplitudes to null amplitudes. -/
theorem null_apply (op : Operator R) {amps : List (Cplx R)} (h : ∀ a ∈ amps, a.Null) :
    ∀ a ∈ op.apply amps, a.Null := by
  have hgetD : ∀ i (other : Cplx R), other.Null → (amps.getD i other).Null := by
    intro i other hother
    rw [List.getD_eq_getElem?_getD]
    cases hi : amps[i]? with
    | none => exact hother
    | some a => exact h a (List.mem_of_getElem? hi)
  intro a ha
  unfold apply at ha
  -- A permutation moves amplitudes, a diagonal scales them, a dense operator mixes them.
  split at ha
  · obtain ⟨i, hi, rfl⟩ := List.mem_mapIdx.1 ha
    have hself := h _ (List.getElem_mem hi)
    split
    · exact hgetD _ _ hself
    · split
      · exact hgetD _ _ hself
      · exact hself
  · obtain ⟨i, hi, rfl⟩ := List.mem_mapIdx.1 ha
    exact (h _ (List.getElem_mem hi)).mul_left _
  · obtain ⟨i, hi, rfl⟩ := List.mem_mapIdx.1 ha
    exact null_row fun b col hb => (h b (List.fst_mem_of_mem_zipIdx hb)).mul_right _

end Operator

/-- Every action maps null amplitudes to null amplitudes, except at index 0. -/
theorem Action.null_act (action : Action R) {members : List Nat} {amps : List (Cplx R)}
    (hmembers : action = .ground → ∀ i ∈ members, i ≠ 0) (h : ∀ a ∈ amps, a.Null) :
    ∀ a ∈ action.act members amps, a.Null := by
  intro a ha
  cases action with
  | ground =>
      obtain ⟨i, hi, rfl⟩ := List.mem_map.1 ha
      rw [if_neg (hmembers rfl i hi)]
      exact Cplx.null_zero
  | look => exact h a ha
  | rescale factor =>
      obtain ⟨b, hb, rfl⟩ := List.mem_map.1 ha
      exact (h b hb).scale factor
  | gate operator factor =>
      refine operator.null_apply ?_ a ha
      intro b hb
      obtain ⟨c, hc, rfl⟩ := List.mem_map.1 hb
      exact (h c hc).scale factor

/-! ## Blocks -/

/-- Amplitudes that set a parked qubit are null. -/
def Parked (n lost : Nat) (block : Array (Cplx R)) : Prop :=
  ∀ i, SetsParked n lost i → (block.getD i 0).Null

namespace Parked

section Step

variable {job : Job R} {shot : Shot R} {e w : Nat} (ht : job.layout.Tiled e w)
  (hplaced : shot.Placed (job.current shot) job.layout.qubitCount) {block : Array (Cplx R)}
  (hblock : block.size = job.layout.entriesPerShot)

include ht hplaced hblock

/-- An amplitude is null after a step if the action makes its group null there. -/
theorem null_of_group {i : Nat}
    (h : i < job.layout.entriesPerShot →
      ∀ a, ((job.action shot).act
        ((List.range (2 ^ shot.mode.arity)).map (place (shot.mode.operands (job.current shot)) i))
        (((List.range (2 ^ shot.mode.arity)).map
          (place (shot.mode.operands (job.current shot)) i)).map
          (⟨0, block⟩ : Window R).get))[localIndex (shot.mode.operands (job.current shot)) i]? =
            some a → a.Null) :
    ((job.blockAfter shot block).getD i 0).Null := by
  rw [Array.getD_eq_getD_getElem?]
  by_cases hi : i < job.layout.entriesPerShot
  · obtain ⟨g, hg, hmembers, hself⟩ := exists_group_of_lt ht hplaced hi
    have hact := getElem?_act_eq_blockAfter ht hplaced hblock hg hself
    rw [← hact]
    cases ha : ((job.action shot).act g (g.map (⟨0, block⟩ : Window R).get))[localIndex
        (shot.mode.operands (job.current shot)) i]? with
    | none => exact Cplx.null_zero
    | some a => exact h hi a (hmembers ▸ ha)
  · rw [Array.getElem?_eq_none (by rw [Job.size_blockAfter, hblock]; exact Nat.le_of_not_lt hi)]
    exact Cplx.null_zero

/-- If the step mixes null amplitudes only with each other and index 0 is not among them, they stay
null. -/
theorem null_of_closed (dead : Nat → Prop)
    (hclosed : ∀ i, dead i → ∀ value, dead (place (shot.mode.operands (job.current shot)) i value))
    (hground : shot.mode = .resetAll → ∀ i, dead i → i ≠ 0)
    (h : ∀ i, dead i → (block.getD i 0).Null) {i : Nat} (hi : dead i) :
    ((job.blockAfter shot block).getD i 0).Null := by
  refine null_of_group ht hplaced hblock fun _ a ha => ?_
  refine (job.action shot).null_act ?_ ?_ a (List.mem_of_getElem? ha)
  · intro haction j hj
    obtain ⟨value, _, rfl⟩ := List.mem_map.1 hj
    refine hground ?_ _ (hclosed i hi value)
    rw [Job.action, Action.ofShot] at haction
    cases hmode : shot.mode with
    | resetAll => rfl
    | _ =>
        rw [hmode] at haction
        cases haction
  · intro b hb
    obtain ⟨j, hj, rfl⟩ := List.mem_map.1 hb
    obtain ⟨value, _, rfl⟩ := List.mem_map.1 hj
    exact h _ (hclosed i hi value)

/-- A single-qubit operator with an empty row leaves null amplitudes at its indices. -/
theorem null_of_empty_row (hselected : shot.selected = .injected) (harity : shot.injectedArity = 1)
    {i : Nat} (hempty : ∀ col < 2,
      shot.scratch.get ((i.testBit (job.current shot).q1).toNat * 2 + col) = 0) :
    ((job.blockAfter shot block).getD i 0).Null := by
  have hmode : shot.mode = .gate1 := by rw [Shot.mode, hselected, harity]; rfl
  have hrow : localIndex (shot.mode.operands (job.current shot)) i =
      (i.testBit (job.current shot).q1).toNat := by
    rw [hmode]
    simp [Mode.operands, Mode.arity, localIndex]
  have hoperator : shot.operator (job.current shot) = ⟨2, .dense, shot.scratch⟩ := by
    rw [Shot.operator, hselected, harity]
  refine null_of_group ht hplaced hblock fun _ a ha => ?_
  rw [hrow, Job.action, Action.ofShot_of_gate (by rw [hmode]; decide), Action.act, hoperator,
    Operator.apply, List.getElem?_mapIdx] at ha
  obtain ⟨_, hin, rfl⟩ := Option.map_eq_some_iff.1 ha
  refine Operator.null_row fun b col hb => ?_
  have hcol : col < 2 := by
    have hlt := List.snd_lt_of_mem_zipIdx hb
    simpa [hmode, Mode.arity] using hlt
  rw [hempty col hcol]
  exact Cplx.null_zero.mul_left b

/-- A step on no parked qubit keeps all parked qubits in 0. -/
theorem blockAfter {n lost : Nat} (h : Parked n lost block)
    (hfree : ∀ q ∈ shot.mode.operands (job.current shot), q < n ∧ lost.testBit q = false) :
    Parked n lost (job.blockAfter shot block) := by
  intro i hi
  exact null_of_closed ht hplaced hblock (SetsParked n lost) (fun _ hj value =>
    hj.place hfree value)
    (fun _ _ hj => hj.ne_zero) h hi

/-- A restart puts every parked qubit in 0. -/
theorem blockAfter_of_resetAll (hmode : shot.mode = .resetAll) (n lost : Nat) :
    Parked n lost (job.blockAfter shot block) := by
  have haction : job.action shot = .ground := by rw [Job.action, Action.ofShot, hmode]
  intro i hi
  refine null_of_group ht hplaced hblock fun _ a ha => ?_
  rw [haction, hmode] at ha
  -- The group is `i` alone, and `i` is not the basis state in which nothing is set.
  have hground : (if i = 0 then 1 else 0 : Cplx R) = a := by
    simpa [Action.act, Mode.arity, Mode.operands, place, localIndex] using ha
  rw [← hground, if_neg hi.ne_zero]
  exact Cplx.null_zero

/-- A loss puts its qubit in 0: the row of 1 is empty. -/
theorem blockAfter_of_loses {n lost : Nat} (h : Parked n lost block)
    (hcircuit : (job.current shot).q1 < n) (hpresent : lost.testBit (job.current shot).q1 = false)
    (hselected : shot.selected = .injected) (harity : shot.injectedArity = 1)
    (hempty : shot.scratch.get 2 = 0 ∧ shot.scratch.get 3 = 0) :
    Parked n (lost ||| 1 <<< (job.current shot).q1) (job.blockAfter shot block) := by
  rintro i ⟨q, hset, hparked⟩
  by_cases hq : q = (job.current shot).q1
  · -- The lost qubit is set in `i`, so the amplitude is what the lower row makes of its pair.
    subst hq
    refine null_of_empty_row ht hplaced hblock hselected harity fun col hcol => ?_
    rw [hset]
    obtain rfl | rfl : col = 0 ∨ col = 1 := by omega
    · exact hempty.1
    · exact hempty.2
  · -- Another parked qubit is set, and the step does not act on that one.
    have hbefore : SetsParked n lost i := by
      refine ⟨q, hset, hparked.imp_right fun hlost => ?_⟩
      rw [Nat.testBit_or, testBit_one_shiftLeft, Bool.or_eq_true] at hlost
      exact hlost.resolve_right fun hsame => hq (of_decide_eq_true hsame).symm
    refine h.blockAfter ht hplaced hblock ?_ i hbefore
    have hmode : shot.mode = .gate1 := by rw [Shot.mode, hselected, harity]; rfl
    rw [hmode]
    simpa [Mode.operands, Mode.arity] using ⟨hcircuit, hpresent⟩

/-- Every step puts the qubits parked after it in 0. -/
theorem of_treats {n lost : Nat} (h : Parked n lost block)
    (htreats : shot.Treats n lost (job.current shot)) :
    Parked n shot.lost (job.blockAfter shot block) := by
  cases htreats with
  | restarts reset none => exact blockAfter_of_resetAll ht hplaced hblock reset n shot.lost
  | spares kept free => exact kept ▸ h.blockAfter ht hplaced hblock (kept ▸ free)
  | loses grown circuit present selected arity empty =>
      exact grown ▸ h.blockAfter_of_loses ht hplaced hblock circuit present selected arity empty

end Step

end Parked

/-! ## Logs -/

section Logs

variable {R : Type}

/-- A kept record was kept before or is the one pushed. -/
theorem mem_kept_push {log : ReportLog R} {record other : Record R}
    (h : other ∈ (log.push record).kept) : other ∈ log.kept ∨ other = record := by
  obtain ⟨i, hi⟩ := List.getElem?_of_mem h
  simp only [ReportLog.kept, ReportLog.push, List.getElem?_take, Array.getElem?_toList,
    Array.getElem?_setIfInBounds, Option.ite_none_right_eq_some] at hi
  obtain ⟨hbelow, hget⟩ := hi
  by_cases hlast : log.cursor.toNat = i
  · -- The slot under the cursor has just been written.
    right
    rw [if_pos hlast] at hget
    exact (Option.some.inj (Option.ite_none_right_eq_some.1 hget).2).symm
  · left
    rw [if_neg hlast] at hget
    -- The cursor moves by one, or comes round to zero.
    have hlt : i < log.cursor.toNat := by
      rw [UInt32.toNat_add] at hbelow
      have hle := Nat.mod_le (log.cursor.toNat + (1 : UInt32).toNat) (2 ^ 32)
      have hone : (1 : UInt32).toNat = 1 := rfl
      omega
    exact List.mem_of_getElem? (i := i) (by
      rw [ReportLog.kept, List.getElem?_take, if_pos hlt, Array.getElem?_toList, hget])

/-- A kept record was kept before or is among those pushed. -/
theorem mem_kept_foldl_push {records : List (Record R)} {log : ReportLog R} {record : Record R}
    (h : record ∈ (records.foldl ReportLog.push log).kept) :
    record ∈ log.kept ∨ record ∈ records := by
  induction records generalizing log with
  | nil => exact Or.inl h
  | cons first rest ih =>
      rcases ih h with hbefore | hrest
      · rcases mem_kept_push hbefore with hkept | rfl
        · exact Or.inl hkept
        · exact Or.inr List.mem_cons_self
      · exact Or.inr (List.mem_cons_of_mem _ hrest)

end Logs

/-! ## Lanes -/

namespace Lane

section

omit [Scalar.NullLaws R]

/-- `prepare` adds no record. -/
theorem mem_kept_prepare {lane : Lane R} {job : Job R} {shotIdx : Nat} {record : Record R}
    (h : record ∈ (lane.prepare job shotIdx).log.kept) : record ∈ lane.log.kept := by
  revert h
  unfold prepare
  dsimp only
  split
  · exact id
  · split
    · intro h
      simp [restart, ReportLog.kept] at h
    · unfold advance
      dsimp only
      split <;> exact id

end

/-- No basis state that sets a parked qubit is reported. -/
theorem not_setsParked_of_mem_newReports {lane : Lane R} {job : Job R} {shotIdx n lost : Nat}
    (hthreshold : Scalar.le 0 job.batch.threshold = true) (h : Parked n lost lane.block)
    {record : Record R} (hrecord : record ∈ lane.newReports job shotIdx) :
    ¬SetsParked n lost record.index := by
  intro hparked
  rw [newReports, (job.arrivals_perm _ _).mem_iff, Job.reportsOf] at hrecord
  split at hrecord
  · obtain ⟨i, _, hi⟩ := List.mem_filterMap.1 hrecord
    obtain ⟨habove, hsome⟩ := Option.ite_none_right_eq_some.1 hi
    cases hsome
    have hnull : ((⟨0, lane.block⟩ : Window R).get i).Null := h i hparked
    rw [Scalar.NullLaws.not_above (Scalar.NullLaws.null_mul_left _ hnull.normSqr) hthreshold]
      at habove
    cases habove
  · cases hrecord

/-- Parked qubits are in 0, and no record sets one. -/
structure Sound (n : Nat) (lane : Lane R) : Prop where
  parked : Parked n lane.shot.lost lane.block
  kept : ∀ record ∈ lane.log.kept, record.index < 2 ^ n

section Tiled

variable {job : Job R} {e w : Nat} (ht : job.layout.Tiled e w)
  (hroom : job.batch.qubits ≤ job.layout.qubitCount)

include ht hroom

/-- `Sound` is preserved by a step. -/
theorem Sound.step (hthreshold : Scalar.le 0 job.batch.threshold = true) {lane : Lane R}
    (h : lane.Sound job.batch.qubits) (hblock : lane.block.size = job.layout.entriesPerShot)
    (shotIdx : Nat) : (lane.step job shotIdx).Sound job.batch.qubits := by
  refine ⟨?_, ?_⟩
  · rw [shot_step, block_step ht hroom hblock]
    exact h.parked.of_treats ht (placed_prepare lane job shotIdx hroom) hblock
      (lane.treats_prepare job shotIdx)
  · rw [log_step ht hblock]
    intro record hrecord
    -- New reports are made from the amplitudes before the step, in which the parked ones are null.
    rcases mem_kept_foldl_push hrecord with hbefore | hnew
    · exact h.kept record (mem_kept_prepare hbefore)
    · exact lt_two_pow_of_not_setsParked (not_setsParked_of_mem_newReports hthreshold h.parked hnew)

/-- A restart establishes `Sound` whatever the lane held. -/
theorem sound_step_of_resetAll {lane : Lane R}
    (hblock : lane.block.size = job.layout.entriesPerShot) {op : Op R}
    (hop : job.ops[lane.shot.nextOp]? = some op) (hreset : op.isResetAll = true)
    (shotIdx : Nat) : (lane.step job shotIdx).Sound job.batch.qubits := by
  have hprepared := prepare_of_resetAll hop hreset shotIdx
  have hmode : (lane.prepare job shotIdx).shot.mode = .resetAll := by
    rw [hprepared]
    rfl
  refine ⟨?_, ?_⟩
  · rw [shot_step, block_step ht hroom hblock]
    exact Parked.blockAfter_of_resetAll ht (placed_prepare lane job shotIdx hroom) hblock hmode _ _
  · rw [log_step ht hblock, newReports_of_resetAll hop hreset, hprepared]
    simp [restart, ReportLog.kept]

/-- `Sound` holds after every step since the restart. -/
theorem sound_after (hthreshold : Scalar.le 0 job.batch.threshold = true) {lane : Lane R}
    {resultsPerShot resultCount : Nat} (hfits : lane.Fits job.layout resultsPerShot resultCount)
    {op : Op R} (hop : job.ops[lane.shot.nextOp]? = some op) (hreset : op.isResetAll = true)
    (shotIdx : Nat) {count : Nat} (hcount : 0 < count) :
    (lane.after job shotIdx count).Sound job.batch.qubits := by
  -- Soundness is kept by a step of a lane with a block of the right size, which is kept as well.
  refine (after_of_steps (fun lane =>
    lane.Fits job.layout resultsPerShot resultCount ∧ lane.Sound job.batch.qubits) ?_ ?_ hcount).2
  · exact ⟨fits_step ht hfits shotIdx,
      sound_step_of_resetAll ht hroom hfits.block hop hreset shotIdx⟩
  · rintro lane ⟨hfits, hsound⟩
    exact ⟨fits_step ht hfits shotIdx, hsound.step ht hroom hthreshold hfits.block shotIdx⟩

end Tiled

end Lane

/-! ## Runs -/

/-- A lane of a running batch is sound, and the last step has reported no basis state that sets a
qubit parked before it. -/
theorem Machine.Serves.sound_run {m : Machine R} {c : Config R} {pool : Pool} {stream : Stream R}
    (h : m.Serves c pool stream) (hchecked : c.Checked) {op : Op R}
    (hop : stream.ops.toArray[0]? = some op) (hreset : op.isResetAll = true) {batch : Batch R}
    (hqubits : batch.qubits = c.qubits) (hthreshold : batch.threshold = c.threshold)
    {shotIdx count : Nat} (hshot : shotIdx < batch.shots) {lane : Lane R}
    (hlane : ((m.beginBatch batch).run (count + 1)).lanes[shotIdx]? = some lane) :
    lane.Sound c.qubits ∧
      ∃ before, ((m.beginBatch batch).run count).lanes[shotIdx]? = some before ∧
        lane = before.step (m.batchJob batch) shotIdx ∧
        lane.log = (before.newReports (m.batchJob batch) shotIdx).foldl ReportLog.push
          (before.prepare (m.batchJob batch) shotIdx).log ∧
        ∀ record ∈ before.newReports (m.batchJob batch) shotIdx,
          ¬SetsParked c.qubits before.shot.lost record.index := by
  let job := m.batchJob batch
  obtain ⟨e, w, htiled⟩ := Layout.exists_tiled_ofCircuit c.qubits hchecked.perWorkgroup_ge
    hchecked.perWorkgroup_le
  have ht : job.layout.Tiled e w := by
    rw [← h.layout] at htiled
    exact htiled
  have hroom : job.batch.qubits ≤ job.layout.qubitCount := by
    have hpadded := Layout.le_qubitCount_ofCircuit c.qubits c.qubitsPerWorkgroup
    rw [← h.layout, ← hqubits] at hpadded
    exact hpadded
  have hnonneg : Scalar.le 0 job.batch.threshold = true := by
    have hle := hchecked.threshold_nonneg
    rw [← hthreshold] at hle
    exact hle
  rw [m.getElem?_lanes_run hshot, Option.map_eq_some_iff] at hlane
  obtain ⟨old, hold, rfl⟩ := hlane
  let begun : Lane R := { old with shot := 0 }
  have hbegun : begun.Fits job.layout m.resultsPerShot m.resultCount :=
    (h.fits old (Array.mem_of_getElem? hold)).begun
  have hfirst : job.ops[begun.shot.nextOp]? = some op := by
    show m.ops[0]? = some op
    rw [h.ops, hop]
  have hsound : ∀ n, 0 < n → (begun.after job shotIdx n).Sound c.qubits := by
    intro n hn
    rw [← hqubits]
    exact Lane.sound_after ht hroom hnonneg hbegun hfirst hreset shotIdx hn
  let before := begun.after job shotIdx count
  have hstep : begun.after job shotIdx (count + 1) = before.step job shotIdx :=
    begun.after_add job shotIdx count 1
  have hblock : before.block.size = job.layout.entriesPerShot :=
    (Lane.fits_after ht hbegun shotIdx count).block
  refine ⟨hsound _ (Nat.succ_pos count), before, ?_, hstep, ?_, ?_⟩
  · rw [m.getElem?_lanes_run hshot, hold]
    rfl
  · rw [hstep]
    exact Lane.log_step ht hblock shotIdx
  · intro record hrecord
    cases count with
    | zero =>
        -- The first step is the restart.
        have hquiet : before.newReports job shotIdx = [] :=
          Lane.newReports_of_resetAll hfirst hreset shotIdx
        rw [hquiet] at hrecord
        cases hrecord
    | succ count =>
        have hparked := (hsound _ (Nat.succ_pos count)).parked
        exact Lane.not_setsParked_of_mem_newReports hnonneg hparked hrecord

/-- A solo shot ends in a sound lane. -/
theorem Config.sound_soloLane {c : Config R} (hchecked : c.Checked) (pool : Pool)
    {stream : Stream R} {strand : Strand R} {rest : Stream R} (hstream : stream = strand :: rest)
    (hreset : strand.op.isResetAll = true) (k : Nat) :
    (c.soloLane pool stream k).Sound c.qubits := by
  obtain ⟨e, w, htiled⟩ := Layout.exists_tiled_ofCircuit c.qubits hchecked.perWorkgroup_ge
    hchecked.perWorkgroup_le
  have ht : (c.soloJob pool stream k).layout.Tiled e w := htiled
  subst hstream
  exact Lane.sound_after ht (Layout.le_qubitCount_ofCircuit _ _) hchecked.threshold_nonneg
    c.fits_blankLane rfl hreset 0 (Nat.succ_pos rest.length)

/-- Parked qubits stay in 0. In every batch of a valid run, after every step since the restart, the
amplitudes that set a lost qubit or one beyond the circuit are null, and the step reports no basis
state that sets one. Hence a run reports basis states of the circuit only. -/
theorem parked_qubits_stay_zero {program : List (Op R)} {c : Config R} {host : Host R}
    (h : Runs program c host) {stream : Stream R}
    (hstream : stream = Stream.build program c.noise c.idle.isSome c.qubits) :
    (∀ (m : Machine R) (pool : Pool), m.Serves c pool stream →
      ∀ (first shots shotIdx count : Nat) (lane : Lane R),
      let batch : Batch R := ⟨UInt32.ofNat first, c.seed, shots, c.qubits, c.threshold⟩
      let job := m.batchJob batch
      shotIdx < shots → ((m.beginBatch batch).run (count + 1)).lanes[shotIdx]? = some lane →
      (∀ i q, i.testBit q = true → (c.qubits ≤ q ∨ lane.shot.lost.testBit q = true) →
        (lane.block.getD i 0).Null) ∧
      ∃ before, ((m.beginBatch batch).run count).lanes[shotIdx]? = some before ∧
        lane = before.step job shotIdx ∧
        lane.log =
          (before.newReports job shotIdx).foldl ReportLog.push (before.prepare job shotIdx).log ∧
        ∀ record ∈ before.newReports job shotIdx, record.index < 2 ^ c.qubits ∧
          ∀ q, before.shot.lost.testBit q = true → record.index.testBit q = false) ∧
    ∃ results, (runProgram program c host).result = .ok results ∧
      ∀ shot ∈ results.shots, ∀ record ∈ shot.records, record.index < 2 ^ c.qubits := by
  have hchecked := Config.checked_of_validate h.checked
  constructor
  · intro m pool hm first shots shotIdx count lane batch job hshot hlane
    -- Every stream begins with a restart, which puts all qubits to zero.
    have hbegins : ∃ op, stream.ops.toArray[0]? = some op ∧ op.isResetAll = true := by
      rw [hstream]
      exact ⟨_, rfl, rfl⟩
    obtain ⟨op, hop, hreset⟩ := hbegins
    obtain ⟨hsound, before, hbefore, hstep, hlog, hnew⟩ :=
      hm.sound_run hchecked hop hreset rfl rfl hshot hlane
    refine ⟨fun i q hset hparked => hsound.parked i ⟨q, hset, hparked⟩, before, hbefore,
      hstep, hlog, ?_⟩
    intro record hrecord
    have hout := hnew record hrecord
    exact ⟨lt_two_pow_of_not_setsParked hout, fun q hq => testBit_of_not_setsParked hout hq⟩
  · obtain ⟨results, hresult, hshots, _⟩ := h.exists_results hstream
    refine ⟨results, hresult, ?_⟩
    rw [hshots]
    intro shot hshot record hrecord
    obtain ⟨k, _, rfl⟩ := List.mem_map.1 hshot
    exact (Config.sound_soloLane hchecked host.pool hstream rfl k).kept record
      (List.mem_mergeSort.1 hrecord)

def lossyProgram : List (Op Float32) := [.x 0, .x 1, .mEveryZ, .loss 0 1, .mEveryZ]

def pairConfig : Config Float32 := { Config.standard with qubits := 2, threshold := 0 }

def lossyMachine : Machine Float32 :=
  (Machine.fresh.load (Stream.build lossyProgram none false 2).ops 0).prepareRun
    ⟨2, .ofCircuit 2 12, 0, 256, 1, 1, 1, 6⟩

/-- A lost qubit of a two-qubit circuit. -/
theorem parked_qubits_stay_zero_lossy :
    (∃ lane, ((lossyMachine.beginBatch ⟨0, 0, 1, 2, 0⟩).run 6).lanes[0]? = some lane ∧
      ∀ i q, i.testBit q = true → (2 ≤ q ∨ lane.shot.lost.testBit q = true) →
        (lane.block.getD i 0).Null) ∧
    ∃ results, (runProgram lossyProgram pairConfig .empty).result = .ok results ∧
      ∀ shot ∈ results.shots, ∀ record ∈ shot.records, record.index < 4 := by
  have hruns : Runs lossyProgram pairConfig .empty := ⟨rfl, rfl, ⟨_, rfl⟩, by decide⟩
  have hserves : lossyMachine.Serves pairConfig {} (Stream.build lossyProgram none false 2) :=
    ⟨rfl, rfl, rfl, rfl, rfl, rfl, Machine.fits_prepareRun _ _⟩
  obtain ⟨hlanes, hresults⟩ := parked_qubits_stay_zero hruns rfl
  refine ⟨?_, hresults⟩
  have hsize : ((lossyMachine.beginBatch ⟨0, 0, 1, 2, 0⟩).run 6).lanes.size = 1 := by
    rw [(lossyMachine.run_beginBatch_frame ⟨0, 0, 1, 2, 0⟩ 6).size]
    simp [lossyMachine, Machine.prepareRun]
  obtain ⟨lane, hlane⟩ :
      ∃ lane, ((lossyMachine.beginBatch ⟨0, 0, 1, 2, 0⟩).run 6).lanes[0]? = some lane :=
    ⟨_, Array.getElem?_eq_getElem (by rw [hsize]; decide)⟩
  refine ⟨lane, hlane, ?_⟩
  exact (hlanes lossyMachine {} hserves 0 1 0 5 lane (by decide) hlane).1

end ShotSim
