import ShotSim.Proofs.History
import ShotSim.Proofs.Repeatability
import ShotSim.Proofs.Reports
import ShotSim.Proofs.StartOver
import ShotSim.Proofs.TimeAccounts
import ShotSim.Proofs.WovenBlocks

/-!
# Last outcomes — what the result slots hold

A measurement writes its slot, a restart empties all of them, and nothing else touches a slot.  So a
slot tells of the last operation on it, whatever stands around that operation in the stream.  A
qubit that a measurement finds lost was lost by a loss that took place since the last restart.

* `Op.touches`, `LastOn` — the operation that a slot tells of;
* `Shot.outcome`, `Lane.slots_step` — what a measurement writes;
* `Lane.loses`, `Lane.lost_step` — when a step loses a qubit;
* `Lane.slots_after`, `Lane.isLost_after` — slots and lost qubits after any number of steps;
* `lastOn_build` — the operation that a slot tells of, in a program and in its stream;
* `slots_hold_last_outcome` — the slots in the results of every run, and in every batch.
-/

namespace ShotSim

variable {R : Type} [Scalar R]

/-! ## The operation that a slot tells of -/

section LastOn

variable {R : Type}

def Op.writes (op : Op R) (r : Nat) : Bool := op.isReading && decide (op.q2 = r)

/-- Whether an operation writes or clears slot `r`. -/
def Op.touches (op : Op R) (r : Nat) : Bool := op.isResetAll || op.writes r

theorem Op.writes_iff {op : Op R} {r : Nat} : op.writes r = true ↔ op.isReading = true ∧
    op.q2 = r := by
  simp [writes]

theorem Op.touches_of_not_reset {op : Op R} (h : op.isResetAll = false) (r : Nat) :
    op.touches r = op.writes r := by
  rw [touches, h, Bool.false_or]

theorem Op.not_isResetAll_of_writes {op : Op R} {r : Nat} (h : op.writes r = true) :
    op.isResetAll = false :=
  not_isResetAll_of_isReading (writes_iff.1 h).1

/-- Operation `p` is the last one that touches slot `r`. -/
structure LastOn (ops : List (Op R)) (r p : Nat) (op : Op R) : Prop where
  here : ops[p]? = some op
  touches : op.touches r = true
  quiet : ∀ other ∈ ops.drop (p + 1), other.touches r = false

/-- `LastOn` of an appended operation: the new one if it touches the slot, else the old one. -/
theorem lastOn_append_singleton {ops : List (Op R)} {last op : Op R} {r p : Nat} :
    LastOn (ops ++ [last]) r p op ↔
      (p = ops.length ∧ op = last ∧ last.touches r = true) ∨
        (LastOn ops r p op ∧ last.touches r = false) := by
  constructor
  · rintro ⟨hhere, htouches, hquiet⟩
    have hin := (List.getElem?_eq_some_iff.1 hhere).1
    rw [List.length_append, List.length_singleton] at hin
    rcases Nat.lt_or_eq_of_le (Nat.lt_succ_iff.1 hin) with hbefore | rfl
    · rw [List.getElem?_append_left hbefore] at hhere
      rw [List.drop_append_of_le_length hbefore, List.forall_mem_append,
        List.forall_mem_singleton] at hquiet
      exact Or.inr ⟨⟨hhere, htouches, hquiet.1⟩, hquiet.2⟩
    · rw [List.getElem?_concat_length] at hhere
      obtain rfl := Option.some.inj hhere
      exact Or.inl ⟨rfl, rfl, htouches⟩
  · rintro (⟨rfl, rfl, htouches⟩ | ⟨⟨hhere, htouches, hquiet⟩, hlast⟩)
    · refine ⟨List.getElem?_concat_length, htouches, ?_⟩
      rw [List.drop_of_length_le (by rw [List.length_append, List.length_singleton])]
      exact nofun
    · have hbefore := (List.getElem?_eq_some_iff.1 hhere).1
      refine ⟨by rw [List.getElem?_append_left hbefore, hhere], htouches, ?_⟩
      rw [List.drop_append_of_le_length hbefore, List.forall_mem_append, List.forall_mem_singleton]
      exact ⟨hquiet, hlast⟩

/-- A slot that is touched has a last operation on it. -/
theorem exists_lastOn {ops : List (Op R)} {r : Nat} (h : ∃ op ∈ ops, op.touches r = true) :
    ∃ p op, LastOn ops r p op := by
  induction ops using List.reverseRecOn with
  | nil =>
      obtain ⟨op, hop, _⟩ := h
      cases hop
  | append_singleton ops last ih =>
      cases hlast : last.touches r with
      | true => exact ⟨_, _, lastOn_append_singleton.2 (Or.inl ⟨rfl, rfl, hlast⟩)⟩
      | false =>
          obtain ⟨op, hop, htouches⟩ := h
          rcases List.mem_append.1 hop with hbefore | hhere
          · obtain ⟨p, other, hother⟩ := ih ⟨op, hbefore, htouches⟩
            exact ⟨p, other, lastOn_append_singleton.2 (Or.inr ⟨hother, hlast⟩)⟩
          · rw [List.mem_singleton.1 hhere, hlast] at htouches
            cases htouches

/-- The last operation on a slot is unique. -/
theorem LastOn.eq_of_lastOn {ops : List (Op R)} {r p p' : Nat} {op op' : Op R}
    (h : LastOn ops r p op) (h' : LastOn ops r p' op') : p = p' := by
  -- Of two places, the earlier one would have something on the slot after it.
  have hlate : ∀ {p p' : Nat} {op op' : Op R}, LastOn ops r p op → LastOn ops r p' op' →
      p' ≤ p := by
    intro p p' op op' h h'
    by_contra hlt
    have hplace : p + 1 + (p' - (p + 1)) = p' := by omega
    have hmem : op' ∈ ops.drop (p + 1) :=
      List.mem_of_getElem? (by rw [List.getElem?_drop, hplace, h'.here])
    exact Bool.false_ne_true ((h.quiet op' hmem).symm.trans h'.touches)
  exact Nat.le_antisymm (hlate h' h) (hlate h h')

/-- A last operation that does not write the slot is a restart. -/
theorem LastOn.isResetAll_of_not_writes {ops : List (Op R)} {r p : Nat} {op : Op R}
    (h : LastOn ops r p op) (hwrites : op.writes r = false) : op.isResetAll = true := by
  have htouches := h.touches
  rwa [Op.touches, hwrites, Bool.or_false] at htouches

/-- The last operation on a slot writes it iff it was written since the last restart. -/
theorem LastOn.writes_iff {ops : List (Op R)} {r p : Nat} {op : Op R} (h : LastOn ops r p op) :
    op.writes r = true ↔ ∃ other ∈ sinceRestart ops, other.writes r = true := by
  induction ops using List.reverseRecOn with
  | nil => cases h.here
  | append_singleton ops last ih =>
      rcases lastOn_append_singleton.1 h with ⟨_, rfl, htouches⟩ | ⟨hbefore, hlast⟩
      · cases hreset : op.isResetAll with
        | true =>
            rw [sinceRestart_append_reset ops hreset]
            refine ⟨fun hwrites => ?_, nofun⟩
            rw [Op.not_isResetAll_of_writes hwrites] at hreset
            cases hreset
        | false =>
            rw [Op.touches_of_not_reset hreset] at htouches
            rw [sinceRestart_append ops hreset]
            exact ⟨fun _ => ⟨op, List.mem_append_right _ (List.mem_singleton_self op), htouches⟩,
              fun _ => htouches⟩
      · obtain ⟨hreset, hwrites⟩ := Bool.or_eq_false_iff.1 hlast
        rw [ih hbefore, sinceRestart_append ops hreset]
        simp [or_and_right, exists_or, hwrites]

end LastOn

/-! ## What a step writes -/

/-- The outcome of measuring qubit `q`: lost if the qubit is lost, else one iff the draw is below
`oneProbability`. -/
def Shot.outcome (s : Shot R) (q : Nat) : Outcome :=
  if s.isLost q then .lost
  else if Scalar.lt s.draws.measure (s.qubit q).oneProbability then .one
  else .zero

namespace Register

variable (r : Register R) (job : Job R) (op : Op R)

/-- A measurement writes the outcome to its slot, if there is one. -/
theorem slots_measure (hreset : op.code ≠ .reset) :
    (r.measure job op (r.shot.isLost op.q1)).slots =
      if op.q2 < job.resultCount then r.slots.setIfInBounds op.q2 (r.shot.outcome op.q1)
        else r.slots := by
  have houtcome : (if r.shot.isLost op.q1 then .lost else .ofBit (r.shot.readsOne op.q1)) =
      r.shot.outcome op.q1 := by
    unfold Shot.outcome Shot.readsOne Outcome.ofBit
    split
    · rfl
    · split <;> simp_all
  unfold measure setSlot
  dsimp only
  rw [if_neg hreset, houtcome]
  split <;> rfl

/-- Only measurements write slots; a reset discards its outcome. -/
theorem slots_select (hreading : op.isReading = false) (lost : Bool) :
    (r.select job op lost).slots = r.slots := by
  have hmeasures : op.code ≠ .mz ∧ op.code ≠ .mResetZ := by simpa [Op.isReading] using hreading
  refine select_cases (P := fun r' => r'.slots = r.slots) r job op lost rfl (fun _ => rfl) ?_
    (fun _ => rfl) (fun _ => rfl) (fun _ _ => rfl)
  rintro (hcode | hcode | hcode)
  · exact absurd hcode hmeasures.1
  · exact absurd hcode hmeasures.2
  · rw [measure, if_pos hcode]

/-- A successful operation writes at most the slot of its outcome. -/
theorem slots_resolve (hop : op.isRefused job.batch.qubits = false) (opIdx : Nat) :
    (r.resolve job op opIdx).slots =
      if op.isReading ∧ op.q2 < job.resultCount then
        r.slots.setIfInBounds op.q2 (r.shot.outcome op.q1)
      else r.slots := by
  obtain ⟨hsupported, hvalid⟩ := Bool.or_eq_false_iff.1 hop
  have hknown : (!op.code.isKnown || op.code = .injected) = false := hsupported
  unfold resolve
  rw [if_neg (by simp [hknown]), if_neg (by simp [hvalid])]
  dsimp only
  cases hreading : op.isReading with
  | false =>
      rw [slots_select r job op hreading]
      simp
  | true =>
      have hlost : op.qubits.any r.shot.isLost = r.shot.isLost op.q1 := by
        simp [Op.qubits_of_isReading hreading]
      have hselect :
          r.select job op (r.shot.isLost op.q1) = r.measure job op (r.shot.isLost op.q1) := by
        rcases Op.isReading_iff.1 hreading with hcode | hcode <;> simp [select, hcode]
      have hreset : op.code ≠ .reset := by
        rcases Op.isReading_iff.1 hreading with hcode | hcode <;> simp [hcode]
      rw [hlost, hselect, slots_measure r job op hreset]
      simp

/-- A loss sets the flag of a present qubit iff the draw is below its probability. -/
theorem lost_resolve (hop : op.isRefused job.batch.qubits = false) (opIdx : Nat) :
    (r.resolve job op opIdx).shot.lost =
      if op.code = .loss ∧ r.shot.isLost op.q1 = false ∧
          Scalar.lt r.shot.draws.loss op.lossProbability = true then
        r.shot.lost ||| 1 <<< op.q1
      else r.shot.lost := by
  obtain ⟨hsupported, hvalid⟩ := Bool.or_eq_false_iff.1 hop
  have hknown : (!op.code.isKnown || op.code = .injected) = false := hsupported
  unfold resolve
  rw [if_neg (by simp [hknown]), if_neg (by simp [hvalid])]
  dsimp only
  have hclock : ∀ s : Shot R, (s.accrue op job.idle job.batch.qubits).lost = s.lost := fun s =>
    congrArg (·.2.2.2) (s.decision_accrue op job.idle job.batch.qubits)
  have hdecay : ∀ (b : Bool) (s : Shot R),
      (if b then s.injectDecay job.idle op else s).lost = s.lost := by
    intro b s
    split
    · exact s.lost_injectDecay job.idle op
    · rfl
  rw [hclock, hdecay]
  by_cases hcode : op.code = .loss
  · have hlost : op.qubits.any r.shot.isLost = r.shot.isLost op.q1 := by
      simp [Op.qubits, hcode, Opcode.arity]
    rw [hlost]
    cases hgone : r.shot.isLost op.q1 <;>
      cases hfires : Scalar.lt r.shot.draws.loss op.lossProbability <;>
      simp [select, hcode, Shot.applyLoss, hfires, Shot.collapse, Shot.inject, Shot.setQubit]
  · rw [if_neg fun h => hcode h.1]
    exact lost_select r job op fun h => absurd h hcode

end Register

/-! ## Steps -/

namespace Lane

/-- Whether a step on `op` loses its operand: the shot is successful, the qubit present, and the
loss fires. -/
def loses (lane : Lane R) (job : Job R) (op : Op R) : Bool :=
  decide (lane.shot.status = .ok) && decide (op.code = .loss) && !op.isRefused job.batch.qubits &&
    !lane.shot.isLost op.q1 && Scalar.lt (lane.ready job).draws.loss op.lossProbability

section Step

variable {lane : Lane R} {job : Job R} {op : Op R} (hop : job.ops[lane.shot.nextOp]? = some op)
  (hreset : op.isResetAll = false) (shotIdx : Nat)

include hop hreset

/-- A step resolves its operation, or keeps slots and loss flags. -/
theorem resolved_or_frozen :
    (lane.shot.status = .ok ∧ op.isRefused job.batch.qubits = false ∧
      (lane.step job shotIdx).slots =
        (Register.resolve ⟨lane.ready job, lane.slots⟩ job op lane.shot.nextOp).slots ∧
      (lane.step job shotIdx).shot.lost =
        (Register.resolve ⟨lane.ready job, lane.slots⟩ job op lane.shot.nextOp).shot.lost) ∨
    (¬(lane.shot.status = .ok ∧ op.isRefused job.batch.qubits = false) ∧
      (lane.step job shotIdx).shot.status ≠ .ok ∧
      (lane.step job shotIdx).slots = lane.slots ∧ (lane.step job shotIdx).shot.lost =
        lane.shot.lost) := by
  have hstatus : (lane.prepare job shotIdx).shot.status =
      (verdictAfter job.batch.qubits lane.shot.verdict op lane.shot.nextOp).1 :=
    congrArg Prod.fst (verdict_prepare shotIdx hop)
  rw [shot_step, step, slots_execute]
  by_cases halive : lane.shot.status = .ok ∧ op.isRefused job.batch.qubits = false
  · obtain ⟨hok, hnext⟩ := halive
    have hprepared := prepare_of_ok hop hreset hok shotIdx
    exact Or.inl ⟨hok, hnext, hprepared.2, congrArg (·.2.2.2) hprepared.1⟩
  · have hfailed : (lane.prepare job shotIdx).shot.status ≠ .ok := by
      rw [hstatus]
      by_cases hok : lane.shot.status = .ok
      · rw [Ne, verdictAfter_eq_ok_iff (v := lane.shot.verdict) hreset hok]
        exact fun hnext => halive ⟨hok, hnext⟩
      · rw [verdictAfter_of_failed (v := lane.shot.verdict) _ hreset hok]
        exact hok
    have hfrozen := (prepare_of_failed hop hreset hfailed).1
    exact Or.inr ⟨halive, hfailed, hfrozen.slots, hfrozen.lost⟩

/-- A step writes no slot but that of its own measurement. -/
theorem slots_step_of_quiet {r : Nat} (hquiet : op.writes r = false) :
    (lane.step job shotIdx).slots[r]? = lane.slots[r]? := by
  rcases resolved_or_frozen hop hreset shotIdx with ⟨_, hnext, hslots, _⟩ | ⟨_, _, hslots, _⟩
  · rw [hslots, Register.slots_resolve _ job op hnext]
    split
    · rename_i hwritten
      have hother : op.q2 ≠ r := fun h => by
        rw [Op.writes_iff.2 ⟨hwritten.1, h⟩] at hquiet
        cases hquiet
      exact Array.getElem?_setIfInBounds_ne hother
    · rfl
  · rw [hslots]

/-- A successful step writes the outcome of its measurement. -/
theorem slots_step_of_writes {r : Nat} (hwrites : op.writes r = true) (hslot : r < job.resultCount)
    (hsize : r < lane.slots.size) (hok : (lane.step job shotIdx).shot.status = .ok) :
    (lane.step job shotIdx).slots[r]? = some ((lane.ready job).outcome op.q1) := by
  obtain ⟨hreading, rfl⟩ := Op.writes_iff.1 hwrites
  rcases resolved_or_frozen hop hreset shotIdx with ⟨_, hnext, hslots, _⟩ | ⟨_, hfailed, _⟩
  · rw [hslots, Register.slots_resolve _ job op hnext, if_pos ⟨hreading, hslot⟩]
    exact Array.getElem?_setIfInBounds_self_of_lt hsize
  · exact absurd hok hfailed

/-- Only a loss that fires sets a loss flag, and only that of its operand. -/
theorem lost_step :
    (lane.step job shotIdx).shot.lost =
      if lane.loses job op then lane.shot.lost ||| 1 <<< op.q1 else lane.shot.lost := by
  rcases resolved_or_frozen hop hreset shotIdx with ⟨hok, hnext, _, hlost⟩ | ⟨hstuck, _, _, hlost⟩
  · rw [hlost, Register.lost_resolve _ job op hnext]
    dsimp only
    rw [lost_ready, isLost_ready]
    simp [loses, hok, hnext, and_assoc]
  · have hnone : lane.loses job op = false := by
      rw [Bool.eq_false_iff]
      intro hloses
      simp only [loses, Bool.and_eq_true, decide_eq_true_eq, Bool.not_eq_true'] at hloses
      exact hstuck ⟨hloses.1.1.1.1, hloses.1.1.2⟩
    rw [hlost, hnone, if_neg Bool.false_ne_true]

end Step

/-- A restart clears the slots. -/
theorem slots_step_of_reset {lane : Lane R} {job : Job R} {op : Op R}
    (hop : job.ops[lane.shot.nextOp]? = some op) (hreset : op.isResetAll = true)
    (shotIdx : Nat) {r : Nat} (hslot : r < job.resultCount) (hsize : r < lane.slots.size) :
    (lane.step job shotIdx).slots[r]? = some .zero := by
  rw [step, slots_execute, prepare_of_resetAll hop hreset]
  simp [restart, Register.clearSlots, hslot, hsize]

theorem size_slots_after (lane : Lane R) (job : Job R) (shotIdx count : Nat) :
    (lane.after job shotIdx count).slots.size = lane.slots.size := by
  induction count with
  | zero => rfl
  | succ count ih => rw [after_succ, step, slots_execute, (prepare_frame _ job shotIdx).2.2.2, ih]

/-! ## Any number of steps -/

section After

variable {lane : Lane R} (hplace : lane.shot.nextOp = 0) (job : Job R) (shotIdx : Nat)

include hplace

/-- The operation after `count` steps of a batch. -/
theorem getElem?_nextOp_at (count : Nat) :
    job.ops[(lane.after job shotIdx count).shot.nextOp]? = job.ops[count]? := by
  rw [nextOp_after_eq_min (by rw [hplace]; exact Nat.zero_le _), hplace, Nat.zero_add]
  rcases Nat.le_total count job.ops.size with hin | hover
  · rw [Nat.min_eq_left hin]
  · rw [Nat.min_eq_right hover, Array.getElem?_size, Array.getElem?_eq_none hover]

/-- A slot of a successful shot holds what the last operation on it left. -/
theorem slots_after {r : Nat} (hslot : r < job.resultCount) (hsize : r < lane.slots.size)
    {count p : Nat} {op : Op R} (h : LastOn (job.ops.toList.take count) r p op)
    (hok : (lane.after job shotIdx count).shot.status = .ok) :
    (lane.after job shotIdx count).slots[r]? =
      some (if op.isResetAll then .zero
        else ((lane.after job shotIdx p).ready job).outcome op.q1) := by
  induction count with
  | zero => cases h.here
  | succ count ih =>
      have hnext := getElem?_nextOp_at hplace job shotIdx count
      have hroom : r < (lane.after job shotIdx count).slots.size := by rwa [size_slots_after]
      rw [after_succ] at hok ⊢
      rw [List.take_add_one, Array.getElem?_toList] at h
      cases hop : job.ops[count]? with
      | none =>
          -- Past the end of the stream nothing is left to happen.
          rw [hop] at h hnext
          rw [shot_step, prepare_past_end hnext] at hok
          rw [step, slots_execute, prepare_past_end hnext]
          exact ih (by simpa using h) hok
      | some last =>
          rw [hop] at h hnext
          have hlength : (job.ops.toList.take count).length = count := by
            have hin := (Array.getElem?_eq_some_iff.1 hop).1
            rw [List.length_take, Array.length_toList, Nat.min_eq_left (Nat.le_of_lt hin)]
          rcases lastOn_append_singleton.1 h with ⟨hp, rfl, htouches⟩ | ⟨hbefore, hquiet⟩
          · rw [hlength] at hp
            subst hp
            cases hreset : op.isResetAll with
            | true => exact slots_step_of_reset hnext hreset shotIdx hslot hroom
            | false =>
                rw [Op.touches_of_not_reset hreset] at htouches
                exact slots_step_of_writes hnext hreset shotIdx htouches hslot hroom hok
          · obtain ⟨hreset, hwrites⟩ := Bool.or_eq_false_iff.1 hquiet
            have hbeforeOk := status_of_step
              (fun other hother => Option.some.inj (hnext.symm.trans hother) ▸ hreset) hok
            rw [slots_step_of_quiet hnext hreset shotIdx hwrites]
            exact ih hbefore hbeforeOk

/-- Without a restart in between, the newly lost qubits are those of the losses that fired. -/
theorem isLost_after {start count : Nat}
    (hquiet : ∀ j, start ≤ j → j < start + count → ∀ op, job.ops[j]? = some op →
      op.isResetAll = false)
    (q : Nat) :
    (lane.after job shotIdx (start + count)).shot.isLost q = true ↔
      (lane.after job shotIdx start).shot.isLost q = true ∨
      ∃ j op, start ≤ j ∧ j < start + count ∧ job.ops[j]? = some op ∧ op.q1 = q ∧
        (lane.after job shotIdx j).loses job op = true := by
  induction count with
  | zero =>
      refine ⟨Or.inl, fun h => h.resolve_right ?_⟩
      rintro ⟨j, _, hstart, hj, _⟩
      omega
  | succ count ih =>
      have hnext := getElem?_nextOp_at hplace job shotIdx (start + count)
      have hpast := ih fun j hstart hj => hquiet j hstart (Nat.lt_succ_of_lt hj)
      -- One more step: the losses up to here are those before it and its own.
      have hsplit :
          (∃ j op, start ≤ j ∧ j < start + (count + 1) ∧ job.ops[j]? = some op ∧ op.q1 = q ∧
            (lane.after job shotIdx j).loses job op = true) ↔
          (∃ j op, start ≤ j ∧ j < start + count ∧ job.ops[j]? = some op ∧ op.q1 = q ∧
            (lane.after job shotIdx j).loses job op = true) ∨
          ∃ op, job.ops[start + count]? = some op ∧ op.q1 = q ∧
            (lane.after job shotIdx (start + count)).loses job op = true := by
        constructor
        · rintro ⟨j, op, hstart, hj, hloss⟩
          rcases Nat.lt_or_eq_of_le (Nat.lt_succ_iff.1 hj) with hbefore | rfl
          · exact Or.inl ⟨j, op, hstart, hbefore, hloss⟩
          · exact Or.inr ⟨op, hloss⟩
        · rintro (⟨j, op, hstart, hj, hloss⟩ | ⟨op, hloss⟩)
          · exact ⟨j, op, hstart, Nat.lt_succ_of_lt hj, hloss⟩
          · exact ⟨start + count, op, Nat.le_add_right _ _, Nat.lt_succ_self _, hloss⟩
      rw [hsplit, ← or_assoc, ← hpast, ← Nat.add_assoc, after_succ]
      cases hop : job.ops[start + count]? with
      | none =>
          rw [hop] at hnext
          rw [shot_step, prepare_past_end hnext]
          simp [Shot.isLost]
      | some op =>
          rw [hop] at hnext
          have hreset := hquiet (start + count) (Nat.le_add_right _ _) (Nat.lt_succ_self _) op hop
          rw [Shot.isLost, lost_step hnext hreset]
          by_cases hloses : (lane.after job shotIdx (start + count)).loses job op = true
          · rw [if_pos hloses, Nat.testBit_or, Nat.one_shiftLeft, Nat.testBit_two_pow]
            simp [Shot.isLost, hloses]
          · rw [if_neg hloses]
            simp [Shot.isLost, hloses]

end After

end Lane

/-! ## Programs and streams -/

section Streams

variable {noise : Option (NoiseModel R)} (hnoise : ∀ m, noise = some m → m.validate = .ok ())

/-- Identities and moves touch no slot. -/
theorem Op.kind_of_touches {R : Type} {op : Op R} {r : Nat} (h : op.touches r = true) :
    op.code ≠ .id ∧ op.code ≠ .move := by
  constructor <;> (intro hcode; simp [touches, writes, isReading, isResetAll, hcode] at h)

/-- Substituting the executed opcode keeps the touched slots. -/
theorem Op.touches_asRun {R : Type} (op : Op R) (r : Nat) : op.asRun.touches r = op.touches r := by
  unfold asRun
  split
  · rename_i hmove
    simp [touches, writes, isReading, isResetAll, hmove]
  · rfl

/-- Operations woven in around another touch no slot. -/
theorem Op.Escorts.not_touches {op other : Op R} {idle : Bool} {n : Nat}
    (h : other.Escorts op idle n) (r : Nat) : other.touches r = false := by
  rcases h.kind with ⟨q, rfl⟩ | hnoisy
  · rfl
  · revert hnoisy
    unfold touches writes isReading isResetAll
    cases other.code <;> simp [Opcode.isNoise]

include hnoise

/-- The expansion of an operation that leaves a slot alone leaves it alone. -/
theorem not_touches_weaveOp {idle : Bool} {n r : Nat} {op : Op R} (h : op.touches r = false) :
    ∀ other ∈ weaveOp noise idle n op, other.touches r = false := by
  intro other hother
  rw [weaveOp_eq_block] at hother
  split at hother
  · cases hother
  · rcases List.mem_append.1 hother with hlead | hrest
    · exact (escorts_of_mem_block hnoise (List.mem_append_left _ hlead)).not_touches r
    · rcases List.mem_cons.1 hrest with rfl | htrail
      · rw [Op.touches_asRun, h]
      · have hescort : other.Escorts op idle n :=
          escorts_of_mem_block hnoise (List.mem_append_right _ htrail)
        exact hescort.not_touches r

/-- `not_touches_weaveOp` for a program. -/
theorem not_touches_weaveFrom {idle : Bool} {n r : Nat} {ops : List (Op R)}
    (h : ∀ op ∈ ops, op.touches r = false) (start : Nat) :
    ∀ other ∈ (weaveFrom noise idle n ops start).map (·.op), other.touches r = false := by
  intro other hother
  rw [map_op_weaveFrom, List.mem_flatMap] at hother
  obtain ⟨op, hop, hother⟩ := hother
  exact not_touches_weaveOp hnoise (h op hop) other hother

omit hnoise in
/-- The final report of a stream touches no slot. -/
theorem exists_quiet_report (program : List (Op R)) (noise : Option (NoiseModel R)) (idle : Bool)
    (n : Nat) :
    ∃ report : List (Strand R), (∀ r, ∀ other ∈ report.map (·.op), other.touches r = false) ∧
      Stream.build program noise idle n = ⟨.resetAll, 0⟩ :: weave program noise idle n ++
        report := by
  unfold Stream.build
  dsimp only
  split
  · exact ⟨[], fun r => nofun, rfl⟩
  · refine ⟨_, fun r => ?_, rfl⟩
    rw [List.map_map]
    have hreport : ∀ op ∈ [(Op.mEveryZ : Op R)], op.touches r = false :=
      List.forall_mem_singleton.2 rfl
    have hnone : ∀ m : NoiseModel R, none = some m → m.validate = .ok () := nofun
    exact not_touches_weaveFrom hnone hreport 0

/-- The last operation of a program on a slot is the last of its stream. -/
theorem lastOn_build {program : List (Op R)} {r i : Nat} {op : Op R} (h : LastOn program r i op)
    (idle : Bool) (n : Nat) :
    ∃ p, (Stream.build program noise idle n)[p]? = some ⟨op, i⟩ ∧
      LastOn (Stream.build program noise idle n).ops r p op := by
  obtain ⟨report, hreport, hbuild⟩ := exists_quiet_report program noise idle n
  have hkind := Op.kind_of_touches h.touches
  have hblock : weaveOp noise idle n op = op.lead noise idle n ++ op :: op.trail noise := by
    rw [weaveOp_eq_block, if_neg (by simp [Op.isLone, hkind]), Op.asRun_of_ne hkind.2]
  -- The stream up to the operation, the operation, and what is left.
  obtain ⟨before, hstream⟩ : ∃ before, Stream.build program noise idle n =
      before ++ ⟨op, i⟩ :: ((op.trail noise).map (⟨·, i⟩) ++
        weaveFrom noise idle n (program.drop (i + 1)) (i + 1) ++ report) := by
    refine ⟨⟨.resetAll, 0⟩ :: weaveFrom noise idle n (program.take i) 0 ++
      (op.lead noise idle n).map (⟨·, i⟩), ?_⟩
    rw [hbuild, weave_eq_append h.here, hblock]
    simp
  have hhere : (Stream.build program noise idle n)[before.length]? = some ⟨op, i⟩ := by
    rw [hstream]
    simp
  refine ⟨before.length, hhere, ?_, h.touches, ?_⟩
  · rw [Stream.ops, List.getElem?_map, hhere]
    rfl
  · have hrest : (Stream.build program noise idle n).ops.drop (before.length + 1) =
        op.trail noise ++ (weaveFrom noise idle n (program.drop (i + 1)) (i + 1)).map (·.op) ++
          report.map (·.op) := by
      rw [Stream.ops, hstream, ← List.map_drop, List.drop_length_add_append]
      simp [Function.comp_def]
    rw [hrest, List.forall_mem_append, List.forall_mem_append]
    refine ⟨⟨fun other hother => ?_, not_touches_weaveFrom hnoise h.quiet (i + 1)⟩, hreport r⟩
    have hescort : other.Escorts op idle n :=
      escorts_of_mem_block hnoise (List.mem_append_right _ hother)
    exact hescort.not_touches r

/-- The last operation of the stream on a slot writes it iff the program has written it since its
last restart, and is then the last of the program. -/
theorem exists_lastOn_build (program : List (Op R)) (r : Nat) (idle : Bool) (n : Nat) :
    ∃ p op, LastOn (Stream.build program noise idle n).ops r p op ∧
      if ∃ other ∈ sinceRestart program, other.writes r = true then
        op.writes r = true ∧
          ∃ i, LastOn program r i op ∧ (Stream.build program noise idle n)[p]? = some ⟨op, i⟩
      else op.isResetAll = true := by
  by_cases htouched : ∃ op ∈ program, op.touches r = true
  · obtain ⟨i, op, hlast⟩ := exists_lastOn htouched
    obtain ⟨p, hhere, hstream⟩ := lastOn_build hnoise hlast idle n
    refine ⟨p, op, hstream, ?_⟩
    split
    · rename_i hwritten
      exact ⟨hlast.writes_iff.2 hwritten, i, hlast, hhere⟩
    · rename_i hunwritten
      exact hlast.isResetAll_of_not_writes
        (Bool.eq_false_of_not_eq_true (mt hlast.writes_iff.1 hunwritten))
  · -- The program does nothing about the slot, and the restart of the stream has emptied it.
    simp only [not_exists, not_and, Bool.not_eq_true] at htouched
    have hnone : ¬∃ other ∈ sinceRestart program, other.writes r = true := by
      rintro ⟨other, hother, hwrites⟩
      have hquiet := htouched other ((sinceRestart_sublist program).subset hother)
      rw [Op.touches, hwrites, Bool.or_true] at hquiet
      cases hquiet
    obtain ⟨report, hreport, hbuild⟩ := exists_quiet_report program noise idle n
    refine ⟨0, .resetAll, ⟨rfl, rfl, ?_⟩, by rw [if_neg hnone]; rfl⟩
    rw [Stream.ops, hbuild, ← List.map_drop, List.cons_append, List.drop_succ_cons, List.drop_zero,
      List.map_append, List.forall_mem_append]
    exact ⟨not_touches_weaveFrom hnoise htouched 0, hreport r⟩

end Streams

/-! ## Results -/

namespace Config

variable {c : Config R} {pool : Pool} {stream : Stream R} {k : Nat}

/-- The slots of a solo shot at the end of its stream. -/
theorem measurements_soloLane {r p : Nat} {op : Op R} (hslot : r < c.resultCount)
    (h : LastOn stream.ops r p op)
    (hok : ((c.soloLane pool stream k).result stream c.qubits c.resultCount).status = .ok) :
    ((c.soloLane pool stream k).result stream c.qubits c.resultCount).measurements[r]? =
      some (if op.isResetAll then .zero
        else ((c.blankLane.after (c.soloJob pool stream k) 0 p).ready
          (c.soloJob pool stream k)).outcome op.q1) := by
  have hstatus : (c.soloLane pool stream k).shot.status = .ok := by
    by_contra hfailed
    have hbad :=
      isOk_decode hfailed (c.soloLane pool stream k).shot.statusOp stream.opcodes stream.origins
    rw [show ShotStatus.decode _ _ _ _ = .ok from hok] at hbad
    cases hbad
  have hsize : r < c.blankLane.slots.size := by
    rw [c.fits_blankLane.slots]
    omega
  have hall : (c.soloJob pool stream k).ops.toList.take stream.length = stream.ops :=
    List.take_of_length_le (Nat.le_of_eq (List.length_map _))
  have hplace : c.blankLane.shot.nextOp = 0 := rfl
  have hslots :=
    Lane.slots_after hplace (c.soloJob pool stream k) 0 hslot hsize (by rw [hall]; exact h) hstatus
  have htaken : ((c.soloLane pool stream k).result stream c.qubits c.resultCount).measurements[r]? =
      (c.soloLane pool stream k).slots[r]? := by
    change ((c.soloLane pool stream k).slots.toList.take c.resultCount)[r]? = _
    rw [List.getElem?_take_of_lt hslot, Array.getElem?_toList]
  rw [htaken]
  exact hslots

end Config

/-- The slots in the results of a run. -/
theorem Runs.exists_outcomes {program : List (Op R)} {c : Config R} {host : Host R}
    (h : Runs program c host) {stream : Stream R}
    (hstream : stream = Stream.build program c.noise c.idle.isSome c.qubits) :
    ∃ results, (runProgram program c host).result = .ok results ∧ results.shots.length = c.shots ∧
      ∀ k shot, results.shots[k]? = some shot → shot.status = .ok → ∀ r < c.resultCount,
        if ∃ op ∈ sinceRestart program, op.writes r = true then
          ∃ i p op, LastOn program r i op ∧ op.writes r = true ∧
            stream[p]? = some ⟨op, i⟩ ∧ LastOn stream.ops r p op ∧
            shot.measurements[r]? = some
              (((c.blankLane.after (c.soloJob host.pool stream k) 0 p).ready
                (c.soloJob host.pool stream k)).outcome op.q1)
        else shot.measurements[r]? = some .zero := by
  obtain ⟨results, hresult, hshots, _⟩ := h.exists_results hstream
  have hnoise := (Config.checked_of_validate h.checked).noise
  refine ⟨results, hresult, by rw [hshots, List.length_map, List.length_range], ?_⟩
  intro k shot hshot hok r hslot
  have hk : k < c.shots := by
    have hin := (List.getElem?_eq_some_iff.1 hshot).1
    rwa [hshots, List.length_map, List.length_range] at hin
  rw [hshots, List.getElem?_map, List.getElem?_range hk] at hshot
  obtain rfl := Option.some.inj hshot
  -- Noise and padding write no slot: the last write of the stream is that of the program.
  obtain ⟨p, op, hlast, hkind⟩ := exists_lastOn_build hnoise program r c.idle.isSome c.qubits
  rw [← hstream] at hlast hkind
  have hslots := Config.measurements_soloLane hslot hlast hok
  split at hkind
  · rename_i hwritten
    obtain ⟨hwrites, i, hprogram, hhere⟩ := hkind
    rw [if_pos hwritten]
    refine ⟨i, p, op, hprogram, hwrites, hhere, hlast, ?_⟩
    rw [hslots, if_neg (by simp [Op.not_isResetAll_of_writes hwrites])]
  · rename_i hunwritten
    rw [if_neg hunwritten, hslots, if_pos hkind]

/-- Contents of the result slots and the loss flags. In the results of a run, a slot of a successful
shot is zero if the program has not written it since its last restart, and otherwise holds the
outcome of the last operation that writes it. In every batch, after any number of steps, a slot
holds what the last operation on it left. A step other than a restart changes only the slot its
operation writes, and sets only the flag of a loss that fires. Hence between two steps without a
restart, lost qubits stay lost, and the newly lost ones are those of the losses that fired. -/
theorem slots_hold_last_outcome :
    (∀ (program : List (Op R)) (c : Config R) (host : Host R), Runs program c host →
      let stream := Stream.build program c.noise c.idle.isSome c.qubits
      ∃ results, (runProgram program c host).result = .ok results ∧ results.shots.length = c.shots ∧
        ∀ k shot, results.shots[k]? = some shot → shot.status = .ok → ∀ r < c.resultCount,
          if ∃ op ∈ sinceRestart program, op.writes r = true then
            ∃ i p op, LastOn program r i op ∧ op.writes r = true ∧
              stream[p]? = some ⟨op, i⟩ ∧ LastOn stream.ops r p op ∧
              shot.measurements[r]? = some
                (((c.blankLane.after (c.soloJob host.pool stream k) 0 p).ready
                (c.soloJob host.pool stream k)).outcome op.q1)
          else shot.measurements[r]? = some .zero) ∧
    (∀ (m : Machine R) (batch : Batch R) (i count : Nat) (lane : Lane R), m.Fits → i < batch.shots →
      ((m.beginBatch batch).run count).lanes[i]? = some lane → lane.shot.status = .ok →
      ∀ r < m.resultCount, ∀ p op, LastOn (m.ops.toList.take count) r p op →
        ∃ before, ((m.beginBatch batch).run p).lanes[i]? = some before ∧
          lane.slots[r]? = some
            (if op.isResetAll then .zero else (before.ready (m.batchJob batch)).outcome op.q1)) ∧
    (∀ (lane : Lane R) (job : Job R) (shotIdx : Nat) (op : Op R),
      job.ops[lane.shot.nextOp]? = some op → op.isResetAll = false →
      (∀ r, op.writes r = false → (lane.step job shotIdx).slots[r]? = lane.slots[r]?) ∧
      (lane.step job shotIdx).shot.lost =
        if lane.loses job op then lane.shot.lost ||| 1 <<< op.q1 else lane.shot.lost) ∧
    ∀ (m : Machine R) (batch : Batch R) (i start count : Nat) (lane lane' : Lane R),
      i < batch.shots → ((m.beginBatch batch).run start).lanes[i]? = some lane →
      ((m.beginBatch batch).run (start + count)).lanes[i]? = some lane' →
      (∀ j, start ≤ j → j < start + count → ∀ op, m.ops[j]? = some op → op.isResetAll = false) →
      ∀ q, lane'.shot.isLost q = true ↔ lane.shot.isLost q = true ∨
        ∃ j op, start ≤ j ∧ j < start + count ∧ m.ops[j]? = some op ∧ op.q1 = q ∧
          ∃ before, ((m.beginBatch batch).run j).lanes[i]? = some before ∧
            before.loses (m.batchJob batch) op = true := by
  refine ⟨fun program c host h => h.exists_outcomes rfl, ?_, ?_, ?_⟩
  · intro m batch i count lane hfits hi hlane hok r hslot p op hlast
    rw [m.getElem?_lanes_run hi] at hlane
    obtain ⟨old, hold, rfl⟩ := Option.map_eq_some_iff.1 hlane
    have hsize : r < old.slots.size := by
      rw [(hfits old (Array.mem_of_getElem? hold)).slots]
      omega
    refine ⟨_, by rw [m.getElem?_lanes_run hi, hold]; rfl, ?_⟩
    have hplace : ({ old with shot := 0 } : Lane R).shot.nextOp = 0 := rfl
    exact Lane.slots_after hplace (m.batchJob batch) i hslot hsize hlast hok
  · intro lane job shotIdx op hop hreset
    exact ⟨fun r hquiet => Lane.slots_step_of_quiet hop hreset shotIdx hquiet,
      Lane.lost_step hop hreset shotIdx⟩
  · intro m batch i start count lane lane' hi hlane hlane' hquiet q
    rw [m.getElem?_lanes_run hi] at hlane hlane'
    obtain ⟨old, hold, rfl⟩ := Option.map_eq_some_iff.1 hlane
    rw [hold, Option.map_some, Option.some.injEq] at hlane'
    subst hlane'
    rw [Lane.isLost_after rfl (m.batchJob batch) i hquiet q]
    -- The lane in which a loss fires is the one that `isLost_after` speaks of.
    have hbefore : ∀ j before, ((m.beginBatch batch).run j).lanes[i]? = some before ↔
        Lane.after { old with shot := 0 } (m.batchJob batch) i j = before := by
      intro j before
      rw [m.getElem?_lanes_run hi, hold, Option.map_some, Option.some.injEq]
    simp only [hbefore, exists_eq_left']
    exact Iff.rfl

def lostReadout : List (Op Float32) :=
  [.x 0, .mz 0 0, .mz 0 2, .resetAll, .loss 0 1, .mz 0 0, .mz 1 1, .mResetZ 1 1]

def lostReadoutConfig : Config Float32 := { Config.standard with qubits := 2, resultCount := 3 }

/-- Slot 0 holds the measurement after the loss; slot 2 was cleared by the restart. -/
theorem slots_hold_last_outcome_lost :
    Runs lostReadout lostReadoutConfig .empty ∧
      ∃ results shot, (runProgram lostReadout lostReadoutConfig .empty).result = .ok results ∧
        results.shots = [shot] ∧ shot.status = .ok ∧ shot.measurements[0]? = some .lost ∧
        shot.measurements[2]? = some .zero := by
  have hruns : Runs lostReadout lostReadoutConfig .empty := ⟨rfl, rfl, ⟨_, rfl⟩, by decide⟩
  obtain ⟨stream, hstream⟩ : ∃ stream, stream =
      Stream.build lostReadout lostReadoutConfig.noise lostReadoutConfig.idle.isSome
        lostReadoutConfig.qubits := ⟨_, rfl⟩
  obtain ⟨results, hresult, hlength, hslots⟩ :=
    slots_hold_last_outcome.1 lostReadout lostReadoutConfig .empty hruns
  rw [← hstream] at hslots
  obtain ⟨shot, hshot⟩ := List.length_eq_one_iff.1 hlength
  have hok : shot.status = .ok := by
    obtain ⟨results', hresult', hshots, _⟩ := hruns.exists_results hstream
    obtain rfl : results = results' := Except.ok.inj (hresult.symm.trans hresult')
    rw [hshots] at hshot
    obtain rfl := List.singleton_inj.1 hshot
    rw [Config.status_soloLane, hstream]
    decide
  have hhere : results.shots[0]? = some shot := by rw [hshot]; rfl
  refine ⟨hruns, results, shot, hresult, hshot, hok, ?_, ?_⟩
  · have hslot := hslots 0 shot hhere hok 0 (by decide)
    rw [if_pos (by decide)] at hslot
    obtain ⟨_, p, op, _, _, _, hlast, hvalue⟩ := hslot
    subst hstream
    have hreads :
        LastOn (Stream.build lostReadout lostReadoutConfig.noise lostReadoutConfig.idle.isSome
        lostReadoutConfig.qubits).ops 0 6 (.mz 0 0) := ⟨rfl, rfl, by decide⟩
    obtain rfl := hlast.eq_of_lastOn hreads
    obtain rfl := Option.some.inj (hlast.here.symm.trans hreads.here)
    generalize hjob : lostReadoutConfig.soloJob _ _ 0 = job at hvalue
    -- The restart in the middle comes just before the loss, and tells what the loss draws.
    have hplace : lostReadoutConfig.blankLane.shot.nextOp = 0 := rfl
    have hstart := Lane.getElem?_nextOp_at hplace job 0 4
    have hfresh : job.ops[4]? = some .resetAll := by rw [← hjob]; rfl
    have hloss : job.ops[5]? = some (.loss 0 1) := by rw [← hjob]; rfl
    have hfires : (lostReadoutConfig.blankLane.after job 0 5).loses job (.loss 0 1) = true := by
      rw [Lane.loses, Lane.draws_ready, Lane.after_succ, Lane.shot_step,
        Lane.prepare_of_resetAll (hstart.trans hfresh) rfl, ← hjob]
      decide +kernel
    have hquiet : ∀ j, 5 ≤ j → j < 5 + 1 → ∀ op, job.ops[j]? = some op → op.isResetAll = false := by
      intro j hj hj' op hop
      obtain rfl : j = 5 := by omega
      rw [hloss] at hop
      exact Option.some.inj hop ▸ rfl
    have hlost := (Lane.isLost_after hplace job 0 hquiet 0).2
      (Or.inr ⟨5, _, Nat.le_refl 5, Nat.lt_succ_self 5, hloss, rfl, hfires⟩)
    rw [hvalue, Shot.outcome, Lane.isLost_ready]
    exact congrArg some (if_pos hlost)
  · have hslot := hslots 0 shot hhere hok 2 (by decide)
    rwa [if_neg (by decide)] at hslot

end ShotSim
