import ShotSim.Proofs.FreshStart
import ShotSim.Proofs.Weave

/-!
# Frozen shots — what is left to happen after a failure

A shot that fails is not taken out of its batch.  It draws, adds up its sums and goes over its
amplitudes like any other shot, step by step until it restarts, and all that comes of it is a
rescale.

* `Lane.execute_of_stretches` — a step that gives every workgroup a stretch of its own;
* `Lane.execute_of_scaleOnly` — a rescale multiplies every amplitude, and leaves reports and slots
  alone;
* `Lane.Frozen` — two moments of a shot between which it did nothing of its own;
* `Lane.prepare_of_failed`, `Lane.frozen_step` — deciding and carrying out a step of a failed shot;
* `failed_shot_frozen` — from the step that fails up to the next restart.
-/

namespace ShotSim

open BasisIndex

variable {R : Type} [Scalar R]

/-! ## Stretch after stretch -/

section Stretches

variable {job : Job R} {shot : Shot R}

/-- In a contiguous step the share of a workgroup is its own stretch of indices. -/
theorem share_of_contiguous (hmode : shot.mode.arity = 0) (workgroup : Nat) :
    job.share shot workgroup =
      (List.range' (workgroup * job.layout.entriesPerWorkgroup) job.layout.entriesPerWorkgroup).map
        fun i => [i] := by
  have hgroups : ∀ q1 q2 q3 perThread, groups shot.mode q1 q2 q3 perThread =
      fun worker => (workerItems worker perThread).map fun i => [i] := by
    intro q1 q2 q3 perThread
    cases hshape : shot.mode with
    | resetAll | extract | scaleOnly => rfl
    | gate1 | gate2 | gate3 =>
        rw [hshape] at hmode
        cases hmode
  rw [Job.share, workgroupGroups, hgroups, ← List.map_flatMap, workerItems, flatMap_workerItems,
    Layout.entriesPerWorkgroup, Nat.mul_assoc, Nat.mul_comm threadsPerWorkgroup]

/-- If every workgroup maps its shard of `block` to its shard of `final`, the shards compose to the
tiled part of `final`. -/
theorem runShards_of_stretches {block final : Array (Cplx R)}
    (hown : ∀ workgroup, (workgroup + 1) * job.layout.entriesPerWorkgroup ≤ block.size →
      ((job.layout.shard block workgroup).runWorkgroup job shot workgroup).1 =
        job.layout.shard final workgroup) (start count : Nat)
    (h : (start + count) * job.layout.entriesPerWorkgroup ≤ block.size) :
    (Lane.runShards job shot block (List.range' start count)).1 =
      final.extract (start * job.layout.entriesPerWorkgroup)
        ((start + count) * job.layout.entriesPerWorkgroup) := by
  induction count generalizing start with
  | zero => simp [Lane.runShards]
  | succ count ih =>
      have hlast : start + 1 + count = start + (count + 1) := by omega
      have hnext : (start + 1) * job.layout.entriesPerWorkgroup =
          start * job.layout.entriesPerWorkgroup + job.layout.entriesPerWorkgroup :=
            Nat.succ_mul _ _
      have hmono : (start + 1) * job.layout.entriesPerWorkgroup ≤
          (start + (count + 1)) * job.layout.entriesPerWorkgroup :=
        Nat.mul_le_mul_right _ (by omega)
      rw [List.range'_succ, Lane.runShards]
      dsimp only
      rw [hown start (Nat.le_trans hmono h), ih (start + 1) (by rw [hlast]; exact h)]
      simp only [Layout.shard]
      rw [← hnext, Array.extract_append_extract, hlast,
        Nat.min_eq_left (Nat.mul_le_mul_right _ (Nat.le_succ start)), Nat.max_eq_right hmono]

/-- `execute` of a step that fits its shards, for a tiled block. -/
theorem Lane.execute_of_stretches {lane : Lane R} (hmode : lane.shot.mode.arity = 0)
    (hblock : lane.block.size = job.layout.workgroups * job.layout.entriesPerWorkgroup)
    (final : Array (Cplx R)) (hsize : final.size = lane.block.size)
    (hown : ∀ workgroup, (workgroup + 1) * job.layout.entriesPerWorkgroup ≤ lane.block.size →
      ((job.layout.shard lane.block workgroup).runWorkgroup job lane.shot workgroup).1 =
        job.layout.shard final workgroup) :
    (lane.execute job).block = final ∧
      (lane.execute job).log =
        (shardReports job lane.shot lane.block).foldl ReportLog.push lane.log ∧
      (lane.execute job).slots = lane.slots := by
  have hfits : fitsShard job lane.shot = true := by
    rw [fitsShard, Mode.isContiguous, hmode]
    rfl
  have hshards := runShards_of_stretches hown 0 job.layout.workgroups (by rw [Nat.zero_add, hblock])
  rw [← List.range_eq_range', Nat.zero_mul, Nat.zero_add, ← hblock] at hshards
  rw [execute, if_pos hfits]
  refine ⟨?_, rfl, rfl⟩
  have hjoined : (lane.executeSharded job).block =
      (runShards job lane.shot lane.block (List.range job.layout.workgroups)).1 ++
        lane.block.extract (job.layout.workgroups * job.layout.entriesPerWorkgroup)
          lane.block.size := rfl
  rw [hjoined, hshards, ← hblock, ← hsize]
  simp

end Stretches

/-! ## Rescales -/

/-- Sweeping a stretch with a rescale scales it pointwise. -/
theorem sweep_rescale_stretch (factor : R) (base : Nat) (amps : Array (Cplx R)) :
    (sweep (.rescale factor) ((List.range' base amps.size).map fun i => [i]) ⟨base, amps⟩).1 =
      ⟨base, amps.map (·.scale factor)⟩ := by
  have hflat : ((List.range' base amps.size).map fun i => [i]).flatten =
      List.range' base amps.size := by
    rw [← List.flatMap_def, List.flatMap_singleton']
  have hnodup : ((List.range' base amps.size).map fun i => [i]).flatten.Nodup := by
    rw [hflat]
    exact List.nodup_range'
  have hown : ∀ i ∈ ((List.range' base amps.size).map fun i => [i]).flatten,
      (⟨base, amps⟩ : Window R).Owns i := by
    intro i hi
    rw [hflat, List.mem_range'_1] at hi
    exact ⟨hi.1, by dsimp only; omega⟩
  apply Window.ext_get
  · rw [base_sweep]
  · rw [size_sweep, Array.size_map]
  · intro i hi
    obtain ⟨hle, hlt⟩ := owns_sweep.1 hi
    dsimp only at hle hlt
    have hmem : [i] ∈ (List.range' base amps.size).map fun i => [i] :=
      List.mem_map_of_mem (List.mem_range'_1.2 ⟨hle, by omega⟩)
    have hact := getElem?_act_eq_get_sweep (.rescale factor) hnodup hown hmem
      (show [i][0]? = some i from rfl)
    have hget : (sweep (.rescale factor) ((List.range' base amps.size).map fun i => [i])
        ⟨base, amps⟩).1.get i = ((⟨base, amps⟩ : Window R).get i).scale factor :=
      (Option.some.inj hact).symm
    rw [hget]
    simp [Window.get, hlt]

section Rescale

variable {job : Job R} {shot : Shot R} (hmode : shot.mode = .scaleOnly)

include hmode

/-- A workgroup of a rescale scales its shard pointwise. -/
theorem runWorkgroup_shard_of_scaleOnly {block : Array (Cplx R)} {workgroup : Nat}
    (h : (workgroup + 1) * job.layout.entriesPerWorkgroup ≤ block.size) :
    ((job.layout.shard block workgroup).runWorkgroup job shot workgroup).1 =
      job.layout.shard (block.map (·.scale shot.renormalize)) workgroup := by
  have haction : job.action shot = .rescale shot.renormalize := by
    rw [Job.action, Action.ofShot, hmode]
  have hsize : (job.layout.shard block workgroup).amps.size = job.layout.entriesPerWorkgroup := by
    rw [Nat.succ_mul] at h
    simp only [Layout.shard, Array.size_extract]
    omega
  have hwindow :=
    sweep_rescale_stretch shot.renormalize (workgroup * job.layout.entriesPerWorkgroup)
    (job.layout.shard block workgroup).amps
  rw [hsize, ← share_of_contiguous (by rw [hmode]; rfl), ← haction] at hwindow
  have hshard : (⟨workgroup * job.layout.entriesPerWorkgroup,
      (job.layout.shard block workgroup).amps.map (·.scale shot.renormalize)⟩ : Window R) =
        job.layout.shard (block.map (·.scale shot.renormalize)) workgroup := by
    simp only [Layout.shard, Array.map_extract]
  exact (Window.runWorkgroup_fst job shot _ workgroup).trans (hwindow.trans hshard)

end Rescale

/-- A rescale scales a tiled block pointwise. -/
theorem Lane.execute_of_scaleOnly {lane : Lane R} {job : Job R}
    (hmode : lane.shot.mode = .scaleOnly)
    (hblock : lane.block.size = job.layout.workgroups * job.layout.entriesPerWorkgroup) :
    (lane.execute job).block = lane.block.map (·.scale lane.shot.renormalize) ∧
      (lane.execute job).log = lane.log ∧ (lane.execute job).slots = lane.slots := by
  obtain ⟨hamps, hlog, hslots⟩ := execute_of_stretches (by rw [hmode]; rfl) hblock
    (lane.block.map (·.scale lane.shot.renormalize)) Array.size_map
    fun _ hroom => runWorkgroup_shard_of_scaleOnly hmode hroom
  rw [shardReports_of_not_extract job lane.block (by rw [hmode]; decide)] at hlog
  exact ⟨hamps, hlog, hslots⟩

/-! ## Failed shots -/

/-- A shot with unchanged measurements, reports, times, loss flags and parallel region. -/
structure Lane.Frozen (lane now : Lane R) : Prop where
  slots : now.slots = lane.slots
  log : now.log = lane.log
  elapsed : now.shot.elapsed = lane.shot.elapsed
  heat : ∀ q, (now.shot.qubit q).heat = (lane.shot.qubit q).heat
  idle : ∀ q, (now.shot.qubit q).idle = (lane.shot.qubit q).idle
  lost : now.shot.lost = lane.shot.lost
  region : now.shot.region = lane.shot.region

namespace Lane

theorem Frozen.refl (lane : Lane R) : lane.Frozen lane :=
  ⟨rfl, rfl, rfl, fun _ => rfl, fun _ => rfl, rfl, rfl⟩

/-- `Frozen` is transitive. -/
theorem Frozen.trans {a b c : Lane R} (h : a.Frozen b) (h' : b.Frozen c) : a.Frozen c where
  slots := h'.slots.trans h.slots
  log := h'.log.trans h.log
  elapsed := h'.elapsed.trans h.elapsed
  heat q := (h'.heat q).trans (h.heat q)
  idle q := (h'.idle q).trans (h.idle q)
  lost := h'.lost.trans h.lost
  region := h'.region.trans h.region

/-- `ready` changes draws, probabilities and the rescale factor only. -/
theorem frozen_ready (lane : Lane R) (job : Job R) :
    lane.Frozen { lane with shot := lane.ready job } := by
  have hqubit : ∀ q, ((lane.ready job).qubit q).heat = (lane.shot.qubit q).heat ∧
      ((lane.ready job).qubit q).idle = (lane.shot.qubit q).idle := by
    intro q
    unfold ready Shot.takeCollation
    dsimp only
    split
    · simp only [Shot.qubit, Shot.mapQubits, Shot.draw, Vector.getElem?_mapIdx]
      cases lane.shot.qubits[q]? with
      | none => exact ⟨rfl, rfl⟩
      | some state =>
          simp only [Option.map_some, Option.getD_some]
          split <;> exact ⟨rfl, rfl⟩
    · exact ⟨rfl, rfl⟩
  refine ⟨rfl, rfl, ?_, fun q => (hqubit q).1, fun q => (hqubit q).2, lost_ready lane job, ?_⟩ <;>
    · unfold ready Shot.takeCollation
      dsimp only
      split <;> rfl

end Lane

/-- An operation whose result is a failure was rejected before any effect. -/
theorem Register.resolve_of_failed {r : Register R} {job : Job R} {op : Op R} {opIdx : Nat}
    (hok : r.shot.status = .ok) (hfailed : (r.resolve job op opIdx).shot.status ≠ .ok) :
    ∃ code, r.resolve job op opIdx = { r with shot := r.shot.fail code opIdx } := by
  by_cases hunsupported : (!op.code.isKnown || op.code = .injected) = true
  · exact ⟨.unsupportedOp, by rw [resolve, if_pos hunsupported]⟩
  · by_cases hinvalid : (!validQubits job.batch.qubits op.qubits) = true
    · exact ⟨.invalidQubit, by rw [resolve, if_neg hunsupported, if_pos hinvalid]⟩
    · -- An operation that is carried out does not fail the shot.
      have hverdict : (r.resolve job op opIdx).shot.verdict = r.shot.verdict := by
        rw [resolve, if_neg hunsupported, if_neg hinvalid]
        dsimp only
        rw [Shot.verdict_accrue]
        split
        · rw [Shot.verdict_injectDecay, verdict_select]
        · rw [verdict_select]
      exact absurd ((congrArg Prod.fst hverdict).trans hok) hfailed

namespace Lane

/-- A step on a failed or failing shot prepares a rescale and nothing else. -/
theorem prepare_of_failed {lane : Lane R} {job : Job R} {shotIdx : Nat} {op : Op R}
    (hop : job.ops[lane.shot.nextOp]? = some op) (hreset : op.isResetAll = false)
    (hfailed : (lane.prepare job shotIdx).shot.status ≠ .ok) :
    lane.Frozen (lane.prepare job shotIdx) ∧ (lane.prepare job shotIdx).shot.mode = .scaleOnly ∧
      (lane.prepare job shotIdx).shot.renormalize =
        renormalizer (Scalar.sum (lane.sums.toList.map (·.total))) := by
  have hready := lane.frozen_ready job
  have hfactor := lane.renormalize_ready job
  rw [prepare, hop] at hfailed ⊢
  dsimp only at hfailed ⊢
  rw [hreset, if_neg Bool.false_ne_true] at hfailed ⊢
  by_cases hok : (lane.ready job).status = .ok
  · rw [advance_of_ok hok] at hfailed ⊢
    rcases Register.resolve_of_failed hok hfailed with ⟨code, hrefused⟩
    rw [hrefused]
    exact ⟨⟨rfl, rfl, hready.elapsed, hready.heat, hready.idle, hready.lost, hready.region⟩,
      rfl, hfactor⟩
  · rw [advance_of_failed hok]
    exact ⟨⟨rfl, rfl, hready.elapsed, hready.heat, hready.idle, hready.lost, hready.region⟩,
      rfl, hfactor⟩

section Step

variable {lane : Lane R} {job : Job R} {shotIdx : Nat}
  (hblock : lane.block.size = job.layout.workgroups * job.layout.entriesPerWorkgroup)
  (hquiet : ∀ op, job.ops[lane.shot.nextOp]? = some op → op.isResetAll = false)
  (hfailed : (lane.prepare job shotIdx).shot.status ≠ .ok)

include hquiet hfailed

/-- `prepare` freezes a failed shot. -/
theorem frozen_prepare :
    lane.Frozen (lane.prepare job shotIdx) ∧ (lane.prepare job shotIdx).shot.mode = .scaleOnly := by
  cases hop : job.ops[lane.shot.nextOp]? with
  | none =>
      rw [prepare_past_end hop]
      exact ⟨⟨rfl, rfl, rfl, fun _ => rfl, fun _ => rfl, rfl, rfl⟩, rfl⟩
  | some op =>
      rcases prepare_of_failed hop (hquiet op hop) hfailed with ⟨hfrozen, hmode, _⟩
      exact ⟨hfrozen, hmode⟩

include hblock

/-- A step of a failed shot only rescales the amplitudes. -/
theorem frozen_step :
    lane.Frozen (lane.step job shotIdx) ∧
      (lane.step job shotIdx).block =
        lane.block.map (·.scale (lane.prepare job shotIdx).shot.renormalize) := by
  rcases frozen_prepare hquiet hfailed with ⟨hdecided, hmode⟩
  rcases lane.prepare_frame job shotIdx with ⟨hsame, _⟩
  rcases execute_of_scaleOnly hmode (by rw [hsame, hblock]) with ⟨hamps, hlog, hslots⟩
  rw [hsame] at hamps
  refine ⟨⟨hslots.trans hdecided.slots, hlog.trans hdecided.log, ?_, ?_, ?_, ?_, ?_⟩, hamps⟩
  · rw [shot_step, hdecided.elapsed]
  · intro q
    rw [shot_step, hdecided.heat]
  · intro q
    rw [shot_step, hdecided.idle]
  · rw [shot_step, hdecided.lost]
  · rw [shot_step, hdecided.region]

end Step

/-- A failed shot keeps its verdict through every operation but a restart. -/
theorem verdict_prepare_of_failed {lane : Lane R} {job : Job R} (shotIdx : Nat)
    (hquiet : ∀ op, job.ops[lane.shot.nextOp]? = some op → op.isResetAll = false)
    (hfailed : lane.shot.status ≠ .ok) :
    (lane.prepare job shotIdx).shot.verdict = lane.shot.verdict := by
  cases hop : job.ops[lane.shot.nextOp]? with
  | none =>
      rw [prepare_past_end hop]
      rfl
  | some op => rw [verdict_prepare shotIdx hop, verdictAfter_of_failed _ (hquiet op hop) hfailed]

/-- Every step consumes one operation until the stream is exhausted. -/
theorem nextOp_after_eq_min {lane : Lane R} {job : Job R} (hplace : lane.shot.nextOp ≤ job.ops.size)
    (shotIdx count : Nat) :
    (lane.after job shotIdx count).shot.nextOp = min (lane.shot.nextOp + count) job.ops.size := by
  induction count generalizing lane with
  | zero => exact (Nat.min_eq_left hplace).symm
  | succ count ih =>
      cases hop : job.ops[lane.shot.nextOp]? with
      | none =>
          have hover := Array.getElem?_eq_none_iff.1 hop
          have hstays : (lane.step job shotIdx).shot.nextOp = lane.shot.nextOp := by
            rw [shot_step, prepare_past_end hop]
          rw [after, ih (by rw [hstays]; exact hplace), hstays]
          omega
      | some op =>
          have hinside := (Array.getElem?_eq_some_iff.1 hop).1
          have hnext : (lane.step job shotIdx).shot.nextOp = lane.shot.nextOp + 1 := by
            rw [shot_step, nextOp_prepare shotIdx hop]
          rw [after, ih (by omega), hnext]
          omega

/-- The last step of a run, split off. -/
theorem after_succ (lane : Lane R) (job : Job R) (shotIdx count : Nat) :
    lane.after job shotIdx (count + 1) = (lane.after job shotIdx count).step job shotIdx :=
  lane.after_add job shotIdx count 1

section Run

variable {lane : Lane R} {job : Job R} {shotIdx : Nat}
  (hblock : lane.block.size = job.layout.workgroups * job.layout.entriesPerWorkgroup)
  (hplace : lane.shot.nextOp ≤ job.ops.size)
  (hfailed : (lane.prepare job shotIdx).shot.status ≠ .ok) {count : Nat}
  (hquiet : ∀ j ≤ count, ∀ op, job.ops[lane.shot.nextOp + j]? = some op → op.isResetAll = false)

include hplace hquiet in
/-- The operation after `count` steps, if any, is not a restart. -/
theorem quiet_after {k : Nat} (hk : k ≤ count) (op : Op R)
    (hop : job.ops[(lane.after job shotIdx k).shot.nextOp]? = some op) : op.isResetAll = false := by
  have hinside := (Array.getElem?_eq_some_iff.1 hop).1
  have hnext := nextOp_after_eq_min hplace shotIdx k
  have hhere : (lane.after job shotIdx k).shot.nextOp = lane.shot.nextOp + k := by omega
  rw [hhere] at hop
  exact hquiet k hk op hop

include hblock hplace hfailed hquiet

/-- Invariant of the run from the failing step on: the shot is frozen, the block stays tiled and the
verdict is kept. -/
theorem frozen_after {k : Nat} (hk : k ≤ count) :
    lane.Frozen (lane.after job shotIdx k) ∧
      (lane.after job shotIdx k).block.size = job.layout.workgroups *
        job.layout.entriesPerWorkgroup ∧
      ((lane.after job shotIdx k).prepare job shotIdx).shot.verdict =
        (lane.prepare job shotIdx).shot.verdict := by
  induction k with
  | zero => exact ⟨.refl lane, hblock, rfl⟩
  | succ k ih =>
      rcases ih (by omega) with ⟨hfrozen, hsize, hverdict⟩
      have hstill : ((lane.after job shotIdx k).prepare job shotIdx).shot.status ≠ .ok := by
        have hstatus := congrArg Prod.fst hverdict
        rw [show ((lane.after job shotIdx k).prepare job shotIdx).shot.status =
          (lane.prepare job shotIdx).shot.status from hstatus]
        exact hfailed
      rcases frozen_step hsize (quiet_after hplace hquiet (by omega)) hstill with ⟨hstep, hamps⟩
      rw [← after_succ] at hstep hamps
      refine ⟨hfrozen.trans hstep, by rw [hamps, Array.size_map, hsize], ?_⟩
      have hshot : (lane.after job shotIdx (k + 1)).shot =
          ((lane.after job shotIdx k).prepare job shotIdx).shot := by
        rw [after_succ, shot_step]
      rw [verdict_prepare_of_failed shotIdx (quiet_after hplace hquiet hk)
        (by rw [hshot]; exact hstill), hshot, hverdict]

end Run

/-- The verdict of a failing step names the operation of that step. -/
theorem exists_refused {lane : Lane R} {job : Job R} {shotIdx : Nat} (hok : lane.shot.status = .ok)
    (hfailed : (lane.prepare job shotIdx).shot.status ≠ .ok) :
    ∃ op, job.ops[lane.shot.nextOp]? = some op ∧ op.isResetAll = false ∧
      (lane.prepare job shotIdx).shot.verdict =
        (if op.isUnsupported then .unsupportedOp else .invalidQubit, lane.shot.nextOp) := by
  cases hop : job.ops[lane.shot.nextOp]? with
  | none =>
      rw [prepare_past_end hop] at hfailed
      exact absurd hok hfailed
  | some op =>
      have hverdict := verdict_prepare shotIdx hop
      have hstatus : (lane.prepare job shotIdx).shot.verdict.1 ≠ .ok := hfailed
      refine ⟨op, rfl, ?_⟩
      cases hreset : op.isResetAll with
      | true =>
          rw [hverdict, verdictAfter_resetAll _ _ hreset] at hstatus
          exact absurd rfl hstatus
      | false =>
          refine ⟨rfl, ?_⟩
          rw [verdictAfter_of_ok _ hreset hok] at hverdict
          rw [hverdict, Op.isUnsupported]
          split
          · rfl
          · -- It is refused for its qubits then, as it would not have been refused otherwise.
            split
            · rfl
            · rename_i hsupported hvalid
              rw [if_neg hsupported, if_neg hvalid] at hverdict
              exact absurd (hverdict ▸ hok) hstatus

end Lane

/-- A failed shot is frozen. From the failing step until the next restart, `prepare` and `execute`
keep its measurements, reports, times, loss flags and parallel region, and only rescale its
amplitudes. The verdict is kept, and every step still consumes an operation. -/
theorem failed_shot_frozen (job : Job R) (lane : Lane R) (shotIdx : Nat)
    (hblock : lane.block.size = job.layout.workgroups * job.layout.entriesPerWorkgroup)
    (hok : lane.shot.status = .ok) (hfails : (lane.prepare job shotIdx).shot.status ≠ .ok)
    (count : Nat)
    (hlater : ∀ j, 0 < j → j ≤ count → ∀ op, job.ops[lane.shot.nextOp + j]? = some op →
      op.isResetAll = false) :
    let before := lane.after job shotIdx count
    let decided := before.prepare job shotIdx
    let now := decided.execute job
    lane.Frozen decided ∧ lane.Frozen now ∧ decided.block = before.block ∧
      now.block = before.block.map (·.scale decided.shot.renormalize) ∧
      (∃ op, job.ops[lane.shot.nextOp]? = some op ∧
        ∀ shot ∈ [decided.shot, now.shot],
          shot.status = (if op.isUnsupported then .unsupportedOp else .invalidQubit) ∧
            shot.statusOp = lane.shot.nextOp) ∧
      (lane.shot.nextOp + count < job.ops.size →
        before.shot.nextOp = lane.shot.nextOp + count ∧
          decided.shot.nextOp = before.shot.nextOp + 1 ∧ now.shot.nextOp = before.shot.nextOp + 1 ∧
          decided.shot.renormalize =
            renormalizer (Scalar.sum (before.sums.toList.map (·.total)))) := by
  intro before decided now
  obtain ⟨op, hop, hreset, hverdict⟩ := Lane.exists_refused hok hfails
  have hinside := (Array.getElem?_eq_some_iff.1 hop).1
  -- The refused operation is no restart either, so `hlater` extends to `j = 0`.
  have hquiet : ∀ j ≤ count, ∀ other, job.ops[lane.shot.nextOp + j]? = some other →
      other.isResetAll = false := by
    intro j hj other hother
    cases j with
    | zero =>
        rw [Nat.add_zero, hop] at hother
        cases hother
        exact hreset
    | succ j => exact hlater (j + 1) (Nat.succ_pos j) hj other hother
  have hplace : lane.shot.nextOp ≤ job.ops.size := Nat.le_of_lt hinside
  obtain ⟨hfrozen, hsize, hkept⟩ :=
    Lane.frozen_after hblock hplace hfails hquiet (Nat.le_refl count)
  -- The verdict of the failing step is the one that later steps keep.
  have hdecided : decided.shot.verdict =
      (if op.isUnsupported then .unsupportedOp else .invalidQubit, lane.shot.nextOp) :=
    hkept.trans hverdict
  have hfailed : decided.shot.status ≠ .ok := by
    have hstatus : decided.shot.status = _ := congrArg Prod.fst hdecided
    rw [hstatus]
    split <;> simp
  have hnext : ∀ other, job.ops[before.shot.nextOp]? = some other → other.isResetAll = false :=
    Lane.quiet_after hplace hquiet (Nat.le_refl count)
  have hprepare := Lane.frozen_prepare hnext hfailed
  have hstep := Lane.frozen_step hsize hnext hfailed
  have hshot : now.shot = decided.shot := decided.shot_execute job
  refine ⟨hfrozen.trans hprepare.1, hfrozen.trans hstep.1,
    (before.prepare_frame job shotIdx).1, hstep.2, ⟨op, hop, ?_⟩, ?_⟩
  · intro shot hmem
    have hsame : shot = decided.shot := by simpa [hshot] using hmem
    rw [hsame]
    exact ⟨congrArg Prod.fst hdecided, congrArg Prod.snd hdecided⟩
  · intro hleft
    have hbefore : before.shot.nextOp = lane.shot.nextOp + count :=
      Lane.nextOp_after shotIdx (Nat.le_of_lt hleft)
    have hhere : job.ops[before.shot.nextOp]? = some job.ops[lane.shot.nextOp + count] := by
      rw [hbefore]
      exact Array.getElem?_eq_getElem hleft
    refine ⟨hbefore, Lane.nextOp_prepare shotIdx hhere, ?_, ?_⟩
    · rw [hshot]
      exact Lane.nextOp_prepare shotIdx hhere
    · exact (Lane.prepare_of_failed hhere (hnext _ hhere) hfailed).2.2

def brokenJob : Job Float32 where
  ops := #[.h 7, .mz 0 0, .loss 0 1, .parallelEnd, .injected 0 1 2, .mEveryZ]
  batch := ⟨0, 0, 1, 2, 0⟩
  idle := 0
  layout := .ofCircuit 2 8
  resultCount := 1

def regionLane : Lane Float32 where
  shot := { (0 : Shot Float32) with elapsed := 3, lost := 2, region := ⟨true, 1, 2⟩ }
  block := Array.replicate 1024 ⟨1, 0⟩
  sums := #[0, 0, 0, 0]
  log := ⟨1, #[⟨3, 1⟩]⟩
  slots := #[.one]

/-- A shot failed within an open parallel region. -/
theorem failed_shot_frozen_region :
    regionLane.shot.status = .ok ∧ (regionLane.prepare brokenJob 0).shot.status = .invalidQubit ∧
      let last := regionLane.after brokenJob 0 6
      last.slots = #[.one] ∧ last.log = ⟨1, #[⟨3, 1⟩]⟩ ∧ last.shot.elapsed = 3 ∧
        last.shot.lost = 2 ∧ last.shot.region = ⟨true, 1, 2⟩ ∧
        last.shot.status = .invalidQubit ∧ last.shot.statusOp = 0 ∧ last.shot.nextOp = 6 := by
  have hblock : regionLane.block.size =
      brokenJob.layout.workgroups * brokenJob.layout.entriesPerWorkgroup := by
    simp [regionLane, brokenJob, Layout.ofCircuit, Layout.entriesPerWorkgroup, minQubitCount,
      maxQubitsPerWorkgroup, threadsPerWorkgroup]
  have hop : brokenJob.ops[regionLane.shot.nextOp]? = some (.h 7) := rfl
  have hverdict : (regionLane.prepare brokenJob 0).shot.verdict = (.invalidQubit, 0) :=
    Lane.verdict_prepare 0 hop
  have hstatus : (regionLane.prepare brokenJob 0).shot.status = .invalidQubit :=
    congrArg Prod.fst hverdict
  have hfails : (regionLane.prepare brokenJob 0).shot.status ≠ .ok := by
    rw [hstatus]
    decide
  have hlater : ∀ j, 0 < j → j ≤ 5 → ∀ op, brokenJob.ops[regionLane.shot.nextOp + j]? = some op →
      op.isResetAll = false := by
    intro j hj hle op hop
    have hmem : op ∈ brokenJob.ops := Array.mem_of_getElem? hop
    simp only [brokenJob, List.mem_toArray, List.mem_cons, List.not_mem_nil, or_false] at hmem
    rcases hmem with rfl | rfl | rfl | rfl | rfl | rfl <;> rfl
  -- Five steps after the failing one reach the end of the stream.
  obtain ⟨_, hfrozen, _, _, ⟨op, hrefused, hend⟩, hcursor⟩ :=
    failed_shot_frozen brokenJob regionLane 0 hblock rfl hfails 5 hlater
  have hsame : op = .h 7 := (Option.some.inj (hop.symm.trans hrefused)).symm
  have hnow := hend _ (List.mem_cons_of_mem _ List.mem_cons_self)
  rw [hsame] at hnow
  have hstep : regionLane.after brokenJob 0 6 =
      ((regionLane.after brokenJob 0 5).prepare brokenJob 0).execute brokenJob :=
    regionLane.after_succ brokenJob 0 5
  refine ⟨rfl, hstatus, ?_⟩
  intro last
  have hlast : last = _ := hstep
  rw [hlast]
  obtain ⟨hplace, _, hnext, _⟩ := hcursor (by decide)
  exact ⟨hfrozen.slots, hfrozen.log, hfrozen.elapsed, hfrozen.lost, hfrozen.region, hnow.1, hnow.2,
    by rw [hnext, hplace]; rfl⟩

end ShotSim
