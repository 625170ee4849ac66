import Mathlib.Data.List.Basic
import ShotSim.Proofs.GuardedRun

/-!
# Batches — how a plan divides shots and memory

A plan fixes how many shots are carried out at once.  The number follows from what one shot needs:
its amplitudes and its reports have to fit into a buffer, and its workgroups into a dispatch.  What
a plan never looks at are the measurement slots of a shot.

* `Plan.Limits` — what a plan was checked against, and how the size of a batch follows from it;
* `Plan.remainingAfter`, `Plan.getElem?_batchRanges` — the batches, one after another;
* `batches_partition_shots` — the batches of a run hold every shot once, and all counts are words;
* `buffers_within_limit`, `measurements_exceed_limit` — five buffers that keep to the limit, and one
  that need not.
-/

namespace ShotSim

/-! ## The size of a batch -/

/-- One shot fits the buffers and a dispatch, and `shotsPerBatch` is the largest number that
does. -/
structure Plan.Limits (p : Plan) : Prop where
  state : p.layout.entriesPerShot * amplitudeSize ≤ maxBufferSize
  results : p.resultsPerShot * recordSize ≤ maxBufferSize
  workgroups : p.layout.workgroups ≤ maxWorkgroups
  size : p.shotsPerBatch = Plan.batchSize p.shots (p.layout.entriesPerShot * amplitudeSize)
    (p.resultsPerShot * recordSize) p.layout.workgroups

theorem Layout.workgroups_pos (n m : Nat) : 0 < (ofCircuit n m).workgroups := by
  simp only [ofCircuit]
  split
  · exact Nat.one_pos
  · exact Nat.two_pow_pos _

namespace Plan

section Limits

variable {R : Type}

/-- An accepted plan satisfies `Limits`. -/
theorem limits_of_make {c : Config R} {ops : Nat} {plan : Plan} (h : make c ops = .ok plan) :
    plan.Limits := by
  simp only [make, bind, Except.bind, pure, Except.pure, throw, throwThe, MonadExceptOf.throw,
    ite_error_eq_ok, Except.ok.injEq] at h
  obtain ⟨hstate, hresults, hworkgroups, _, rfl⟩ := h
  exact ⟨Nat.le_of_not_lt hstate, Nat.le_of_not_lt hresults, Nat.le_of_not_lt hworkgroups, rfl⟩

variable {p : Plan} (h : p.Limits)

include h

/-- A batch has at most the shots of the run, and room for each of them. The minimum with one shot
is never attained from below, so no separate lower bound is needed. -/
theorem Limits.batch (hshots : 0 < p.shots) (hresults : 0 < p.resultsPerShot)
    (hworkgroups : 0 < p.layout.workgroups) :
    p.shotsPerBatch ≤ p.shots ∧
      p.shotsPerBatch * (p.layout.entriesPerShot * amplitudeSize) ≤ maxBufferSize ∧
      p.shotsPerBatch * (p.resultsPerShot * recordSize) ≤ maxBufferSize ∧
      p.shotsPerBatch * p.layout.workgroups ≤ maxWorkgroups := by
  have hentry : 0 < p.layout.entriesPerShot * amplitudeSize :=
    Nat.mul_pos (Nat.two_pow_pos _) (by decide)
  have hrecord : 0 < p.resultsPerShot * recordSize := Nat.mul_pos hresults (by decide)
  have hone : ∀ {need limit : Nat}, 0 < need → need ≤ limit → 1 ≤ limit / need := by
    intro need limit hneed hle
    exact (Nat.one_le_div_iff hneed).2 hle
  have hstateRoom := hone hentry h.state
  have hresultsRoom := hone hrecord h.results
  have hdispatchRoom := hone hworkgroups h.workgroups
  have hsize := h.size
  rw [batchSize] at hsize
  rw [← Nat.le_div_iff_mul_le hentry, ← Nat.le_div_iff_mul_le hrecord,
    ← Nat.le_div_iff_mul_le hworkgroups]
  omega

omit h in
/-- `Limits.batch` for every plan of a checked configuration. -/
theorem room_of_make [Scalar R] {c : Config R} (hvalid : c.validate = .ok ()) {ops : Nat}
    {plan : Plan} (hplan : make c ops = .ok plan) :
    0 < plan.layout.workgroups ∧ plan.shotsPerBatch ≤ c.shots ∧
      plan.shotsPerBatch * (plan.layout.entriesPerShot * amplitudeSize) ≤ maxBufferSize ∧
      plan.shotsPerBatch * (plan.resultsPerShot * recordSize) ≤ maxBufferSize ∧
      plan.shotsPerBatch * plan.layout.workgroups ≤ maxWorkgroups := by
  obtain ⟨_, hlayout, _, hper, hshots, _⟩ := make_eq_ok hplan
  have hworkgroups : 0 < plan.layout.workgroups := by
    rw [hlayout]
    exact Layout.workgroups_pos _ _
  have hrecords : 0 < plan.resultsPerShot := by
    rw [hper]
    exact Config.resultsPerShot_pos_of_validate hvalid
  rw [← hshots]
  refine ⟨hworkgroups, (limits_of_make hplan).batch ?_ hrecords hworkgroups⟩
  rw [hshots]
  exact (Config.checked_of_validate hvalid).shots_pos

end Limits

/-! ## One batch after another -/

def remainingAfter (p : Plan) : Nat → Nat
  | 0 => p.shots
  | count + 1 => p.remainingAfter count - min (p.remainingAfter count) p.shotsPerBatch

/-- The shots left after `count` batches, in closed form. -/
theorem remainingAfter_eq (p : Plan) (count : Nat) :
    p.remainingAfter count = p.shots - count * p.shotsPerBatch := by
  induction count with
  | zero => simp [remainingAfter]
  | succ count ih =>
      rw [remainingAfter, ih, Nat.succ_mul]
      omega

/-- `batchesFrom` returns `count` batches. -/
theorem length_batchesFrom (p : Plan) (count index remaining : Nat) :
    (p.batchesFrom count index remaining).length = count := by
  induction count generalizing index remaining with
  | zero => rfl
  | succ count ih => rw [batchesFrom, List.length_cons, ih]

/-- Batch `i` of `batchesFrom` in closed form. -/
theorem getElem?_batchesFrom (p : Plan) {count i : Nat} (hi : i < count) (index remaining : Nat) :
    (p.batchesFrom count index remaining)[i]? =
      some ((index + i) * p.shotsPerBatch,
        min (remaining - i * p.shotsPerBatch) p.shotsPerBatch) := by
  induction count generalizing i index remaining with
  | zero => omega
  | succ count ih =>
      cases i with
      | zero => simp [batchesFrom]
      | succ i =>
          have hleft : remaining - min remaining p.shotsPerBatch - i * p.shotsPerBatch =
              remaining - (i + 1) * p.shotsPerBatch := by
            rw [Nat.succ_mul]
            omega
          rw [batchesFrom, List.getElem?_cons_succ, ih (by omega), hleft, Nat.add_assoc,
            Nat.add_comm 1 i]

/-- Batch `i` starts at `i * shotsPerBatch` and is full or takes the remainder. -/
theorem getElem?_batchRanges (p : Plan) {i : Nat} (hi : i < p.batches) :
    p.batchRanges[i]? = some (i * p.shotsPerBatch, min (p.remainingAfter i) p.shotsPerBatch) := by
  rw [batchRanges, getElem?_batchesFrom p hi, Nat.zero_add, remainingAfter_eq]

/-- One batch fewer would not hold all shots. -/
theorem batches_mul_lt {p : Plan} (hpos : 0 < p.shotsPerBatch)
    (h : p.batches = (p.shots + p.shotsPerBatch - 1) / p.shotsPerBatch) :
    p.batches * p.shotsPerBatch < p.shots + p.shotsPerBatch := by
  have hle := Nat.div_mul_le_self (p.shots + p.shotsPerBatch - 1) p.shotsPerBatch
  rw [h]
  omega

/-- There are at most as many batches as shots. -/
theorem batches_le {p : Plan} (hpos : 0 < p.shotsPerBatch)
    (h : p.batches = (p.shots + p.shotsPerBatch - 1) / p.shotsPerBatch) : p.batches ≤ p.shots := by
  have hlast := batches_mul_lt hpos h
  cases hcount : p.batches with
  | zero => exact Nat.zero_le _
  | succ count =>
      have hmany : count ≤ count * p.shotsPerBatch := Nat.le_mul_of_pos_right _ hpos
      rw [hcount, Nat.succ_mul] at hlast
      omega

/-- Every batch but the last is full, the last holds the remainder, and none is empty. -/
theorem batch_ends {p : Plan} (hpos : 0 < p.shotsPerBatch)
    (h : p.batches = (p.shots + p.shotsPerBatch - 1) / p.shotsPerBatch) {i : Nat}
    (hi : i < p.batches) :
    0 < min (p.remainingAfter i) p.shotsPerBatch ∧
      i * p.shotsPerBatch + min (p.remainingAfter i) p.shotsPerBatch =
        if i + 1 < p.batches then (i + 1) * p.shotsPerBatch else p.shots := by
  have hroom := shots_le hpos h
  have hlast := batches_mul_lt hpos h
  have hupto : (i + 1) * p.shotsPerBatch ≤ p.batches * p.shotsPerBatch := Nat.mul_le_mul_right _ hi
  rw [Nat.succ_mul] at hupto
  rw [remainingAfter_eq, Nat.succ_mul]
  split
  · rename_i hmore
    have hnext : (i + 1 + 1) * p.shotsPerBatch ≤ p.batches * p.shotsPerBatch :=
      Nat.mul_le_mul_right _ hmore
    rw [Nat.succ_mul, Nat.succ_mul] at hnext
    omega
  · rename_i hmore
    have hend : p.batches = i + 1 := by omega
    rw [hend, Nat.succ_mul] at hroom
    omega

end Plan

/-- `runBatches` returns one result per batch. -/
theorem Session.length_runBatches {R : Type} [Scalar R] (c : Config R) (plan : Plan)
    (ranges : List (Nat × Nat)) (index : Nat) (m : Machine R) :
    (runBatches c plan ranges index m).2.1.length = ranges.length := by
  induction ranges generalizing index m with
  | nil => rfl
  | cons range rest ih => exact congrArg Nat.succ (ih _ _)

variable {R : Type} [Scalar R]

/-- The batches of a plan partition its shots. A batch has between one shot and the shots of the
run, and its workgroups fit one dispatch. There are `plan.batches` of them; they are contiguous,
nonempty and cover every shot once, in order. The guarded numbering never breaches, and no shot
remains at the end. -/
theorem batches_partition_shots {c : Config R} (hvalid : c.validate = .ok ())
    (hword : c.shots < 2 ^ wordBits) {ops : Nat} {plan : Plan}
    (hplan : Plan.make c ops = .ok plan) :
    1 ≤ plan.shotsPerBatch ∧ plan.shotsPerBatch ≤ c.shots ∧
      plan.shotsPerBatch * plan.layout.workgroups ≤ maxWorkgroups ∧ plan.batches < 2 ^ wordBits ∧
      plan.batchRanges.length = plan.batches ∧
      (∀ m : Machine R, (Session.runBatches c plan plan.batchRanges 0 m).2.1.length =
        plan.batches) ∧
      (∀ i < plan.batches, ∃ shots,
        plan.batchRanges[i]? = some (i * plan.shotsPerBatch, shots) ∧
        shots = min (plan.remainingAfter i) plan.shotsPerBatch ∧ 0 < shots ∧
        i * plan.shotsPerBatch + shots =
          if i + 1 < plan.batches then (i + 1) * plan.shotsPerBatch else c.shots) ∧
      plan.batchRanges.flatMap (fun range => List.range' range.1 range.2) = List.range c.shots ∧
      Guarded.batchesFrom plan plan.batches 0 plan.shots = .ok plan.batchRanges ∧
      plan.remainingAfter plan.batches = 0 := by
  obtain ⟨_, _, _, _, hshots, _, _, hpos, hbatches⟩ := Plan.make_eq_ok hplan
  obtain ⟨_, hle, _, _, hdispatch⟩ := Plan.room_of_make hvalid hplan
  have hcount := Plan.batches_mul_lt hpos hbatches
  have hlength : plan.batchRanges.length = plan.batches := Plan.length_batchesFrom plan _ _ _
  have hall := Plan.flatMap_batchRanges hpos hbatches
  -- The last shot of the last batch is a shot of the run, which has as many as a word can count.
  have hwords : Guarded.batchesFrom plan plan.batches 0 plan.shots = .ok plan.batchRanges :=
    Guarded.batchesFrom_eq hcount fun _ => by omega
  have hfew := Plan.batches_le hpos hbatches
  refine ⟨hpos, hle, hdispatch, by omega, hlength, ?_, ?_, hshots ▸ hall, hwords, ?_⟩
  · intro m
    rw [Session.length_runBatches, hlength]
  · intro i hi
    obtain ⟨hsome, hend⟩ := Plan.batch_ends hpos hbatches hi
    exact ⟨_, Plan.getElem?_batchRanges plan hi, rfl, hsome, hshots ▸ hend⟩
  · rw [Plan.remainingAfter_eq, Nat.sub_eq_zero_of_le (Plan.shots_le hpos hbatches)]

def longestRun : Config Float32 :=
  { Config.standard with shots := 4294967295, qubitsPerWorkgroup := 8 }

/-- The last batch of the longest run has fifteen shots. -/
theorem batches_partition_shots_longestRun :
    ∃ plan, longestRun.validate = .ok () ∧ Plan.make longestRun 3 = .ok plan ∧
      plan.shotsPerBatch = 16383 ∧ plan.batches = 262161 ∧
      plan.batchRanges.length = 262161 ∧ plan.batchRanges[262160]? = some (4294967280, 15) ∧
      plan.remainingAfter 262161 = 0 := by
  obtain ⟨plan, hplan, hsize, hbatches⟩ : ∃ plan, Plan.make longestRun 3 = .ok plan ∧
      plan.shotsPerBatch = 16383 ∧ plan.batches = 262161 := ⟨_, rfl, rfl, rfl⟩
  obtain ⟨_, _, _, _, hlength, _, hranges, _, _, hleft⟩ :=
    batches_partition_shots (c := longestRun) rfl (by decide) hplan
  obtain ⟨shots, hlast, _, _, hend⟩ := hranges 262160 (by rw [hbatches]; decide)
  rw [hsize] at hlast hend
  rw [hbatches, if_neg (by decide)] at hend
  have hfifteen : shots = 15 :=
    Nat.add_left_cancel (hend.trans (show longestRun.shots = _ + 15 from rfl))
  rw [hfifteen] at hlast
  rw [hbatches] at hlength hleft
  exact ⟨plan, rfl, hplan, hsize, hbatches, hlength, hlast, hleft⟩

/-! ## Buffers -/

/-- The amplitudes of the largest circuit just fit into a buffer. -/
theorem Config.Checked.state_le {c : Config R} (h : c.Checked) :
    (Layout.ofCircuit c.qubits c.qubitsPerWorkgroup).entriesPerShot * amplitudeSize ≤
      maxBufferSize := by
  have hpadded : max c.qubits minQubitCount ≤ maxQubitCount :=
    Nat.max_le.2 ⟨h.qubits_le, by decide⟩
  have hentries : (Layout.ofCircuit c.qubits c.qubitsPerWorkgroup).entriesPerShot ≤
      2 ^ maxQubitCount :=
    Nat.pow_le_pow_right (by decide) hpadded
  exact Nat.le_trans (Nat.mul_le_mul_right _ hentries) (by decide)

namespace Plan

/-- The measurement buffer fits iff a batch has at most `maxBufferSize / wordSize` slots. -/
theorem measurementsBuffer_le_iff (p : Plan) :
    p.measurementsBuffer ≤ maxBufferSize ↔
      p.shotsPerBatch * max p.resultCount 1 ≤ maxBufferSize / wordSize := by
  rw [measurementsBuffer, Nat.le_div_iff_mul_le (by decide)]

/-- For a checked configuration, `make` fails with `bufferTooLarge` only on the report buffer. -/
theorem make_eq_bufferTooLarge_iff {c : Config R} (h : c.Checked) {ops size : Nat}
    {kind : BufferKind} :
    make c ops = .error (.bufferTooLarge kind size) ↔
      kind = .results ∧ size = c.resultsPerShot * recordSize ∧ maxBufferSize < size := by
  have hstate := Nat.not_lt.2 h.state_le
  simp only [make, bind, Except.bind, pure, Except.pure, throw, throwThe, MonadExceptOf.throw,
    if_neg hstate]
  by_cases hresults : maxBufferSize < c.resultsPerShot * recordSize
  · simp only [if_pos hresults, Except.error.injEq, SimError.bufferTooLarge.injEq]
    constructor
    · rintro ⟨rfl, rfl⟩
      exact ⟨rfl, rfl, hresults⟩
    · rintro ⟨rfl, rfl, _⟩
      exact ⟨rfl, rfl⟩
  · rw [if_neg hresults]
    constructor
    · intro hmake
      split at hmake
      · cases hmake
      · split at hmake <;> cases hmake
    · rintro ⟨_, rfl, hlarge⟩
      exact absurd hlarge hresults

end Plan

/-- For a checked configuration, five of the six buffers of a plan are within `maxBufferSize`. The
measurement buffer is within it iff the slots of a batch are at most `maxBufferSize / wordSize`,
which holds for up to 4096 slots per shot. `make` rejects a configuration whose reports exceed the
limit for one shot, but never one for its measurement slots. -/
theorem buffers_within_limit {c : Config R} (hvalid : c.validate = .ok ()) (ops : Nat) :
    (∀ plan, Plan.make c ops = .ok plan →
      (∀ size ∈ [plan.shotsBuffer, plan.stateBuffer, plan.sumsBuffer, plan.resultsBuffer,
        plan.cursorsBuffer], size ≤ maxBufferSize) ∧
      (plan.measurementsBuffer ≤ maxBufferSize ↔
        plan.shotsPerBatch * max c.resultCount 1 ≤ maxBufferSize / wordSize) ∧
      (c.resultCount ≤ 4096 → plan.measurementsBuffer ≤ maxBufferSize) ∧
      (maxBufferSize < max c.resultCount 1 * wordSize → maxBufferSize < plan.measurementsBuffer)) ∧
    (∀ kind size, Plan.make c ops = .error (.bufferTooLarge kind size) ↔
      kind = .results ∧ size = c.resultsPerShot * recordSize ∧ maxBufferSize < size) ∧
    ∀ slots, (Plan.make { c with resultCount := slots } ops).isOk = (Plan.make c ops).isOk := by
  refine ⟨?_, fun kind size => Plan.make_eq_bufferTooLarge_iff (Config.checked_of_validate hvalid),
    ?_⟩
  · intro plan hplan
    obtain ⟨_, _, hcount, _, _, _, _, hpos, _⟩ := Plan.make_eq_ok hplan
    obtain ⟨hworkgroups, _, hstate, hresults, hdispatch⟩ := Plan.room_of_make hvalid hplan
    -- A dispatch has a workgroup for every shot at the least, so it bounds the shots of a batch.
    have hbatch : plan.shotsPerBatch ≤ maxWorkgroups :=
      Nat.le_trans (Nat.le_mul_of_pos_right _ hworkgroups) hdispatch
    have hslots := plan.measurementsBuffer_le_iff
    rw [hcount] at hslots
    refine ⟨?_, hslots, ?_, ?_⟩
    · intro size hsize
      simp only [List.mem_cons, List.not_mem_nil, or_false] at hsize
      rcases hsize with rfl | rfl | rfl | rfl | rfl
      · exact Nat.le_trans (Nat.mul_le_mul_right _ hbatch) (by decide)
      · exact hstate
      · exact Nat.le_trans (Nat.mul_le_mul_right _ hdispatch) (by decide)
      · exact hresults
      · exact Nat.le_trans (Nat.mul_le_mul_right _ hbatch) (by decide)
    · intro hfew
      have hmost : max c.resultCount 1 ≤ 4096 := by omega
      exact hslots.2 (Nat.le_trans (Nat.mul_le_mul hbatch hmost) (by decide))
    · intro hlarge
      have hone := Nat.mul_le_mul_right wordSize (Nat.le_mul_of_pos_left (max c.resultCount 1) hpos)
      rw [Plan.measurementsBuffer, hcount]
      omega
  · -- Each of the four checks of a plan is on something else than the slots.
    intro slots
    simp only [Plan.make, bind, Except.bind, pure, Except.pure, throw, throwThe,
      MonadExceptOf.throw]
    split
    · rfl
    · split
      · rfl
      · split
        · rfl
        · split <;> rfl

def crowdedShot : Config Float32 := { Config.standard with resultCount := 268435457 }

/-- A validated configuration whose measurement slots exceed the limit while its shots do not. -/
theorem buffers_within_limit_crowdedShot :
    ∃ plan, crowdedShot.validate = .ok () ∧ Plan.make crowdedShot 3 = .ok plan ∧
      plan.shotsBuffer ≤ maxBufferSize ∧ maxBufferSize < plan.measurementsBuffer := by
  obtain ⟨plan, hplan⟩ : ∃ plan, Plan.make crowdedShot 3 = .ok plan := ⟨_, rfl⟩
  obtain ⟨hfive, _, _, hlarge⟩ := (buffers_within_limit (c := crowdedShot) rfl 3).1 plan hplan
  exact ⟨plan, rfl, hplan, hfive _ List.mem_cons_self, hlarge (by decide)⟩

/-- A validated plan can have a measurement buffer over the limit. -/
theorem measurements_exceed_limit :
    ¬∀ (c : Config Float32) (ops : Nat) (plan : Plan), c.validate = .ok () →
      Plan.make c ops = .ok plan → plan.measurementsBuffer ≤ maxBufferSize := by
  intro h
  exact absurd (h crowdedShot 3 _ rfl rfl) (by decide)

end ShotSim
