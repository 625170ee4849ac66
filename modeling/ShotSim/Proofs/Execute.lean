import ShotSim.Proofs.Workgroups

/-!
# Execute — what a step does to the amplitudes of a shot

The two facts that a caller needs about carrying out a step:

* `gate_step_applies_operator` — a gate replaces every amplitude by its component of the operator
  applied to the rescaled amplitudes of its group, whatever the layout;
* `workgroups_independent` — the workgroups may take their turns in any order, and on their own
  stretches whenever the step allows it.
-/

namespace ShotSim

open BasisIndex

variable {R : Type} [Scalar R]

/-! ## Gates -/

section Gate

variable {job : Job R} {shot : Shot R} {e w : Nat} (ht : job.layout.Tiled e w)
  (hplaced : shot.Placed (job.current shot) job.layout.qubitCount)

include ht hplaced

/-- Every index lies in the group of the indices that agree with it outside the operands. -/
theorem exists_group_of_lt {i : Nat} (hi : i < job.layout.entriesPerShot) :
    ∃ g ∈ job.shares shot,
      g = (List.range (2 ^ shot.mode.arity)).map (place (shot.mode.operands (job.current shot)) i) ∧
        g[localIndex (shot.mode.operands (job.current shot)) i]? = some i := by
  have hmem : i ∈ (job.shares shot).flatten :=
    (perm_flatten_shares ht hplaced).mem_iff.2 (List.mem_range.2 hi)
  rcases List.mem_flatten.1 hmem with ⟨g, hg, hig⟩
  rcases List.mem_flatMap.1 hg with ⟨workgroup, _, hshare⟩
  rw [Job.share, workgroupGroups_eq_map ht hplaced.nodup] at hshare
  rcases List.mem_map.1 hshare with ⟨item, _, rfl⟩
  refine ⟨_, hg, ?_⟩
  rw [← Mode.length_operands shot.mode (job.current shot)]
  exact group_eq_of_mem hplaced.nodup hig

variable {block : Array (Cplx R)} (hblock : block.size = job.layout.entriesPerShot)

include hblock

/-- The amplitude at `i` after a gate is one component of the operator applied to its group. -/
theorem getElem?_blockAfter_of_gate (hgate : 0 < shot.mode.arity) {i : Nat}
    (hi : i < job.layout.entriesPerShot) :
    (job.blockAfter shot block)[i]? =
      ((shot.operator (job.current shot)).apply ((List.range (2 ^ shot.mode.arity)).map fun l =>
        (block.getD (place (shot.mode.operands (job.current shot)) i l) 0).scale
          shot.renormalize))[localIndex (shot.mode.operands (job.current shot)) i]? := by
  rcases exists_group_of_lt ht hplaced hi with ⟨g, hg, hmembers, hself⟩
  rw [← getElem?_act_eq_blockAfter ht hplaced hblock hg hself, Job.action,
    Action.ofShot_of_gate hgate, Action.act, hmembers, List.map_map, List.map_map]
  rfl

end Gate

/-- On tiled layouts, `execute` computes `blockAfter`. -/
theorem Lane.execute_block {job : Job R} {lane : Lane R} {e w : Nat} (ht : job.layout.Tiled e w)
    (hplaced : lane.shot.Placed (job.current lane.shot) job.layout.qubitCount)
    (hblock : lane.block.size = job.layout.entriesPerShot) :
    (lane.execute job).block = job.blockAfter lane.shot lane.block := by
  rw [execute_eq ht hplaced hblock]

/-- `blockAfter` of a gate is independent of the tiling. -/
theorem blockAfter_eq_of_layout {job job' : Job R} {shot : Shot R} {e w e' w' : Nat}
    (ht : job.layout.Tiled e w) (ht' : job'.layout.Tiled e' w')
    (hqubits : job'.layout.qubitCount = job.layout.qubitCount)
    (hcurrent : job'.current shot = job.current shot)
    (hplaced : shot.Placed (job.current shot) job.layout.qubitCount) {block : Array (Cplx R)}
    (hblock : block.size = job.layout.entriesPerShot) (hgate : 0 < shot.mode.arity) :
    job'.blockAfter shot block = job.blockAfter shot block := by
  have hentries : job'.layout.entriesPerShot = job.layout.entriesPerShot := by
    rw [Layout.entriesPerShot, hqubits, Layout.entriesPerShot]
  have hplaced' : shot.Placed (job'.current shot) job'.layout.qubitCount := by
    rw [hcurrent, hqubits]
    exact hplaced
  have hblock' : block.size = job'.layout.entriesPerShot := by rw [hentries, hblock]
  -- What a gate leaves at `i` is said in terms of the operands alone.
  apply Array.ext_getElem?
  intro i
  by_cases hi : i < job.layout.entriesPerShot
  · rw [getElem?_blockAfter_of_gate ht hplaced hblock hgate hi,
      getElem?_blockAfter_of_gate ht' hplaced' hblock' hgate (by rw [hentries]; exact hi), hcurrent]
  · have hout : block.size ≤ i := by
      rw [hblock]
      exact Nat.le_of_not_lt hi
    rw [Array.getElem?_eq_none (by rw [Job.size_blockAfter]; exact hout),
      Array.getElem?_eq_none (by rw [Job.size_blockAfter]; exact hout)]

/-- A gate acts groupwise: the amplitude at `i` becomes component `i` of the operator applied to the
rescaled amplitudes at the indices that agree with `i` outside the operands. The groups partition
the block, and the result is independent of the number of qubits per workgroup. -/
theorem gate_step_applies_operator (job : Job R) {n m : Nat} (hlayout : job.layout = .ofCircuit n m)
    (hmin : minQubitsPerWorkgroup ≤ m) (hmax : m ≤ maxQubitsPerWorkgroup) (lane : Lane R)
    (hblock : lane.block.size = job.layout.entriesPerShot) (hgate : 0 < lane.shot.mode.arity)
    (hplaced : lane.shot.Placed (job.current lane.shot) job.layout.qubitCount) :
    let op := job.current lane.shot
    let operands := lane.shot.mode.operands op
    (lane.execute job).block.size = job.layout.entriesPerShot ∧
    (∀ i < job.layout.entriesPerShot,
      (lane.execute job).block[i]? =
        ((lane.shot.operator op).apply ((List.range (2 ^ lane.shot.mode.arity)).map fun l =>
          (lane.block.getD (place operands i l) 0).scale lane.shot.renormalize))[localIndex
          operands i]?) ∧
    (job.shares lane.shot).flatten.Perm (List.range job.layout.entriesPerShot) ∧
    (∀ order : List Nat, order.Perm (List.range job.layout.workgroups) →
      (Lane.runWhole job lane.shot order ⟨⟨0, lane.block⟩, lane.log⟩).1.window.amps =
        (lane.execute job).block) ∧
    ∀ m', minQubitsPerWorkgroup ≤ m' → m' ≤ maxQubitsPerWorkgroup →
      (lane.execute { job with layout := .ofCircuit n m' }).block = (lane.execute job).block := by
  intro op operands
  obtain ⟨e, w, ht⟩ : ∃ e w, job.layout.Tiled e w := by
    rw [hlayout]
    exact Layout.exists_tiled_ofCircuit n hmin hmax
  have hexecute := Lane.execute_block ht hplaced hblock
  refine ⟨?_, ?_, perm_flatten_shares ht hplaced, ?_, ?_⟩
  · rw [hexecute, Job.size_blockAfter, hblock]
  · intro i hi
    rw [hexecute]
    exact getElem?_blockAfter_of_gate ht hplaced hblock hgate hi
  · intro order horder
    rw [hexecute, (runWhole_of_perm ht hplaced hblock horder lane.log).1]
  · -- The other layout has the same qubits, so the step is placed there as well.
    intro m' hmin' hmax'
    rcases Layout.exists_tiled_ofCircuit n hmin' hmax' with ⟨e', w', ht'⟩
    have hqubits : (Layout.ofCircuit n m').qubitCount = job.layout.qubitCount := by
      rw [hlayout]
      rfl
    have hcurrent : ({ job with layout := .ofCircuit n m' } : Job R).current lane.shot =
        job.current lane.shot := rfl
    have hsame := blockAfter_eq_of_layout ht ht' hqubits hcurrent hplaced hblock hgate
    have hplaced' :
        lane.shot.Placed (job.current lane.shot) (Layout.ofCircuit n m').qubitCount := by
      rw [hqubits]
      exact hplaced
    have hblock' : lane.block.size = (Layout.ofCircuit n m').entriesPerShot := by
      rw [hblock, Layout.entriesPerShot, Layout.entriesPerShot, hqubits]
    rw [hexecute, ← hsame]
    exact Lane.execute_block ht' hplaced' hblock'

def singleOpJob (op : Op Float32) : Job Float32 where
  ops := #[op]
  batch := ⟨0, 0, 1, 10, 0⟩
  idle := 0
  layout := .ofCircuit 10 8
  resultCount := 0

def toffoliLane : Lane Float32 :=
  { Lane.blank (.ofCircuit 10 8) 0 0 with
    shot := { (0 : Shot Float32) with selected := .ccx, renormalize := 1 }
    block := (Array.replicate 1024 0).setIfInBounds 545 1 }

/-- A Toffoli gate on operands 9, 0, 5 moves the amplitude of index 545 to 513. -/
theorem gate_step_applies_operator_toffoli :
    toffoliLane.shot.mode.operands ((singleOpJob (.ccx 9 0 5)).current toffoliLane.shot) =
      [9, 0, 5] ∧ (toffoliLane.execute (singleOpJob (.ccx 9 0 5))).block[513]? =
        some ((1 : Cplx Float32).scale 1) := by
  have hset : toffoliLane.block.getD 545 0 = 1 := by simp [toffoliLane]
  refine ⟨rfl, ?_⟩
  rw [(gate_step_applies_operator (singleOpJob (.ccx 9 0 5)) rfl (by decide) (by decide) toffoliLane
    (by simp [toffoliLane, singleOpJob, Layout.entriesPerShot, Layout.ofCircuit, minQubitCount])
    (by decide) ⟨by decide, by decide⟩).2.1 513 (by decide),
    ← hset]
  rfl

/-! ## Workgroups -/

/-- For every prepared step, the block, the sums of each workgroup and the number of reports are
independent of the order of the workgroups. When the step fits its shards, each workgroup can run on
its own shard with the same amplitudes and sums as on the whole block, and a schedule changes the
order of the reports only. -/
theorem workgroups_independent (job : Job R) {n m : Nat} (hlayout : job.layout = .ofCircuit n m)
    (hmin : minQubitsPerWorkgroup ≤ m) (hmax : m ≤ maxQubitsPerWorkgroup)
    (hroom : job.batch.qubits ≤ job.layout.qubitCount) (before : Lane R) (shotIdx : Nat)
    (block : Array (Cplx R)) (hblock : block.size = job.layout.entriesPerShot) (log : ReportLog R) :
    let shot := (before.prepare job shotIdx).shot
    let whole := Lane.runWhole job shot (List.range job.layout.workgroups) ⟨⟨0, block⟩, log⟩
    let size := job.layout.entriesPerWorkgroup
    (∀ order : List Nat, order.Perm (List.range job.layout.workgroups) →
      let run := Lane.runWhole job shot order ⟨⟨0, block⟩, log⟩
      run.1.window = whole.1.window ∧ run.1.log.cursor = whole.1.log.cursor ∧
        ∀ (turn workgroup : Nat), order[turn]? = some workgroup →
          run.2[turn]? = whole.2[workgroup]?) ∧
    (Lane.fitsShard job shot = true → ∀ workgroup < job.layout.workgroups, ∀ ownLog : ReportLog R,
      let base := workgroup * size
      let own :=
        Bench.runWorkgroup ⟨⟨base, block.extract base (base + size)⟩, ownLog⟩ job shot workgroup
      own.1.window.amps = whole.1.window.amps.extract base (base + size) ∧
        whole.2[workgroup]? = some own.2 ∧
        ∀ i ∈ (job.share shot workgroup).flatten, base ≤ i ∧ i - base < size) ∧
    (Lane.fitsShard job shot = true →
      ∀ lane : Lane R, lane.shot = shot → lane.block = block →
        (∃ arrivals : List (Record R),
          arrivals.Perm (job.reportsOf shot ⟨0, block⟩ (job.shares shot)) ∧
          lane.executeSharded job =
            { lane.executeWhole job with log := arrivals.foldl ReportLog.push lane.log }) ∧
        (lane.executeSharded job).log.cursor = (lane.executeWhole job).log.cursor ∧
        (job.schedule shot.id shot.opIdx = [] →
          lane.executeSharded job = lane.executeWhole job)) := by
  intro shot whole size
  obtain ⟨e, w, ht⟩ : ∃ e w, job.layout.Tiled e w := by
    rw [hlayout]
    exact Layout.exists_tiled_ofCircuit n hmin hmax
  -- The step comes out of `prepare`, so its operands need no assumption.
  have hplaced : shot.Placed (job.current shot) job.layout.qubitCount :=
    Lane.placed_prepare before job shotIdx hroom
  have hwhole := runWhole_of_perm ht hplaced hblock (List.Perm.refl _) log
  have hsums : ∀ workgroup < job.layout.workgroups,
      whole.2[workgroup]? = some (job.shareSums shot ⟨0, block⟩ workgroup) := by
    intro workgroup hworkgroup
    rw [hwhole.2.1, List.getElem?_map, List.getElem?_range hworkgroup]
    rfl
  refine ⟨?_, ?_, ?_⟩
  · intro order horder run
    have hrun := runWhole_of_perm ht hplaced hblock horder log
    refine ⟨hrun.1.trans hwhole.1.symm, hrun.2.2.trans hwhole.2.2.symm, ?_⟩
    intro turn workgroup hturn
    have hmem : workgroup ∈ List.range job.layout.workgroups :=
      horder.mem_iff.1 (List.mem_of_getElem? hturn)
    rw [hsums workgroup (List.mem_range.1 hmem), hrun.2.1, List.getElem?_map, hturn]
    rfl
  · -- A workgroup on its own stretch against the same stretch of the whole run.
    intro hfits workgroup hworkgroup ownLog base own
    have hwindow := runWorkgroup_shard ht hplaced hfits hblock hworkgroup
    refine ⟨?_, ?_, ?_⟩
    · rw [hwhole.1]
      exact congrArg Window.amps hwindow
    · rw [hsums workgroup hworkgroup]
      exact congrArg some (runWorkgroup_shard_sums ht hplaced hfits hblock hworkgroup).symm
    · intro i hi
      exact mem_stretch_of_mem_share ht hplaced hfits hi
  · intro hfits lane hshot hlane
    rw [← hshot] at hplaced hfits
    rw [← hlane] at hblock
    have hsharded := Lane.executeSharded_eq ht hplaced hblock hfits
    have hexecuted := Lane.executeWhole_eq ht hplaced hblock
    have harrivals := job.arrivals_perm lane.shot lane.block
    rw [← hshot, ← hlane]
    refine ⟨⟨_, harrivals, hsharded⟩, ?_, ?_⟩
    · rw [hsharded, hexecuted, cursor_foldl_push, cursor_foldl_push, harrivals.length_eq]
    · intro horder
      rw [hsharded, hexecuted, job.arrivals_of_inOrder _ _ horder]

/-- The four workgroups of a report in the order 3, 0, 2, 1. -/
theorem workgroups_independent_report :
    let job := singleOpJob .mEveryZ
    let shot := (toffoliLane.prepare job 0).shot
    let bench : Bench Float32 := ⟨⟨0, Array.replicate 1024 1⟩, ⟨0, #[]⟩⟩
    let whole := Lane.runWhole job shot (List.range job.layout.workgroups) bench
    let run := Lane.runWhole job shot [3, 0, 2, 1] bench
    shot.mode = .extract ∧ run.1.window = whole.1.window ∧ run.1.log.cursor = whole.1.log.cursor ∧
      ∀ turn workgroup : Nat, [3, 0, 2, 1][turn]? = some workgroup →
        run.2[turn]? = whole.2[workgroup]? :=
  ⟨by decide, (workgroups_independent (singleOpJob .mEveryZ) rfl (by decide) (by decide) (by decide)
    toffoliLane 0 (Array.replicate 1024 1) (Array.size_replicate ..) ⟨0, #[]⟩).1 [3, 0, 2, 1]
    (by decide)⟩

end ShotSim
