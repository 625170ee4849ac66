import Mathlib.Data.List.Basic
import Mathlib.Data.List.Nodup
import ShotSim.Proofs.BasisStates
import ShotSim.Proofs.MeanProbability
import ShotSim.Proofs.StreamInputs

/-!
# Reports — how often a shot names a basis state

A report goes over every amplitude once, so it names a basis state at most once.  All reports of a
shot go to the same log, and only a restart empties it.  A shot therefore names a basis state at
most once for each report since its last restart; and there is one report too many where a program
does not end with the report that it makes.

* `kept_foldl_push_sublist` — a log keeps nothing that was not added to it, and nothing twice;
* `nodup_newReports`, `newReports_eq_nil` — one report, and the operations that make none;
* `reportCount`, `Lane.Told`, `told_after` — the reports since the last restart;
* `basis_states_once_per_report` — the records of every shot and the mean probabilities of a run;
* `reports_told_twice` — a run whose one shot counts twice in the mean probability of a basis state.
-/

namespace ShotSim

variable {R : Type} [Scalar R]

/-! ## All reports of a shot -/

/-- The kept records come from `n` reports with distinct indices each. -/
def Lane.Told {R : Type} (lane : Lane R) (n : Nat) : Prop :=
  ∃ reports : List (List (Record R)), reports.length = n ∧
    (∀ report ∈ reports, (report.map (·.index)).Nodup) ∧ lane.log.kept.Sublist reports.flatten

namespace Lane

section Steps

variable {job : Job R} {e w : Nat} (ht : job.layout.Tiled e w)

include ht

/-- A restart empties the log, a report adds one report, and no other operation reports. -/
theorem Told.step {lane : Lane R} {ops : List (Op R)} (h : lane.Told (reportCount ops))
    (hblock : lane.block.size = job.layout.entriesPerShot) {op : Op R}
    (hop : job.ops[lane.shot.nextOp]? = some op) (shotIdx : Nat) :
    (lane.step job shotIdx).Told (reportCount (ops ++ [op])) := by
  have hlog := log_step ht hblock shotIdx
  -- A restart drops the earlier reports together with the log.
  cases hreset : op.isResetAll with
  | true =>
      rw [newReports_of_resetAll hop hreset, List.foldl_nil, prepare_of_resetAll hop hreset] at hlog
      rw [reportCount_append_reset ops hreset]
      refine ⟨[], rfl, by simp, ?_⟩
      rw [hlog]
      exact List.Sublist.refl _
  | false =>
      rw [log_prepare hop hreset] at hlog
      obtain ⟨reports, hlength, hnodup, hkept⟩ := h
      rw [reportCount_append ops hreset]
      by_cases hcode : op.code = .mEveryZ
      · rw [if_pos hcode]
        refine ⟨reports ++ [lane.newReports job shotIdx], ?_, ?_, ?_⟩
        · rw [List.length_append, hlength]
          rfl
        · intro report hreport
          rcases List.mem_append.1 hreport with hmem | hlast
          · exact hnodup report hmem
          · obtain rfl := List.mem_singleton.1 hlast
            exact lane.nodup_newReports ht shotIdx
        · rw [hlog, List.flatten_append, List.flatten_singleton]
          exact (ReportLog.kept_foldl_push_sublist _ _).trans (hkept.append_right _)
      · rw [if_neg hcode]
        refine ⟨reports, hlength, hnodup, ?_⟩
        rw [hlog, newReports_eq_nil fun other hother _ => by
          rwa [← Option.some.inj (hop.symm.trans hother)]]
        exact hkept

/-- After `count` steps a lane satisfies `Told` for the reports since its last restart. -/
theorem told_after {lane : Lane R} {resultsPerShot resultCount : Nat}
    (hfits : lane.Fits job.layout resultsPerShot resultCount) (hstart : lane.shot.nextOp = 0)
    (hempty : lane.log.cursor = 0) (shotIdx : Nat) {count : Nat} (hcount : count ≤ job.ops.size) :
    (lane.after job shotIdx count).Told (reportCount (job.ops.toList.take count)) := by
  induction count with
  | zero =>
      refine ⟨[], rfl, by simp, ?_⟩
      rw [after, ReportLog.kept, hempty]
      exact List.Sublist.refl _
  | succ count ih =>
      have hlt : count < job.ops.size := hcount
      have hnext : (lane.after job shotIdx count).shot.nextOp = count := by
        rw [nextOp_after shotIdx (by omega), hstart, Nat.zero_add]
      have hop : job.ops[(lane.after job shotIdx count).shot.nextOp]? = some job.ops[count] := by
        rw [hnext, Array.getElem?_eq_getElem hlt]
      have htake :
          job.ops.toList.take (count + 1) = job.ops.toList.take count ++ [job.ops[count]] := by
        rw [List.take_add_one, Array.getElem?_toList, Array.getElem?_eq_getElem hlt]
        rfl
      have hblock := (fits_after ht hfits shotIdx count).block
      rw [after_add lane job shotIdx count 1, htake]
      exact (ih (by omega)).step ht hblock hop shotIdx

end Steps

section Told

variable {R : Type} {lane : Lane R} {n : Nat} (h : lane.Told n)

include h

theorem Told.count_kept_le (i : Nat) : (lane.log.kept.map (·.index)).count i ≤ n := by
  obtain ⟨reports, rfl, hnodup, hkept⟩ := h
  have hindices := (hkept.map fun record => record.index).count_le i
  rw [List.map_flatten, List.count_flatten] at hindices
  refine hindices.trans ?_
  have hone :
      ∀ count ∈ (reports.map (List.map fun record : Record R => record.index)).map (List.count i),
      count ≤ 1 := by
    intro count hcount
    obtain ⟨indices, hindices, rfl⟩ := List.mem_map.1 hcount
    obtain ⟨report, hreport, rfl⟩ := List.mem_map.1 hindices
    exact List.nodup_iff_count_le_one.1 (hnodup report hreport) i
  have hsum := List.sum_le_card_nsmul _ 1 hone
  simpa using hsum

/-- A basis state is kept at most once per report. -/
theorem Told.length_filter_le (i : Nat) :
    (lane.log.sorted.filter fun record => record.index = i).length ≤ n := by
  have hcount : (lane.log.sorted.filter fun record => record.index = i).length =
      (lane.log.kept.map (·.index)).count i := by
    rw [(lane.log.sorted_perm.filter _).length_eq, List.count_eq_countP, List.countP_map,
      List.countP_eq_length_filter]
    rfl
  rw [hcount]
  exact h.count_kept_le i

/-- After a single report the sorted records have rising indices. -/
theorem Told.rising (hone : n ≤ 1) : lane.log.sorted.Pairwise fun a b => a.index < b.index := by
  have hnodup : (lane.log.sorted.map (·.index)).Nodup := by
    rw [(lane.log.sorted_perm.map _).nodup_iff]
    exact List.nodup_iff_count_le_one.2 fun i => (h.count_kept_le i).trans hone
  have hdistinct := List.pairwise_map.1 hnodup
  exact (lane.log.pairwise_sorted.and hdistinct).imp fun hboth => Nat.lt_of_le_of_ne hboth.1 hboth.2

end Told

end Lane

/-- `Told` at the end of a solo shot. -/
theorem Config.told_soloLane {c : Config R} (hchecked : c.Checked) (pool : Pool) (stream : Stream R)
    (k : Nat) :
    (c.soloLane pool stream k).Told (reportCount stream.ops) := by
  obtain ⟨e, w, htiled⟩ := Layout.exists_tiled_ofCircuit c.qubits hchecked.perWorkgroup_ge
    hchecked.perWorkgroup_le
  have ht : (c.soloJob pool stream k).layout.Tiled e w := htiled
  have hsize : (c.soloJob pool stream k).ops.size = stream.length := by
    simp [Config.soloJob, Stream.ops]
  have htold := Lane.told_after ht c.fits_blankLane rfl rfl 0
    (Nat.le_of_eq hsize.symm)
  have hall : (c.soloJob pool stream k).ops.toList.take stream.length = stream.ops := by
    rw [← hsize, ← Array.length_toList, List.take_length]
    rfl
  rw [hall] at htold
  exact htold

/-! ## The reports of a program -/

section Streams

variable (noise : Option (NoiseModel R)) (idle : Bool) (n : Nat)

omit [Scalar R] in
theorem sinceRestart_sublist {R : Type} (ops : List (Op R)) : (sinceRestart ops).Sublist ops := by
  have hprefix : (ops.reverse.takeWhile fun op => !op.isResetAll).Sublist ops.reverse :=
    List.takeWhile_sublist _
  simpa [sinceRestart] using hprefix.reverse

/-- Noise operations are not reports. -/
theorem countP_withNoise (op : Op R) :
    (withNoise noise op).countP (fun other => other.code = .mEveryZ) =
      if op.code = .mEveryZ then 1 else 0 := by
  have hadded :
      ((noise.bind (·.noiseOps? op)).getD []).countP (fun other => other.code = .mEveryZ) = 0 := by
    rw [List.countP_eq_zero]
    intro other hother
    simpa using code_ne_of_mem_noiseOps noise hother
  unfold withNoise
  dsimp only
  split
  · rename_i hmeasures
    have hcode : op.code ≠ .mEveryZ := by
      intro hcode
      rw [hcode] at hmeasures
      cases hmeasures
    have hlast : [op].countP (fun other => other.code = .mEveryZ) = 0 := by simp [hcode]
    rw [List.countP_append, List.countP_cons_of_neg Bool.false_ne_true, hadded, hlast, if_neg hcode]
  · rw [List.countP_cons, hadded, Nat.zero_add]
    by_cases hmove : op.code = .move
    · rw [if_pos hmove, hmove]
      rfl
    · rw [if_neg hmove]
      simp

theorem code_of_mem_decayPoints {op other : Op R} {noisy : Bool}
    (h : other ∈ decayPoints n op noisy) : other.code = .id := by
  rw [decayPoints] at h
  split at h
  · obtain ⟨q, _, rfl⟩ := List.mem_map.1 h
    rfl
  · split at h
    · obtain rfl := List.mem_singleton.1 h
      rfl
    · split at h
      · obtain ⟨q, _, rfl⟩ := List.mem_map.1 h
        rfl
      · cases h

/-- Weaving preserves the number of reports. -/
theorem countP_weaveOp (op : Op R) :
    (weaveOp noise idle n op).countP (fun other => other.code = .mEveryZ) =
      if op.code = .mEveryZ then 1 else 0 := by
  have hbody := countP_withNoise noise op
  unfold weaveOp
  dsimp only
  split
  · rw [List.countP_append, hbody, List.countP_eq_zero.2, Nat.zero_add]
    intro other hother
    rw [code_of_mem_decayPoints n hother]
    decide
  · split
    · -- What is dropped is an identity.
      rename_i hdropped
      have hall := List.all_eq_true.1 (Bool.and_eq_true_iff.1 hdropped).2
      rw [← hbody, List.countP_nil, eq_comm, List.countP_eq_zero]
      intro other hother
      rw [of_decide_eq_true (hall other hother)]
      decide
    · exact hbody

/-- The expansion of a report ends with the report. -/
theorem getLast?_weaveOp_of_report {op : Op R} (h : op.code = .mEveryZ) :
    (weaveOp noise idle n op).getLast? = some op := by
  cases idle with
  | true => rw [weaveOp_of_report noise n h, List.getLast?_concat]
  | false =>
      have hsilent : (noise.bind (·.noiseOps? op)).getD [] = [] := noiseOps_eq_nil (by rw [h]; rfl)
      have hbody : withNoise noise op = [op] := by
        rw [withNoise, hsilent]
        simp [h]
      rw [weaveOp, hbody]
      simp [h]

/-- A program without reports before its last operation has a stream with at most one report. -/
theorem reportCount_build_le_one {program : List (Op R)}
    (h : ∀ op ∈ program.dropLast, op.code ≠ .mEveryZ) :
    reportCount (Stream.build program noise idle n).ops ≤ 1 := by
  refine (sinceRestart_sublist (Stream.build program noise idle n).ops).countP_le.trans ?_
  rw [ops_build, withReport, List.countP_append, List.countP_cons_of_neg Bool.false_ne_true,
    List.countP_flatMap]
  simp only [Function.comp_def, countP_weaveOp]
  rcases List.eq_nil_or_concat program with rfl | ⟨init, last, rfl⟩
  · simp only [List.map_nil, List.sum_nil, Nat.zero_add]
    split
    · exact Nat.zero_le 1
    · exact Nat.le_of_eq (countP_weaveOp none idle n .mEveryZ)
  · rw [List.concat_eq_append, List.dropLast_concat] at h
    have hinit : (init.map fun op => if op.code = .mEveryZ then 1 else 0).sum = 0 := by
      apply List.sum_eq_zero
      intro count hcount
      obtain ⟨op, hop, rfl⟩ := List.mem_map.1 hcount
      exact if_neg (h op hop)
    rw [List.concat_eq_append, List.map_append, List.sum_append, hinit, Nat.zero_add,
      List.map_singleton, List.sum_singleton]
    by_cases hlast : last.code = .mEveryZ
    · -- The stream ends with the report of the program.
      have hne : weaveOp noise idle n last ≠ [] := by
        intro hnil
        have hend := getLast?_weaveOp_of_report noise idle n hlast
        rw [hnil] at hend
        cases hend
      rw [if_pos hlast, List.flatMap_append, List.flatMap_singleton, ← List.cons_append,
        List.getLast?_append_of_ne_nil _ hne, getLast?_weaveOp_of_report noise idle n hlast,
        Option.map_some, hlast, if_pos rfl]
      exact Nat.le_refl 1
    · rw [if_neg hlast, Nat.zero_add]
      split
      · exact Nat.zero_le 1
      · exact Nat.le_of_eq (countP_weaveOp none idle n .mEveryZ)

end Streams

/-- A shot lists its records by rising index, and each basis state at most once per report since its
last restart. The mean probability of a basis state is the sum of these records over the successful
shots, divided by their number. With a single report, as in every program without a report before
its last operation, no basis state is listed twice. -/
theorem basis_states_once_per_report {program : List (Op Float32)} {c : Config Float32}
    {host : Host Float32} (h : Runs program c host) {stream : Stream Float32}
    (hstream : stream = Stream.build program c.noise c.idle.isSome c.qubits) :
    (∃ results, (runProgram program c host).result = .ok results ∧ results.shots.length = c.shots ∧
      (∀ shot ∈ results.shots, shot.records.Pairwise (fun a b => a.index ≤ b.index) ∧
        (∀ key, (shot.reported key).length ≤ reportCount stream.ops) ∧
        (reportCount stream.ops ≤ 1 → shot.records.Pairwise fun a b => a.index < b.index)) ∧
      ∀ key, results.aggregate.lookup key =
        if results.good.flatMap (·.reported key) = [] then none
        else some ((results.good.flatMap (·.reported key)).foldl (· + ·) 0 /
          Float.ofNat results.good.length)) ∧
    ((∀ op ∈ program.dropLast, op.code ≠ .mEveryZ) → reportCount stream.ops ≤ 1) := by
  obtain ⟨results, hresult, hshots, _⟩ := h.exists_results hstream
  refine ⟨⟨results, hresult, ?_, ?_, results.lookup_aggregate⟩, ?_⟩
  · rw [hshots, List.length_map, List.length_range]
  · intro shot hshot
    rw [hshots] at hshot
    obtain ⟨k, _, rfl⟩ := List.mem_map.1 hshot
    have htold := Config.told_soloLane (Config.checked_of_validate h.checked) host.pool stream k
    refine ⟨ReportLog.pairwise_sorted _, fun key => ?_, htold.rising⟩
    rw [ShotResult.reported, List.length_map]
    exact htold.length_filter_le key
  · intro hlast
    rw [hstream]
    exact reportCount_build_le_one _ _ _ hlast

/-- A program that reports at its end, on the largest circuit with any number of shots. -/
theorem basis_states_once_per_report_largestCircuit :
    ∃ results, (runProgram [.h 0, .cx 0 26, .mz 26 0, .mEveryZ]
        { Config.standard with qubits := 27, shots := 1000, resultCount := 1 } .empty).result =
          .ok results ∧
      results.shots.length = 1000 ∧
      ∀ shot ∈ results.shots, shot.records.Pairwise fun a b => a.index < b.index := by
  have hruns : Runs [.h 0, .cx 0 26, .mz 26 0, .mEveryZ]
      { Config.standard with qubits := 27, shots := 1000, resultCount := 1 } .empty :=
    ⟨rfl, rfl, ⟨_, rfl⟩, by decide⟩
  obtain ⟨⟨results, hresult, hlength, hshots, _⟩, hone⟩ := basis_states_once_per_report hruns rfl
  exact ⟨results, hresult, hlength, fun shot hshot => (hshots shot hshot).2.2 (hone (by decide))⟩

/-- A basis state can be listed twice: the end marker behind the report makes the stream append a
second report, and the mean over one shot then adds both probabilities. -/
theorem reports_told_twice :
    ∃ results, (runProgram [.parallelStart, .mEveryZ, .parallelEnd] Config.standard .empty).result =
        .ok results ∧
      results.shots.map (·.records) = [[⟨0, 1⟩, ⟨0, 1⟩]] ∧
      results.aggregate.lookup 0 =
        some ((0 + (1 : Float32).toFloat + (1 : Float32).toFloat) / Float.ofNat 1) := by
  have hruns : Runs [.parallelStart, .mEveryZ, .parallelEnd] Config.standard .empty :=
    ⟨rfl, rfl, ⟨_, rfl⟩, by decide⟩
  obtain ⟨stream, hstream⟩ : ∃ stream, stream = Stream.build
      ([.parallelStart, .mEveryZ, .parallelEnd] : List (Op Float32)) none false 1 := ⟨_, rfl⟩
  have hops : stream.ops = [.resetAll, .parallelStart, .mEveryZ, .parallelEnd, .mEveryZ] := by
    rw [hstream]
    rfl
  obtain ⟨results, hresult, hshots, _⟩ := hruns.exists_results hstream
  -- The shot never leaves the ground state, so both reports list index 0.
  obtain ⟨hground, hlog⟩ :=
    Config.atBasis_soloLane (Config.checked_of_validate hruns.checked) {} hops
    (by decide) (by decide +kernel) (by decide +kernel) 0
  have hkept : (Config.standard.soloLane {} stream 0).log.kept = [⟨0, 1⟩, ⟨0, 1⟩] := by
    have hslots : Config.standard.blankLane.log.slots.size = 256 := Array.size_replicate
    rw [hlog, ReportLog.kept_foldl_push (by rw [hslots]; decide) (by decide)]
    rfl
  obtain ⟨shot, hshot⟩ : ∃ shot, shot = (Config.standard.soloLane {} stream 0).result stream 1 0 :=
    ⟨_, rfl⟩
  have hall : results.shots = [shot] := by
    rw [hshots, hshot]
    rfl
  have hrecords : shot.records = [⟨0, 1⟩, ⟨0, 1⟩] := by
    rw [hshot]
    change (Config.standard.soloLane {} stream 0).log.kept.mergeSort _ = _
    rw [hkept]
    exact List.mergeSort_of_pairwise (by simp)
  have hok : shot.status = .ok := by
    rw [hshot]
    change ShotStatus.decode (Config.standard.soloLane {} stream 0).shot.status _ _ _ = .ok
    rw [hground.status]
    rfl
  have hgood : results.good = [shot] := by
    rw [RunResults.good, hall]
    simp [hok, ShotStatus.isOk]
  have hreported : shot.reported 0 = [(1 : Float32).toFloat, (1 : Float32).toFloat] := by
    simp [ShotResult.reported, hrecords]
  refine ⟨results, hresult, by simp [hall, hrecords], ?_⟩
  rw [RunResults.lookup_aggregate, hgood, List.flatMap_singleton, hreported, List.length_singleton]
  rfl

end ShotSim
