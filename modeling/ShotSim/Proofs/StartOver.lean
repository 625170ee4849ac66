import Mathlib.Data.List.Basic
import ShotSim.Proofs.Isolation
import ShotSim.Proofs.ShotStatus

/-!
# Restarting — what comes before a reset of all qubits is forgotten

A reset of all qubits in the middle of a program does what the restart at the head of every stream
does.  From there on a shot goes the way of a shot that runs the rest of the program alone, further
down its stream.

* `echoes_step_of_resetAll` — a restart leaves nothing of a shot but its place;
* `ops_build`, `ops_build_append` — the stream of the rest is the end of the whole stream;
* `Config.soloLane_append` — the end of a shot, whatever came before the reset;
* `firstPending_append` — the operation a failed shot names;
* `resetAll_forgets` — the results of the two programs.
-/

namespace ShotSim

variable {R : Type} [Scalar R]

/-! ## Lanes -/

namespace Lane

/-- A restart makes a shot echo one that has just begun. -/
theorem echoes_step_of_resetAll {job job' : Job R} {p i i' e w : Nat}
    (h : job.Follows True p job' i i') (ht : job.layout.Tiled e w)
    (hroom : job.batch.qubits ≤ job.layout.qubitCount) {lane : Lane R}
    (hblock : lane.block.size = job.layout.entriesPerShot) (hplace : lane.shot.nextOp = p)
    {op : Op R} (hop : job.ops[0]? = some op) (hreset : op.isResetAll = true) :
    Echoes True p (step { lane with shot := 0 } job i) (lane.step job' i') := by
  have hop' : job'.ops[lane.shot.nextOp]? = some op := by
    rw [hplace, ← hop, ← h.ops 0]
    rfl
  have hbegun : job.ops[({ lane with shot := 0 } : Lane R).shot.nextOp]? = some op := hop
  have hprepared := prepare_of_resetAll hbegun hreset i
  have hprepared' := prepare_of_resetAll hop' hreset i'
  have hprepare : Echoes True p (prepare { lane with shot := 0 } job i) (lane.prepare job' i') := by
    have hreads : job'.readsProbabilities (p + 1) = job.readsProbabilities 1 :=
      h.readsProbabilities_eq 1
    -- Both control blocks are restarted from nothing but the id of the shot.
    rw [hprepared, hprepared', hplace, hreads]
    refine ⟨?_, rfl, rfl, ?_, fun _ => rfl⟩
    · rw [h.restart_eq]
      rfl
    · simp only [restart, h.resultCount]
  have hsize : (prepare { lane with shot := 0 } job i).block.size = job.layout.entriesPerShot := by
    rw [(prepare_frame { lane with shot := 0 } job i).1]
    exact hblock
  exact hprepare.execute h ht (placed_prepare _ job i hroom) hsize

/-- A run from a restart in the middle of a stream echoes one from its head. -/
theorem echoes_after_of_resetAll {job job' : Job R} {p i i' e w : Nat}
    (h : job.Follows True p job' i i') (ht : job.layout.Tiled e w)
    (hroom : job.batch.qubits ≤ job.layout.qubitCount) {lane : Lane R}
    {resultsPerShot resultCount : Nat} (hfits : lane.Fits job.layout resultsPerShot resultCount)
    (hplace : lane.shot.nextOp = p) {op : Op R}
    (hop : job.ops[0]? = some op) (hreset : op.isResetAll = true) {count : Nat}
    (hcount : 0 < count) :
    Echoes True p (after { lane with shot := 0 } job i count) (lane.after job' i' count) := by
  cases count with
  | zero => exact absurd hcount (Nat.lt_irrefl 0)
  | succ count =>
      have hstep := echoes_step_of_resetAll h ht hroom hfits.block hplace hop hreset
      exact hstep.after h ht hroom (fits_step ht hfits.begun i) count

end Lane

/-! ## Streams -/

section Streams

variable (noise : Option (NoiseModel R)) (idle : Bool) (n : Nat)

/-- Operations with a final report, unless they end with one. -/
def withReport (ops : List (Op R)) : List (Op R) :=
  ops ++ if ops.getLast?.map (·.code) = some .mEveryZ then [] else weaveOp none idle n .mEveryZ

theorem withReport_append (first : List (Op R)) {rest : List (Op R)} (h : rest ≠ []) :
    withReport idle n (first ++ rest) = first ++ withReport idle n rest := by
  rw [withReport, withReport, List.getLast?_append_of_ne_nil _ h, List.append_assoc]

theorem map_op_weaveFrom (program : List (Op R)) (start : Nat) :
    (weaveFrom noise idle n program start).map (·.op) = program.flatMap (weaveOp noise idle n) := by
  induction program generalizing start with
  | nil => rfl
  | cons op rest ih =>
      rw [weaveFrom, List.map_append, ih, List.flatMap_cons, List.map_map]
      congr 1
      exact List.map_id _

/-- The operations of a stream, as a `flatMap` over the program. -/
theorem ops_build (program : List (Op R)) :
    (Stream.build program noise idle n).ops =
      withReport idle n (.resetAll :: program.flatMap (weaveOp noise idle n)) := by
  have hbody : ((⟨.resetAll, 0⟩ :: weave program noise idle n : Stream R)).map (·.op) =
      .resetAll :: program.flatMap (weaveOp noise idle n) := by
    rw [List.map_cons, weave, map_op_weaveFrom]
  have hlast : (⟨.resetAll, 0⟩ :: weave program noise idle n : Stream R).getLast?.map (·.op.code) =
      (Op.resetAll :: program.flatMap (weaveOp noise idle n)).getLast?.map (·.code) := by
    rw [← hbody, List.getLast?_map, Option.map_map]
    rfl
  have hreport : ((weave [.mEveryZ] none idle n).map fun strand : Strand R =>
      ({ strand with origin := program.length - 1 } : Strand R)).map (·.op) =
        weaveOp none idle n .mEveryZ := by
    rw [List.map_map]
    exact (map_op_weaveFrom none idle n [.mEveryZ] 0).trans (List.append_nil _)
  rw [Stream.build, Stream.ops, List.map_append, hbody, withReport, ← hlast]
  congr 1
  split
  · rfl
  · exact hreport

/-- The stream after a restart is a suffix of the whole stream. -/
theorem ops_build_append (before rest : List (Op R)) :
    (Stream.build (before ++ .resetAll :: rest) noise idle n).ops =
      .resetAll :: before.flatMap (weaveOp noise idle n) ++
        (Stream.build rest noise idle n).ops := by
  have hreset : weaveOp noise idle n (.resetAll : Op R) = [.resetAll] :=
    weaveOp_of_special noise idle n (Or.inl rfl)
  rw [ops_build, ops_build, List.flatMap_append, List.flatMap_cons, hreset, List.singleton_append,
    ← List.cons_append, withReport_append idle n _ (List.cons_ne_nil _ _)]

end Streams

/-! ## Shots by themselves -/

namespace Config

/-- The end of a solo shot depends on the operations after the last restart only, up to its position
and a shifted schedule. -/
theorem soloLane_append (c : Config R) (hchecked : c.Checked) {stream stream' : Stream R}
    {before : List (Op R)} (hops : stream'.ops = before ++ stream.ops) {strand : Strand R}
    {rest : Stream R} (hstream : stream = strand :: rest) (hreset : strand.op.isResetAll = true)
    {pool pool' : Pool}
    (hschedule : ∀ id idx, pool'.schedule id (before.length + idx) = pool.schedule id idx)
    (k : Nat) :
    ∃ lane, Lane.Agree c.resultCount lane (c.soloLane pool stream k) ∧
      Lane.Echoes True before.length lane (c.soloLane pool' stream' k) := by
  obtain ⟨e, w, ht⟩ := Layout.exists_tiled_ofCircuit c.qubits hchecked.perWorkgroup_ge
    hchecked.perWorkgroup_le
  have hroom := Layout.le_qubitCount_ofCircuit c.qubits c.qubitsPerWorkgroup
  have hfollows :
      (c.soloJob pool stream k).Follows True before.length (c.soloJob pool' stream' k) 0 0 :=
    { ops := fun j => by simp [soloJob, hops, List.getElem?_append_right]
      idle := rfl
      layout := rfl
      resultCount := rfl
      qubits := rfl
      seed := rfl
      id := rfl
      threshold := fun _ => rfl
      schedule := fun _ => hschedule }
  have hlength : stream'.length = before.length + stream.length := by
    have hsame := congrArg List.length hops
    rwa [Stream.ops, Stream.ops, List.length_append, List.length_map, List.length_map] at hsame
  -- The whole program is run up to the reset, and from there on.
  let reached := c.blankLane.after (c.soloJob pool' stream' k) 0 before.length
  have hsplit : c.soloLane pool' stream' k =
      reached.after (c.soloJob pool' stream' k) 0 stream.length := by
    rw [soloLane, hlength, Lane.after_add]
  have hplace : reached.shot.nextOp = before.length := by
    have hleft :
        c.blankLane.shot.nextOp + before.length ≤ (c.soloJob pool' stream' k).ops.size := by
      have hsize : (c.soloJob pool' stream' k).ops.size = before.length + stream.ops.length := by
        simp [soloJob, hops]
      have hfirst : c.blankLane.shot.nextOp = 0 := rfl
      omega
    exact (Lane.nextOp_after 0 hleft).trans (Nat.zero_add _)
  have hfits : reached.Fits (.ofCircuit c.qubits c.qubitsPerWorkgroup) c.resultsPerShot
      c.resultCount := Lane.fits_after ht c.fits_blankLane 0 before.length
  have hop : (c.soloJob pool stream k).ops[0]? = some strand.op := by
    subst hstream
    rfl
  have hcount : 0 < stream.length := by
    subst hstream
    exact Nat.succ_pos _
  refine ⟨Lane.after { reached with shot := 0 } (c.soloJob pool stream k) 0 stream.length, ?_, ?_⟩
  · exact Lane.agree_after_of_blank ht hop hreset hfits c.fits_blankLane 0 hcount
  · rw [hsplit]
    exact Lane.echoes_after_of_resetAll hfollows ht hroom hfits hplace hop hreset hcount

/-- The status of a solo shot is that of its stream. -/
theorem status_soloLane (c : Config R) (pool : Pool) (stream : Stream R) (k : Nat) :
    ((c.soloLane pool stream k).result stream c.qubits c.resultCount).status =
      stream.status c.qubits := by
  have hlength : stream.length = stream.ops.length := (List.length_map _).symm
  have hops : (c.soloJob pool stream k).ops.toList.drop c.blankLane.shot.nextOp = stream.ops := rfl
  have hverdict := Lane.verdict_after 0 hops
  rw [← hlength] at hverdict
  exact congrArg (fun v => ShotStatus.decode v.1 v.2 stream.opcodes stream.origins) hverdict

end Config

/-! ## Failed shots -/

/-- The status with its operation index mapped. -/
def ShotStatus.relocate (place : Nat → Nat) : ShotStatus → ShotStatus
  | ok => ok
  | unsupportedOperation op opcode => unsupportedOperation (place op) opcode
  | invalidQubit op => invalidQubit (place op)

/-- The pending operations behind a restart. -/
theorem pending_append {before rest : List (Op R)} {j : Nat} :
    Pending (before ++ .resetAll :: rest) j ↔ ∃ i, j = before.length + 1 + i ∧ Pending rest i := by
  have hafter : ∀ i, Pending (before ++ .resetAll :: rest) (before.length + 1 + i) ↔
      Pending rest i := by
    intro i
    have hsplit : before ++ Op.resetAll :: rest = (before ++ [.resetAll]) ++ rest := by simp
    have hlength : before.length + 1 = (before ++ [(.resetAll : Op R)]).length := by simp
    rw [Pending, Pending, hsplit, hlength, Nat.add_assoc, List.drop_length_add_append,
      List.getElem?_append_right (Nat.le_add_right _ _), Nat.add_sub_cancel_left]
  constructor
  · intro h
    rcases Nat.lt_trichotomy j before.length with hlt | heq | hgt
    · -- The reset comes later.
      have hmem : (.resetAll : Op R) ∈ (before ++ .resetAll :: rest).drop (j + 1) := by
        rw [List.drop_append_of_le_length hlt]
        simp
      cases h.2 _ hmem
    · -- It is the reset itself.
      have hreset := h.1
      rw [heq, List.getElem?_append_right (Nat.le_refl _), Nat.sub_self] at hreset
      cases hreset
    · obtain ⟨i, rfl⟩ := Nat.exists_eq_add_of_le hgt
      exact ⟨i, rfl, (hafter i).1 h⟩
  · rintro ⟨i, rfl, h⟩
    exact (hafter i).2 h

/-- The first pending operation behind a restart is that of the whole program. -/
theorem firstPending_append {before rest : List (Op R)} {i : Nat} (h : FirstPending rest i) :
    FirstPending (before ++ .resetAll :: rest) (before.length + 1 + i) := by
  refine ⟨pending_append.2 ⟨i, rfl, h.1⟩, ?_⟩
  intro j hj hpending
  obtain ⟨i', rfl, hi'⟩ := pending_append.1 hpending
  exact h.2 i' (by omega) hi'

/-- The status of the whole stream is that of the part behind the restart, with indices shifted. -/
theorem status_build_append {noise : Option (NoiseModel R)}
    (hnoise : ∀ m, noise = some m → m.validate = .ok ()) (idle : Bool) {n : Nat}
    {before rest : List (Op R)} (hwhole : ∀ op ∈ before ++ .resetAll :: rest, op.Admitted n)
    (hrest : ∀ op ∈ rest, op.Admitted n) :
    ∃ place : Nat → Nat,
      (Stream.build (before ++ .resetAll :: rest) noise idle n).status n =
        ((Stream.build rest noise idle n).status n).relocate place ∧
      (before.length + 1 + rest.length ≤ UInt32.size → ∀ op,
        place op = before.length + 1 + op) := by
  -- Either nothing is pending after the reset, or the same operation is the first in both programs.
  rcases decode_of_tells (tells_build hnoise idle hrest) with
    ⟨hnone, hok⟩ | ⟨i, op, named, hfirst, hop, hnamed, hbad⟩
  · rcases decode_of_tells (tells_build hnoise idle hwhole) with
      ⟨_, hok'⟩ | ⟨j, _, _, hfirst', _⟩
    · refine ⟨fun op => before.length + 1 + op, ?_, fun _ _ => rfl⟩
      rw [Stream.status, Stream.status, hok, hok']
      rfl
    · obtain ⟨i, _, hi⟩ := pending_append.1 hfirst'.1
      exact absurd hi (hnone i)
  · have hlater : FirstPending (before ++ .resetAll :: rest) (before.length + 1 + i) :=
      firstPending_append hfirst
    have hget : (before ++ .resetAll :: rest)[before.length + 1 + i]? = some op := by
      rw [Nat.add_assoc, List.getElem?_append_right (Nat.le_add_right _ _), Nat.add_sub_cancel_left,
        Nat.add_comm 1 i, List.getElem?_cons_succ, hop]
    rcases decode_of_tells (tells_build hnoise idle hwhole) with
      ⟨hnone', _⟩ | ⟨j, op', named', hfirst', hop', hnamed', hbad'⟩
    · exact absurd hlater.1 (hnone' _)
    · obtain rfl := hfirst'.unique hlater
      rw [hget] at hop'
      cases hop'
      -- Places are reported as words, which tell them apart as long as the program is that short.
      by_cases hfit : before.length + 1 + rest.length ≤ UInt32.size
      · have hi := hfirst.1.lt_length
        refine ⟨fun op => before.length + 1 + op, ?_, fun _ _ => rfl⟩
        rw [Stream.status, Stream.status, hbad, hbad', hnamed (by omega), hnamed' (by omega)]
        rfl
      · refine ⟨fun _ => named', ?_, fun h => absurd h hfit⟩
        rw [Stream.status, Stream.status, hbad, hbad']
        rfl

/-! ## Whole runs -/

/-- The pool whose schedule is that of `pool`, `places` operations later. -/
def Pool.ahead (pool : Pool) (places : Nat) : Pool :=
  { pool with schedule := fun id idx => pool.schedule id (places + idx) }

/-- A reset of all qubits forgets the past: `before ++ .resetAll :: rest` gives every shot the
result of `rest` alone, up to the order in which records arrive and with equally many dropped. The
records are equal if the schedules agree on the common suffix of the streams, if there is a single
workgroup, or if none are dropped and the cursor cannot wrap. A failed shot names the same
operation, at its index in the longer program as long as that fits a word. -/
theorem resetAll_forgets {before rest : List (Op R)} {c : Config R} {host host' : Host R}
    (hwhole : Runs (before ++ .resetAll :: rest) c host) (hrest : Runs rest c host') :
    let stream := Stream.build rest c.noise c.idle.isSome c.qubits
    let stream' := Stream.build (before ++ .resetAll :: rest) c.noise c.idle.isSome c.qubits
    ∃ results results', (runProgram (before ++ .resetAll :: rest) c host).result = .ok results ∧
      (runProgram rest c host').result = .ok results' ∧
      results.shots.length = c.shots ∧ results'.shots.length = c.shots ∧
      results.states.isSome = c.capture ∧ results.states = results'.states ∧
      ∀ k < c.shots, ∃ r r', results.shots[k]? = some r ∧ results'.shots[k]? = some r' ∧
        r.id = r'.id ∧ r.dropped = r'.dropped ∧
        ((∀ idx, host.pool.schedule (UInt32.ofNat k) (stream'.length - stream.length + idx) =
            host'.pool.schedule (UInt32.ofNat k) idx) ∨
          (Layout.ofCircuit c.qubits c.qubitsPerWorkgroup).workgroups = 1 ∨
          (r.dropped = 0 ∧ reportCount stream.ops < 32) → r.records = r'.records) ∧
        r.measurements = r'.measurements ∧ r.elapsed = r'.elapsed ∧ r.heat = r'.heat ∧
        ∃ place : Nat → Nat, r.status = r'.status.relocate place ∧
          (before.length + 1 + rest.length ≤ UInt32.size → ∀ op,
            place op = before.length + 1 + op) := by
  intro stream stream'
  have hchecked := Config.checked_of_validate hrest.checked
  have hstream : stream = Stream.build rest c.noise c.idle.isSome c.qubits := rfl
  have hstream' :
      stream' = Stream.build (before ++ .resetAll :: rest) c.noise c.idle.isSome c.qubits :=
    rfl
  clear_value stream stream'
  obtain ⟨results, hresult, hshots, hstates, _⟩ := hwhole.exists_results hstream'
  obtain ⟨results', hresult', hshots', hstates', _⟩ := hrest.exists_results hstream
  have hops : stream'.ops =
      .resetAll :: before.flatMap (weaveOp c.noise c.idle.isSome c.qubits) ++ stream.ops := by
    rw [hstream, hstream', ops_build_append]
  have hplaces : (Op.resetAll :: before.flatMap (weaveOp c.noise c.idle.isSome c.qubits)).length =
      stream'.length - stream.length := by
    have hsame := congrArg List.length hops
    rw [List.length_append, Stream.ops, Stream.ops, List.length_map, List.length_map] at hsame
    rw [hsame, Nat.add_sub_cancel]
  -- The schedule of the whole run is moved back to the rest, and exchanged for the one of the other
  -- run.
  let ahead := host.pool.ahead (stream'.length - stream.length)
  have hschedule : ∀ id idx, host.pool.schedule id
      ((Op.resetAll :: before.flatMap (weaveOp c.noise c.idle.isSome c.qubits)).length + idx) =
        ahead.schedule id idx := by
    rw [hplaces]
    exact fun _ _ => rfl
  have hlane := c.soloLane_append hchecked hops hstream rfl hschedule
  have hreordered := c.reordered_soloLane hstream rfl hchecked ahead host'.pool
  have hblock : ∀ k, (c.soloLane host.pool stream' k).block =
      (c.soloLane host'.pool stream k).block := by
    intro k
    obtain ⟨lane, hagree, hecho⟩ := hlane k
    exact hecho.block.trans (hagree.block.trans (hreordered k).block)
  refine ⟨results, results', hresult, hresult', by simp [hshots], by simp [hshots'], ?_, ?_, ?_⟩
  · rw [hstates]
    cases c.capture <;> rfl
  · simp only [hstates, hstates', hblock]
  · intro k hk
    obtain ⟨lane, hagree, hecho⟩ := hlane k
    -- Everything but the status and the place is the same as in a lane that ran the rest alone.
    have hsame : (c.soloLane host.pool stream' k).result stream' c.qubits c.resultCount =
        { (c.soloLane ahead stream k).result stream' c.qubits c.resultCount with
          status :=
            ((c.soloLane host.pool stream' k).result stream' c.qubits c.resultCount).status } := by
      rw [← hagree.result_eq stream' c.qubits]
      simp only [Lane.result, RunResults.shotResult, hecho.shot, hecho.slots, hecho.log trivial]
      rfl
    have hshot := (hreordered k).toMatches.sameShot_result stream' c.qubits
    have hdropped := (congrArg (·.dropped) hsame).trans (hreordered k).log.dropped
    obtain ⟨place, hstatus, hplace⟩ := status_build_append hchecked.noise c.idle.isSome
      (Config.admitted_of_validateProgram hwhole.admitted)
      (Config.admitted_of_validateProgram hrest.admitted)
    rw [← hstream, ← hstream', ← c.status_soloLane host.pool stream' k,
      ← c.status_soloLane host'.pool stream k] at hstatus
    refine ⟨_, _, by rw [hshots, List.getElem?_map, List.getElem?_range hk]; rfl,
      by rw [hshots', List.getElem?_map, List.getElem?_range hk]; rfl,
      (congrArg (·.id) hsame).trans hshot.id.symm, hdropped, ?_,
      (congrArg (·.measurements) hsame).trans hshot.measurements.symm,
      (congrArg (·.elapsed) hsame).trans hshot.elapsed.symm,
      (congrArg (·.heat) hsame).trans hshot.heat.symm, place, hstatus, hplace⟩
    intro hcase
    refine (congrArg (·.records) hsame).trans ?_
    rcases hcase with hown | hone | ⟨hnone, hreports⟩
    · have hsolo : c.soloLane ahead stream k = c.soloLane host'.pool stream k :=
        c.soloLane_of_schedule hstream rfl hchecked (Or.inl (funext hown))
      rw [hsolo]
      rfl
    · have hsolo : c.soloLane ahead stream k = c.soloLane host'.pool stream k :=
        c.soloLane_of_schedule hstream rfl hchecked (Or.inr hone)
      rw [hsolo]
      rfl
    · exact (hreordered k).log.sorted_eq (hchecked.mul_entriesPerShot_lt hreports)
        ((congrArg (·.dropped) hsame).symm.trans hnone)

/-- A program that fails, restarts and fails again names its second failure. -/
theorem resetAll_forgets_twice :
    ∃ results results',
      (runProgram [.h 0, .injected 0 0 0, .resetAll, .x 0, .bare (.unknown 99) 0 0 0]
        { Config.standard with shots := 2, idle := some (.ofTimes 1 1 1) } .empty).result =
          .ok results ∧
      (runProgram [.x 0, .bare (.unknown 99) 0 0 0]
        { Config.standard with shots := 2, idle := some (.ofTimes 1 1 1) } .empty).result =
          .ok results' ∧
      ∃ r r', results.shots[1]? = some r ∧ results'.shots[1]? = some r' ∧ r.records = r'.records ∧
        ∃ place : Nat → Nat, r.status = r'.status.relocate place ∧ place 1 = 4 := by
  have hwhole : Runs ([.h 0, .injected 0 0 0] ++ .resetAll :: [.x 0, .bare (.unknown 99) 0 0 0])
      { Config.standard with shots := 2, idle := some (.ofTimes 1 1 1) } .empty :=
    ⟨rfl, rfl, ⟨_, rfl⟩, by decide⟩
  have hrest : Runs [.x 0, .bare (.unknown 99) 0 0 0]
      { Config.standard with shots := 2, idle := some (.ofTimes 1 1 1) } .empty :=
    ⟨rfl, rfl, ⟨_, rfl⟩, by decide⟩
  obtain ⟨results, results', hresult, hresult', _, _, _, _, hshot⟩ := resetAll_forgets hwhole hrest
  obtain ⟨r, r', hr, hr', _, _, hrecords, _, _, _, place, hstatus, hplace⟩ := hshot 1 (by decide)
  exact ⟨results, results', hresult, hresult', r, r', hr, hr',
    hrecords (Or.inl fun _ => rfl), place, hstatus, hplace (by decide) 1⟩

end ShotSim
