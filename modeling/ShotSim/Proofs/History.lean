import ShotSim.Proofs.Isolation
import ShotSim.Proofs.ShotStatus
import ShotSim.Proofs.StreamInputs

/-!
# Session histories — what a run owes to what came before it

A session carries two things from one run to the next: the memory of its machine, which no run can
see, and the stream of its program.  The stream is dropped when the program or the noise changes,
but not when the size of the circuit does.

* `Session.after` — a session after a history of commands;
* `Session.woven` — the size of circuit that the kept stream was woven for;
* `Session.Tracks`, `Tracks.after` — that size accounts for the kept stream, along every history;
* `Tracks.run_eq_of_current` — a run with a current stream is what a fresh run would be;
* `Tracks.not_success_of_larger` — a run with the stream of a larger circuit fails.
-/

namespace ShotSim

variable {R : Type} [Scalar R]

namespace Session

/-! ## Histories -/

def after (s : Session R) : List (Host R × Command R) → Session R
  | [] => s
  | (host, command) :: rest => (s.perform host command).1.after rest

def accepts (s : Session R) : Bool :=
  match s.config.validate, s.config.validateProgram s.program with
  | .ok _, .ok _ => true
  | _, _ => false

/-- The circuit width of the cached stream after a command, given the width before. -/
def wovenNext (s : Session R) (woven : Option Nat) : Command R → Option Nat
  | .setConfig config => if sameNoise config s.config then woven else none
  | .setProgram _ | .setNoise _ | .setIdle _ => none
  | .run => if s.accepts then some (woven.getD s.config.qubits) else woven

/-- The circuit width of the cached stream after a history. -/
def woven (s : Session R) (before : Option Nat) : List (Host R × Command R) → Option Nat
  | [] => before
  | (host, command) :: rest => (s.perform host command).1.woven (s.wovenNext before command) rest

/-! ## One run -/

/-- An accepted session has a valid configuration and program. -/
theorem checked_of_accepts {s : Session R} (h : s.accepts = true) :
    s.config.validate = .ok () ∧ s.config.validateProgram s.program = .ok () := by
  unfold accepts at h
  split at h
  · rename_i hconfig hprogram
    exact ⟨hconfig, hprogram⟩
  · cases h

theorem accepts_of_checked {s : Session R} (hconfig : s.config.validate = .ok ())
    (hprogram : s.config.validateProgram s.program = .ok ()) : s.accepts = true := by
  rw [accepts, hconfig, hprogram]

/-- A rejected run leaves the session unchanged and fails as a fresh run does. -/
theorem run_of_refused {s : Session R} (h : s.accepts = false) :
    ∃ e, ∀ host : Host R, s.run host = (s, ⟨.error e, []⟩) ∧
      runProgram s.program s.config host = ⟨.error e, []⟩ := by
  have hfresh : ∀ host, runProgram s.program s.config host =
      (run ⟨s.config, s.program, none, .fresh⟩ host).2 := fun _ => rfl
  simp only [hfresh]
  unfold accepts at h
  unfold run
  dsimp only
  cases hconfig : s.config.validate with
  | error e => exact ⟨e, fun _ => ⟨rfl, rfl⟩⟩
  | ok u =>
      cases hprogram : s.config.validateProgram s.program with
      | error e => exact ⟨e, fun _ => ⟨rfl, rfl⟩⟩
      | ok u => simp [hconfig, hprogram] at h

/-- Running a stream keeps configuration, program and cached stream. -/
theorem runStream_frame (s : Session R) (stream : Stream R) (host : Host R) :
    (s.runStream stream host).1.config = s.config ∧ (s.runStream stream host).1.program =
      s.program ∧ (s.runStream stream host).1.stream = s.stream := by
  unfold runStream
  split
  · exact ⟨rfl, rfl, rfl⟩
  · dsimp only
    split <;> exact ⟨rfl, rfl, rfl⟩

/-- An accepted run caches its stream. -/
theorem run_of_accepts {s : Session R} (h : s.accepts = true) (host : Host R) :
    (s.run host).1.config = s.config ∧ (s.run host).1.program = s.program ∧
      (s.run host).1.stream = some (s.stream.getD s.buildStream) := by
  have hchecked := checked_of_accepts h
  rw [run_of_checked hchecked.1 hchecked.2]
  exact runStream_frame _ _ host

/-! ## The kept stream -/

/-- The cached stream is the one for the current program and noise and a circuit of width
`woven`. -/
structure Tracks (s : Session R) (woven : Option Nat) : Prop where
  stream : s.stream = woven.map (Stream.build s.program s.config.noise s.config.idle.isSome)
  nonneg : woven ≠ none → ∀ m, s.config.noise = some m → m.Nonneg

/-- A new session has no cached stream. -/
theorem tracks_new (config : Config R) : (new config).Tracks none := ⟨rfl, fun h => absurd rfl h⟩

/-- The stream of a run is built for the width of the cached one, if there is one. -/
theorem Tracks.getD_stream {s : Session R} {woven : Option Nat} (h : s.Tracks woven) :
    s.stream.getD s.buildStream = Stream.build s.program s.config.noise s.config.idle.isSome
      (woven.getD s.config.qubits) := by
  rw [h.stream]
  cases woven <;> rfl

section Along

variable [Scalar.EqualUpToZeros R]

/-- A new configuration drops the cached stream iff the noise changed. -/
theorem Tracks.setConfig {s : Session R} {woven : Option Nat} (h : s.Tracks woven)
    (config : Config R) :
    (s.setConfig config).Tracks (if sameNoise config s.config then woven else none) := by
  by_cases hsame : sameNoise config s.config = true
  · rw [if_pos hsame]
    have hnonneg : woven ≠ none → ∀ m, config.noise = some m → m.Nonneg :=
      fun hwoven => nonneg_of_sameNoise hsame (h.nonneg hwoven)
    refine ⟨?_, hnonneg⟩
    have hkept : (s.setConfig config).stream = s.stream := if_pos hsame
    rw [hkept, h.stream]
    cases woven with
    | none => rfl
    | some size =>
        -- The noise compares as equal, so what is kept is also the stream for the new noise.
        have hbuild := build_eq_of_sameNoise hsame (hnonneg nofun) s.program size
        exact congrArg some hbuild.symm
  · rw [if_neg hsame]
    exact ⟨if_neg hsame, fun hnone => absurd rfl hnone⟩

omit [Scalar.EqualUpToZeros R] in
/-- An accepted run caches a stream of the current width, unless one is cached. -/
theorem Tracks.run {s : Session R} {woven : Option Nat} (h : s.Tracks woven) (host : Host R) :
    (s.run host).1.Tracks (if s.accepts then some (woven.getD s.config.qubits) else woven) := by
  cases haccepts : s.accepts with
  | false =>
      rcases run_of_refused haccepts with ⟨e, hrefused⟩
      rw [(hrefused host).1]
      exact h
  | true =>
      rcases run_of_accepts haccepts host with ⟨hconfig, hprogram, hstream⟩
      have hvalid := Config.checked_of_validate (checked_of_accepts haccepts).1
      refine ⟨?_, ?_⟩
      · rw [hstream, hconfig, hprogram, h.getD_stream]
        rfl
      · intro _ m hm
        rw [hconfig] at hm
        exact NoiseModel.nonneg_of_validate (hvalid.noise m hm)

/-- `Tracks` is preserved by one command. -/
theorem Tracks.perform {s : Session R} {woven : Option Nat} (h : s.Tracks woven) (host : Host R)
    (command : Command R) : (s.perform host command).1.Tracks (s.wovenNext woven command) := by
  cases command with
  | setConfig config => exact h.setConfig config
  | setProgram program => exact ⟨rfl, fun hnone => absurd rfl hnone⟩
  | setNoise noise => exact ⟨rfl, fun hnone => absurd rfl hnone⟩
  | setIdle idle => exact ⟨rfl, fun hnone => absurd rfl hnone⟩
  | run => exact h.run host

/-- `Tracks` is preserved by a history. -/
theorem Tracks.after {s : Session R} {woven : Option Nat} (h : s.Tracks woven)
    (history : List (Host R × Command R)) : (s.after history).Tracks (s.woven woven history) := by
  induction history generalizing s woven with
  | nil => exact h
  | cons entry rest ih => exact ih (h.perform entry.1 entry.2)

end Along

/-! ## Current streams -/

/-- The cached stream, if any, has the width of the circuit wherever that matters. -/
def Current (s : Session R) (woven : Option Nat) : Prop :=
  s.config.idle.isSome = true → woven.getD s.config.qubits = s.config.qubits

/-- A current cached stream is the one that would be built. -/
theorem Tracks.getD_stream_of_current {s : Session R} {woven : Option Nat} (h : s.Tracks woven)
    (hcurrent : s.Current woven) : s.stream.getD s.buildStream = s.buildStream := by
  rw [h.getD_stream]
  unfold Current at hcurrent
  cases hidle : s.config.idle.isSome with
  | true => rw [hcurrent hidle, buildStream, hidle]
  | false =>
      rw [buildStream, hidle]
      exact build_of_not_idle s.config.noise _ _ s.program

/-- The cached stream equals a rebuilt one iff it is current. -/
theorem Tracks.current_iff {s : Session R} {woven : Option Nat} (h : s.Tracks woven) :
    (∀ stream, s.stream = some stream → stream = s.buildStream) ↔ s.Current woven := by
  constructor
  · intro hkept hidle
    cases woven with
    | none => rfl
    | some size =>
        have hbuild := hkept _ h.stream
        rw [buildStream, hidle] at hbuild
        exact build_injective s.config.noise hbuild
  · intro hcurrent stream hstream
    have hsame := h.getD_stream_of_current hcurrent
    rwa [hstream] at hsame

/-- With a current stream, a run equals a fresh run. -/
theorem Tracks.run_eq_of_current {s : Session R} {woven : Option Nat} (h : s.Tracks woven)
    (hcurrent : s.Current woven) (host : Host R) :
    (s.run host).2 = runProgram s.program s.config host := by
  cases haccepts : s.accepts with
  | false =>
      rcases run_of_refused haccepts with ⟨e, hrefused⟩
      rw [(hrefused host).1, (hrefused host).2]
  | true =>
      rcases checked_of_accepts haccepts with ⟨hconfig, hprogram⟩
      have hstream := h.getD_stream_of_current hcurrent
      have hstart : ∃ strand rest, s.buildStream = strand :: rest ∧ strand.op.isResetAll = true :=
        ⟨⟨.resetAll, 0⟩, _, rfl, rfl⟩
      rw [run_of_checked hconfig hprogram, runProgram_of_checked hconfig hprogram, hstream]
      refine runStream_outcome_eq ?_ ?_ hstart host
      · rfl
      · exact Config.checked_of_validate hconfig

/-- Fresh runs on two hosts fail alike or agree up to the order of records. -/
theorem runProgram_reordered (s : Session R) {host host' : Host R}
    (hcpu : host.resolve s.config.backend ≠ .gpu) (hcpu' : host'.resolve s.config.backend ≠ .gpu) :
    (∃ e, (runProgram s.program s.config host).result = .error e ∧
      (runProgram s.program s.config host').result = .error e) ∨
    ∃ results results', (runProgram s.program s.config host).result = .ok results ∧
      (runProgram s.program s.config host').result = .ok results' ∧
      results.Reordered (fun r =>
        (Layout.ofCircuit s.config.qubits s.config.qubitsPerWorkgroup).workgroups = 1 ∨
          (r.dropped = 0 ∧ reportCount s.buildStream.ops < 32)) results' := by
  -- Refusal and planning look at the session only, never at the host.
  cases haccepts : s.accepts with
  | false =>
      rcases run_of_refused haccepts with ⟨e, hrefused⟩
      refine Or.inl ⟨e, ?_, ?_⟩
      · rw [(hrefused host).2]
      · rw [(hrefused host').2]
  | true =>
      rcases checked_of_accepts haccepts with ⟨hconfig, hprogram⟩
      cases hplan : Plan.make s.config s.buildStream.length with
      | error e =>
          have hrefused : ∀ host, (runProgram s.program s.config host).result = .error e := by
            intro host
            have hmake : Plan.make s.config (Stream.build s.program s.config.noise
                s.config.idle.isSome s.config.qubits).length = .error e := hplan
            rw [runProgram_of_checked hconfig hprogram, runStream]
            dsimp only
            rw [hmake]
          exact Or.inl ⟨e, hrefused host, hrefused host'⟩
      | ok plan =>
          exact Or.inr (Runs.exists_reordered ⟨hconfig, hprogram, ⟨plan, hplan⟩, hcpu⟩
            ⟨hconfig, hprogram, ⟨plan, hplan⟩, hcpu'⟩)

/-! ## Stale streams -/

end Session

section Verdict

variable {R : Type} {n : Nat}

/-- Without a restart a failed verdict is final. -/
theorem verdictFrom_of_failed {ops : List (Op R)} (hreset : ∀ op ∈ ops, op.isResetAll = false)
    (opIdx : Nat) {v : StatusCode × Nat} (hv : v.1 ≠ .ok) : verdictFrom n ops opIdx v = v := by
  induction ops generalizing opIdx with
  | nil => rfl
  | cons op rest ih =>
      rw [List.forall_mem_cons] at hreset
      rw [verdictFrom, verdictAfter_of_failed n hreset.1 hv]
      exact ih hreset.2 (opIdx + 1)

/-- An operation on a qubit outside the circuit fails the shot. -/
theorem verdictFrom_ne_ok {ops : List (Op R)} (hreset : ∀ op ∈ ops, op.isResetAll = false)
    (hbad : ∃ op ∈ ops, validQubits n op.qubits = false) (opIdx : Nat) (v : StatusCode × Nat) :
    (verdictFrom n ops opIdx v).1 ≠ .ok := by
  induction ops generalizing opIdx v with
  | nil =>
      rcases hbad with ⟨op, hop, _⟩
      cases hop
  | cons op rest ih =>
      rw [List.forall_mem_cons] at hreset
      rcases hbad with ⟨bad, hmem, hinvalid⟩
      rcases List.mem_cons.1 hmem with rfl | hrest
      · have hfailed : (verdictAfter n v bad opIdx).1 ≠ .ok := by
          by_cases hv : v.1 = .ok
          · rw [verdictAfter_of_ok n hreset.1 hv]
            simp only [hinvalid, Bool.not_false, if_true]
            split <;> exact nofun
          · rw [verdictAfter_of_failed n hreset.1 hv]
            exact hv
        rw [verdictFrom, verdictFrom_of_failed hreset.2 _ hfailed]
        exact hfailed
      · exact ih hreset.2 ⟨bad, hrest, hinvalid⟩ (opIdx + 1) _

end Verdict

theorem isOk_decode {code : StatusCode} (h : code ≠ .ok) (statusOp : Nat) (opcodes : List UInt32)
    (origins : List Nat) : (ShotStatus.decode code statusOp opcodes origins).isOk = false := by
  cases code with
  | ok => exact absurd rfl h
  | _ => rfl

/-- A stream built with idle noise for a larger circuit fails every shot. -/
theorem isOk_status_build_of_larger (program : List (Op R)) (noise : Option (NoiseModel R))
    {qubits size : Nat} (h : qubits < size) :
    ((Stream.build program noise true size).status qubits).isOk = false := by
  rcases exists_ops_build noise program size with ⟨first, report, hreport, hops⟩
  apply isOk_decode
  rw [hops, verdictFrom_append]
  -- The stream ends with a point of decay for each qubit of the larger circuit.
  apply verdictFrom_ne_ok
  · intro op hop
    rcases List.mem_append.1 hop with hidentity | hlast
    · rcases List.mem_map.1 hidentity with ⟨q, _, rfl⟩
      rfl
    · rw [List.mem_singleton.1 hlast]
      simp [Op.isResetAll, hreport]
  · refine ⟨.identity qubits, List.mem_append_left _ (List.mem_map_of_mem (List.mem_range.2 h)), ?_⟩
    simp [Op.identity, Op.phase1, Op.bare, Op.qubits, Opcode.arity, validQubits]

namespace Session

/-- A stream whose verdict is a failure gives no successful run. -/
theorem not_success_of_status {s : Session R} (hshots : 0 < s.config.shots) {stream : Stream R}
    (hbad : (stream.status s.config.qubits).isOk = false) {host : Host R}
    (hcpu : host.resolve s.config.backend ≠ .gpu) {results : RunResults R}
    (hresults : (s.runStream stream host).2.result = .ok results) : results.success = false := by
  cases hplan : Plan.make s.config stream.length with
  | error e =>
      rw [runStream, hplan] at hresults
      cases hresults
  | ok plan =>
      rcases runStream_status hplan hcpu with ⟨found, hfound, _, _, hsuccess⟩
      obtain rfl : found = results := Except.ok.inj (hfound.symm.trans hresults)
      rw [hsuccess hshots, hbad]

/-- No run succeeds on a stream cached for a larger circuit. -/
theorem Tracks.not_success_of_larger {s : Session R} {woven : Option Nat} (h : s.Tracks woven)
    (hidle : s.config.idle.isSome = true) (hlarger : s.config.qubits < woven.getD s.config.qubits)
    {host : Host R} (hcpu : host.resolve s.config.backend ≠ .gpu) {results : RunResults R}
    (hresults : (s.run host).2.result = .ok results) : results.success = false := by
  cases haccepts : s.accepts with
  | false =>
      rcases run_of_refused haccepts with ⟨e, hrefused⟩
      rw [(hrefused host).1] at hresults
      cases hresults
  | true =>
      rcases checked_of_accepts haccepts with ⟨hconfig, hprogram⟩
      rw [run_of_checked hconfig hprogram, h.getD_stream, hidle] at hresults
      have hshots := (Config.checked_of_validate hconfig).shots_pos
      refine not_success_of_status ?_ ?_ ?_ hresults
      · exact hshots
      · exact isOk_status_build_of_larger s.program s.config.noise hlarger
      · exact hcpu

end Session

/-! ## Every history -/

/-- After any history, the cached stream equals a rebuilt one iff there is no idle noise or the
circuit has the width the stream was woven for. Every run then equals a fresh run on the same host.
On hosts with different schedules the two fail alike, or differ only in the records of shots on
several workgroups that dropped records or may have wrapped their cursor. If the stream was woven
for a larger circuit, no run succeeds. -/
theorem runs_match_fresh_runs_of_current (config : Config Float32)
    (history : List (Host Float32 × Session.Command Float32)) :
    let s := (Session.new config).after history
    let size := ((Session.new config).woven none history).getD s.config.qubits
    let current := s.config.idle.isSome = true → size = s.config.qubits
    ((∀ stream, s.stream = some stream → stream = s.buildStream) ↔ current) ∧
      (current → ∀ host, (s.run host).2 = runProgram s.program s.config host) ∧
      (current → ∀ host host' : Host Float32, host.resolve s.config.backend ≠ .gpu →
        host'.resolve s.config.backend ≠ .gpu →
        (∃ e, (s.run host).2.result = .error e ∧
          (runProgram s.program s.config host').result = .error e) ∨
        ∃ results results', (s.run host).2.result = .ok results ∧
          (runProgram s.program s.config host').result = .ok results' ∧
          results.Reordered (fun r =>
            (Layout.ofCircuit s.config.qubits s.config.qubitsPerWorkgroup).workgroups = 1 ∨
              (r.dropped = 0 ∧ reportCount s.buildStream.ops < 32)) results') ∧
      (s.config.idle.isSome = true → s.config.qubits < size → ∀ host results,
        host.resolve s.config.backend ≠ .gpu → (s.run host).2.result = .ok results →
          results.success = false) := by
  intro s size current
  have htracks : s.Tracks ((Session.new config).woven none history) :=
    (Session.tracks_new config).after history
  refine ⟨htracks.current_iff, htracks.run_eq_of_current, ?_, ?_⟩
  · intro hcurrent host host' hcpu hcpu'
    rw [htracks.run_eq_of_current hcurrent host]
    exact s.runProgram_reordered hcpu hcpu'
  · intro hidle hlarger host results hcpu
    exact htracks.not_success_of_larger hidle hlarger hcpu

def idleCircuit (qubits : Nat) : Config Float32 :=
  { Config.standard with qubits := qubits, idle := some (.ofTimes 1 1 1) }

def flip : List (Op Float32) := [.x 0]

def resized : Session Float32 :=
  (Session.new (idleCircuit 2)).after
    [(.empty, .setProgram flip), (.empty, .run), (.empty, .setConfig (idleCircuit 1))]

/-- The session `resized` has a stream cached for two qubits. -/
theorem resized_tracks : resized.program = flip ∧ resized.Tracks (some 2) := by
  have hvalid : (idleCircuit 2).validate = .ok () := rfl
  have haccepts : ((Session.new (idleCircuit 2)).setProgram flip).accepts = true :=
    Session.accepts_of_checked hvalid rfl
  rcases Session.run_of_accepts haccepts .empty with ⟨hconfig, hprogram, _⟩
  have hsame : Session.sameNoise (idleCircuit 1)
      (((Session.new (idleCircuit 2)).setProgram flip).run .empty).1.config = true := by
    rw [hconfig]
    rfl
  have hbefore : ((Session.new (idleCircuit 2)).setProgram flip).Tracks none :=
    (Session.tracks_new (idleCircuit 2)).perform .empty (.setProgram flip)
  have hran := hbefore.run .empty
  rw [if_pos haccepts] at hran
  have hresized := hran.setConfig (idleCircuit 1)
  rw [if_pos hsame] at hresized
  exact ⟨hprogram, hresized⟩

/-- Shrinking the circuit makes a run fail where a fresh run succeeds. -/
theorem resized_run_fails :
    (∃ results, (resized.run .empty).2.result = .ok results ∧ results.success = false) ∧
      ∃ results, (runProgram resized.program resized.config .empty).result = .ok results ∧
        results.success = true := by
  have hconfig : resized.config = idleCircuit 1 := rfl
  rcases resized_tracks with ⟨hprogram, htracks⟩
  have hvalid : (idleCircuit 1).validate = .ok () := rfl
  have hvalidProgram : (idleCircuit 1).validateProgram flip = .ok () := rfl
  have hcpu : (Host.empty : Host Float32).resolve (idleCircuit 1).backend ≠ .gpu := by decide
  refine ⟨?_, ?_⟩
  · -- The session still runs the stream for two qubits.
    have hstream : resized.stream.getD resized.buildStream = Stream.build flip none true 2 := by
      rw [htracks.getD_stream, hconfig, hprogram]
      rfl
    have hrun := Session.run_of_checked (s := resized) (hconfig ▸ hvalid)
      (by rw [hconfig, hprogram]; exact hvalidProgram) .empty
    have hplan : Plan.make (idleCircuit 1) (Stream.build flip none true 2).length = .ok _ := rfl
    rw [hstream] at hrun
    rcases runStream_status (s := { resized with stream := some (Stream.build flip none true 2) })
      hplan hcpu with ⟨results, hresults, _⟩
    rw [← hrun] at hresults
    exact ⟨results, hresults, htracks.not_success_of_larger rfl (by decide) hcpu hresults⟩
  · -- A fresh run weaves one for a single qubit.
    have hplan : Plan.make (idleCircuit 1) (Stream.build flip none true 1).length = .ok _ := rfl
    rw [hconfig, hprogram, Session.runProgram_of_checked hvalid hvalidProgram]
    rcases runStream_status (s :=
      ⟨idleCircuit 1, flip, some (Stream.build flip none true 1), .fresh⟩)
      hplan hcpu with ⟨results, hresults, _, _, hsuccess⟩
    exact ⟨results, hresults, hsuccess (Nat.lt_succ_self 0)⟩

end ShotSim
