import Mathlib.Data.List.Basic
import ShotSim.Proofs.Weave

/-!
# Shot status — decided by the program alone

A shot fails for one reason only: an operation that no shot can carry out.  Which operation that is
can be read off the submitted program, before anything is drawn or measured.

* `Pending` — an operation that cannot be carried out and that no later reset of the whole shot
  excuses;
* `Tells` — a verdict on the woven stream speaks of the first pending operation of the program;
* `tells_weaveOp`, `tells_build` — the verdict keeps doing so, operation by operation;
* `shot_status_follows_program` — what every shot of a run reports.
-/

namespace ShotSim

section Pending

variable {R : Type}

/-- Operation `i` is unsupported and no restart follows it. -/
def Pending (program : List (Op R)) (i : Nat) : Prop :=
  program[i]?.any Op.isUnsupported = true ∧ ∀ op ∈ program.drop (i + 1), op.isResetAll = false

instance (program : List (Op R)) (i : Nat) : Decidable (Pending program i) :=
  inferInstanceAs (Decidable (_ ∧ _))

def FirstPending (program : List (Op R)) (i : Nat) : Prop :=
  Pending program i ∧ ∀ j < i, ¬Pending program j

instance (program : List (Op R)) (i : Nat) : Decidable (FirstPending program i) :=
  inferInstanceAs (Decidable (_ ∧ _))

theorem Pending.lt_length {program : List (Op R)} {i : Nat} (h : Pending program i) :
    i < program.length := by
  by_contra hge
  have hnone : program[i]? = none := List.getElem?_eq_none (Nat.le_of_not_lt hge)
  rw [Pending, hnone] at h
  cases h.1

/-- Effect of one more operation on `Pending`. -/
theorem pending_append_singleton {program : List (Op R)} {op : Op R} {i : Nat} :
    Pending (program ++ [op]) i ↔
      op.isResetAll = false ∧ Pending program i ∨ i = program.length ∧ op.isUnsupported = true := by
  rcases Nat.lt_trichotomy i program.length with hlt | heq | hgt
  · -- An earlier operation stays pending unless the new one is a reset.
    have hdrop : (program ++ [op]).drop (i + 1) = program.drop (i + 1) ++ [op] :=
      List.drop_append_of_le_length hlt
    rw [Pending, Pending, List.getElem?_append_left hlt, hdrop]
    constructor
    · rintro ⟨hhere, hlater⟩
      refine Or.inl ⟨hlater op (by simp), hhere, ?_⟩
      intro other hother
      exact hlater other (List.mem_append_left _ hother)
    · rintro (⟨hop, hhere, hlater⟩ | ⟨hlast, _⟩)
      · refine ⟨hhere, ?_⟩
        intro other hother
        rcases List.mem_append.1 hother with hmem | hmem
        · exact hlater other hmem
        · rcases List.mem_singleton.1 hmem with rfl
          exact hop
      · exact absurd hlast (Nat.ne_of_lt hlt)
  · subst heq
    simp [Pending]
  · have hout : ¬Pending (program ++ [op]) i := by
      intro h
      have hlt := h.lt_length
      rw [List.length_append, List.length_singleton] at hlt
      omega
    have hout' : ¬Pending program i := fun h => Nat.lt_asymm hgt h.lt_length
    constructor
    · exact fun h => absurd h hout
    · rintro (⟨_, h⟩ | ⟨h, _⟩)
      · exact absurd h hout'
      · omega

theorem FirstPending.append_singleton {program : List (Op R)} {i : Nat} (h : FirstPending program i)
    {op : Op R} (hop : op.isResetAll = false) : FirstPending (program ++ [op]) i := by
  refine ⟨pending_append_singleton.2 (Or.inl ⟨hop, h.1⟩), ?_⟩
  intro j hj hpending
  rcases pending_append_singleton.1 hpending with ⟨_, hearlier⟩ | ⟨hlast, _⟩
  · exact h.2 j hj hearlier
  · have hlt := h.1.lt_length
    omega

/-- The first pending operation is unique. -/
theorem FirstPending.unique {program : List (Op R)} {i j : Nat} (hi : FirstPending program i)
    (hj : FirstPending program j) : i = j := by
  rcases Nat.lt_trichotomy i j with hlt | heq | hgt
  · exact absurd hi.1 (hj.2 i hlt)
  · exact heq
  · exact absurd hj.1 (hi.2 j hgt)

/-- The verdict names the first pending operation of the program by its index in the stream, or is
ok if there is none. -/
def Tells (program : List (Op R)) (stream : List (Strand R)) (verdict : StatusCode × Nat) : Prop :=
  (verdict.1 = .ok ∧ ∀ i, ¬Pending program i) ∨
    ∃ i op place, FirstPending program i ∧ program[i]? = some op ∧
      stream[place]? = some ⟨op, i⟩ ∧ verdict = (.unsupportedOp, place)

/-- `Tells` is preserved when the stream is extended. -/
theorem Tells.append {program : List (Op R)} {stream : List (Strand R)} {verdict : StatusCode × Nat}
    (h : Tells program stream verdict) (more : List (Strand R)) :
    Tells program (stream ++ more) verdict := by
  rcases h with hok | ⟨i, op, place, hfirst, hop, hplace, hverdict⟩
  · exact Or.inl hok
  · have hbound : place < stream.length := (List.getElem?_eq_some_iff.1 hplace).1
    refine Or.inr ⟨i, op, place, hfirst, hop, ?_, hverdict⟩
    rw [List.getElem?_append_left hbound, hplace]

theorem not_isResetAll_of_isUnsupported {op : Op R} (h : op.isUnsupported = true) :
    op.isResetAll = false := by
  cases hreset : op.isResetAll with
  | false => rfl
  | true =>
      simp only [Op.isResetAll, Bool.and_eq_true, decide_eq_true_eq] at hreset
      simp [Op.isUnsupported, hreset.1, Opcode.isKnown] at h

end Pending

/-! ## The verdict on a woven program -/

variable {R : Type} [Scalar R]

section Weave

variable {noise : Option (NoiseModel R)} (hnoise : ∀ m, noise = some m → m.validate = .ok ())
  (idle : Bool) {n : Nat}

include hnoise

/-- The expansion of one operation preserves `Tells`. -/
theorem tells_weaveOp {program : List (Op R)} {stream : List (Strand R)}
    {verdict : StatusCode × Nat} (h : Tells program stream verdict) {op : Op R}
    (hop : op.Admitted n) :
    Tells (program ++ [op]) (stream ++ (weaveOp noise idle n op).map (⟨·, program.length⟩))
      (verdictFrom n (weaveOp noise idle n op) stream.length verdict) := by
  cases hreset : op.isResetAll with
  | true =>
      -- The shot restarts and nothing is pending any more.
      rw [weaveOp_of_special noise idle n (Or.inl hreset), verdictFrom, verdictFrom,
        verdictAfter_resetAll n verdict hreset]
      refine Or.inl ⟨rfl, ?_⟩
      intro i hpending
      rcases pending_append_singleton.1 hpending with ⟨hnot, _⟩ | ⟨_, hunsupported⟩
      · rw [hreset] at hnot
        cases hnot
      · rw [not_isResetAll_of_isUnsupported hunsupported] at hreset
        cases hreset
  | false =>
      cases hunsupported : op.isUnsupported with
      | true =>
          rw [weaveOp_of_special noise idle n (Or.inr hunsupported), verdictFrom, verdictFrom]
          rcases h with ⟨hok, hnone⟩ | ⟨i, bad, place, hfirst, hbad, hplace, hverdict⟩
          · -- It is the first one.
            have hrefused : (!op.code.isKnown || op.code = .injected) = true := hunsupported
            refine Or.inr ⟨program.length, op, stream.length, ⟨?_, ?_⟩, ?_, ?_, ?_⟩
            · exact pending_append_singleton.2 (Or.inr ⟨rfl, hunsupported⟩)
            · intro j hj hpending
              rcases pending_append_singleton.1 hpending with ⟨_, hearlier⟩ | ⟨hlast, _⟩
              · exact hnone j hearlier
              · exact absurd hlast (Nat.ne_of_lt hj)
            · simp
            · simp
            · rw [verdictAfter_of_ok n hreset hok, if_pos hrefused]
          · -- An earlier one stays.
            have hfailed : verdict.1 ≠ .ok := by simp [hverdict]
            rw [verdictAfter_of_failed n hreset hfailed]
            have hbound := hfirst.1.lt_length
            refine Tells.append (Or.inr ⟨i, bad, place, hfirst.append_singleton hreset, ?_, hplace,
              hverdict⟩) _
            rw [List.getElem?_append_left hbound, hbad]
      | false =>
          have hharmless := harmless_weaveOp hnoise idle (hop.harmless hreset hunsupported)
          rw [verdictFrom_of_harmless hharmless]
          apply Tells.append
          rcases h with ⟨hok, hnone⟩ | ⟨i, bad, place, hfirst, hbad, hplace, hverdict⟩
          · refine Or.inl ⟨hok, ?_⟩
            intro i hpending
            rcases pending_append_singleton.1 hpending with ⟨_, hearlier⟩ | ⟨_, hnow⟩
            · exact hnone i hearlier
            · rw [hunsupported] at hnow
              cases hnow
          · refine Or.inr ⟨i, bad, place, hfirst.append_singleton hreset, ?_, hplace, hverdict⟩
            rw [List.getElem?_append_left hfirst.1.lt_length, hbad]

/-- The expansion of a program preserves `Tells`. -/
theorem tells_weaveFrom {rest program : List (Op R)} {stream : List (Strand R)}
    {verdict : StatusCode × Nat} (h : Tells program stream verdict)
    (hrest : ∀ op ∈ rest, op.Admitted n) :
    Tells (program ++ rest) (stream ++ weaveFrom noise idle n rest program.length)
      (verdictFrom n ((weaveFrom noise idle n rest program.length).map (·.op)) stream.length
        verdict) := by
  induction rest generalizing program stream verdict with
  | nil => simpa [weaveFrom, verdictFrom] using h
  | cons op rest ih =>
      have hone := tells_weaveOp hnoise idle h (hrest op List.mem_cons_self)
      have hmore := ih hone (fun other hother => hrest other (List.mem_cons_of_mem _ hother))
      have hops : ((weaveOp noise idle n op).map (fun o => (⟨o, program.length⟩ : Strand R))).map
          (·.op) = weaveOp noise idle n op := by
        simp [Function.comp_def]
      rw [weaveFrom, List.map_append, verdictFrom_append, hops]
      simpa [List.append_assoc] using hmore

omit hnoise in
/-- A stream is a restart, the woven program and an optional harmless report. -/
theorem exists_report (program : List (Op R)) :
    ∃ report : List (Strand R), (∀ strand ∈ report, strand.op.Harmless n) ∧
      Stream.build program noise idle n =
        [⟨.resetAll, 0⟩] ++ weaveFrom noise idle n program 0 ++ report := by
  have heveryZ : (Op.mEveryZ : Op R).Harmless n := ⟨rfl, rfl, rfl⟩
  have hwoven : ∀ op ∈ weaveOp none idle n (Op.mEveryZ : Op R), op.Harmless n :=
    harmless_weaveOp (fun _ h => by cases h) idle heveryZ
  unfold Stream.build
  dsimp only
  split
  · exact ⟨[], by simp, rfl⟩
  · refine ⟨_, ?_, rfl⟩
    intro strand hstrand
    rcases List.mem_map.1 hstrand with ⟨before, hbefore, rfl⟩
    simp only [weave, weaveFrom, List.append_nil] at hbefore
    rcases List.mem_map.1 hbefore with ⟨op, hop, rfl⟩
    exact hwoven op hop

/-- The verdict of a built stream satisfies `Tells`. -/
theorem tells_build {program : List (Op R)} (hprogram : ∀ op ∈ program, op.Admitted n) :
    Tells program (Stream.build program noise idle n)
      (verdictFrom n (Stream.build program noise idle n).ops 0 (.ok, 0)) := by
  have hstart : Tells ([] : List (Op R)) [(⟨.resetAll, 0⟩ : Strand R)] (.ok, 0) := by
    refine Or.inl ⟨rfl, ?_⟩
    intro i h
    exact absurd h.lt_length (Nat.not_lt_zero i)
  have hbody := tells_weaveFrom hnoise idle hstart hprogram
  rcases exists_report idle program with ⟨report, hreport, hbuild⟩
  have hquiet : ∀ op ∈ report.map (·.op), op.Harmless n := by
    intro op hop
    rcases List.mem_map.1 hop with ⟨strand, hstrand, rfl⟩
    exact hreport strand hstrand
  have hfirst : verdictFrom n [(.resetAll : Op R)] 0 (.ok, 0) = (.ok, 0) := rfl
  rw [hbuild, Stream.ops, List.map_append, List.map_append, verdictFrom_append, verdictFrom_append,
    verdictFrom_of_harmless hquiet, List.map_singleton, hfirst]
  exact hbody.append report

end Weave

/-! ## Reported status -/

/-- The status of every shot of a stream on a circuit of the given size. -/
def Stream.status {R : Type} (stream : Stream R) (qubits : Nat) : ShotStatus :=
  let verdict := verdictFrom qubits stream.ops 0 (.ok, 0)
  .decode verdict.1 verdict.2 stream.opcodes stream.origins

omit [Scalar R] in
/-- The status decoded from a verdict with `Tells`. Operations are named by their index as long as
it fits a word. -/
theorem decode_of_tells {program : List (Op R)} {stream : Stream R} {verdict : StatusCode × Nat}
    (h : Tells program stream verdict) :
    (∀ i, ¬Pending program i) ∧
        ShotStatus.decode verdict.1 verdict.2 stream.opcodes stream.origins = .ok ∨
      ∃ i op named, FirstPending program i ∧ program[i]? = some op ∧ (i < UInt32.size → named = i) ∧
        ShotStatus.decode verdict.1 verdict.2 stream.opcodes stream.origins =
          .unsupportedOperation named op.code.toWord := by
  rcases h with ⟨hok, hnone⟩ | ⟨i, op, place, hfirst, hop, hplace, rfl⟩
  · exact Or.inl ⟨hnone, by rw [hok]; rfl⟩
  · right
    have horigin : stream.origins[place]? = some i := by
      rw [Stream.origins, List.getElem?_map, hplace]
      rfl
    have hopcode : stream.opcodes[place]? = some op.code.toWord := by
      rw [Stream.opcodes, List.getElem?_map, hplace]
      rfl
    refine ⟨i, op, if i < UInt32.size then i else place, hfirst, hop, fun hi => if_pos hi, ?_⟩
    simp only [ShotStatus.decode, horigin, hopcode, Option.getD_some]

omit [Scalar R] in
/-- If all shots have one status, the run is successful iff that status is ok. -/
theorem all_isOk_eq {shots : List (ShotResult R)} {status : ShotStatus} (hpos : 0 < shots.length)
    (h : ∀ shot ∈ shots, shot.status = status) : shots.all (·.status.isOk) = status.isOk := by
  cases hstatus : status.isOk with
  | true =>
      rw [List.all_eq_true]
      intro shot hshot
      rw [h shot hshot, hstatus]
  | false =>
      rw [List.all_eq_false]
      refine ⟨_, List.getElem_mem hpos, ?_⟩
      rw [h _ (List.getElem_mem hpos), hstatus]
      exact Bool.false_ne_true

/-- The status of every shot is determined by the operations of the stream. -/
theorem runStream_status {s : Session R} {stream : Stream R} {plan : Plan} {host : Host R}
    (hplan : Plan.make s.config stream.length = .ok plan)
    (hcpu : host.resolve s.config.backend ≠ .gpu) :
    ∃ results, (s.runStream stream host).2.result = .ok results ∧
      results.shots.length = s.config.shots ∧
      (∀ shot ∈ results.shots, shot.status = stream.status s.config.qubits) ∧
      (0 < s.config.shots → results.success = (stream.status s.config.qubits).isOk) := by
  obtain ⟨hqubits, _, _, _, hshots, hops, _, hpos, hbatches⟩ := Plan.make_eq_ok hplan
  obtain ⟨results, hresult, hlist, hsuccess⟩ := Session.runStream_result hplan hcpu
  have hlength : results.shots.length = s.config.shots := by
    rw [hlist, Session.length_batchesResults, Plan.sum_batchRanges hpos hbatches, hshots]
    intro range hrange
    rw [Session.size_lanes_readyMachine]
    exact Plan.le_of_mem_batchesFrom hrange
  have hstatus : ∀ shot ∈ results.shots, shot.status = stream.status s.config.qubits := by
    rw [hlist, ← hqubits]
    apply Session.forall_mem_batchesResults
    intro lane range shotIdx hlane
    have hcount : plan.ops = stream.ops.length := by rw [hops, Stream.ops, List.length_map]
    have hdrop : ((s.readyMachine stream plan host.pool).batchJob
        (Session.batchOf s.config plan range)).ops.toList.drop lane.shot.nextOp = stream.ops := by
      rw [hlane]
      rfl
    -- A lane that starts clean goes through the whole stream.
    have hverdict := Lane.verdict_after shotIdx hdrop
    rw [← hcount, hlane] at hverdict
    exact congrArg (fun v => ShotStatus.decode v.1 v.2 stream.opcodes stream.origins) hverdict
  refine ⟨results, hresult, hlength, hstatus, ?_⟩
  intro hany
  rw [hsuccess]
  exact all_isOk_eq (hlength ▸ hany) hstatus

/-- The status of every shot is determined by the submitted program. Without a pending operation it
is ok; otherwise every shot names the first pending operation by index and opcode. No shot reports
an invalid qubit, with or without noise. -/
theorem shot_status_follows_program (program : List (Op R)) (config : Config R) (host : Host R)
    (hconfig : config.validate = .ok ()) (hprogram : config.validateProgram program = .ok ())
    {plan : Plan}
    (hplan : Plan.make config
      (Stream.build program config.noise config.idle.isSome config.qubits).length = .ok plan)
    (hcpu : host.resolve config.backend ≠ .gpu) :
    ∃ results, (runProgram program config host).result = .ok results ∧
      results.shots.length = config.shots ∧
      (∀ shot ∈ results.shots,
        ((∀ i, ¬Pending program i) → shot.status = .ok) ∧
        (∀ i op, FirstPending program i → program[i]? = some op →
          ∃ named, (i < UInt32.size → named = i) ∧
            shot.status = .unsupportedOperation named op.code.toWord) ∧
        ∀ op, shot.status ≠ .invalidQubit op) ∧
      (results.success = true ↔ ∀ i, ¬Pending program i) := by
  have hchecked := Config.checked_of_validate hconfig
  have htells := tells_build hchecked.noise config.idle.isSome
    (Config.admitted_of_validateProgram hprogram)
  obtain ⟨results, hresult, hlength, hstatus, hsuccess⟩ : ∃ results,
      (runProgram program config host).result = .ok results ∧ _ := by
    rw [Session.runProgram_of_checked hconfig hprogram host]
    exact runStream_status hplan hcpu
  have hsuccess := hsuccess hchecked.shots_pos
  refine ⟨results, hresult, hlength, ?_⟩
  -- All shots have one status: either nothing is pending, or it names the first that is.
  rcases decode_of_tells htells with ⟨hnone, hok⟩ | ⟨i, op, named, hfirst, hop, hnamed, hbad⟩
  · have hall : ∀ shot ∈ results.shots, shot.status = .ok :=
      fun shot hshot => (hstatus shot hshot).trans hok
    have hgood : results.success = true := hsuccess.trans (congrArg ShotStatus.isOk hok)
    refine ⟨?_, fun _ => hnone, fun _ => hgood⟩
    intro shot hshot
    refine ⟨fun _ => hall shot hshot, ?_, ?_⟩
    · intro i op hfirst
      exact absurd hfirst.1 (hnone i)
    · intro op
      rw [hall shot hshot]
      exact nofun
  · have hall : ∀ shot ∈ results.shots, shot.status = .unsupportedOperation named op.code.toWord :=
      fun shot hshot => (hstatus shot hshot).trans hbad
    have hfailed : results.success = false := hsuccess.trans (congrArg ShotStatus.isOk hbad)
    refine ⟨?_, ?_, fun hnone => absurd hfirst.1 (hnone i)⟩
    · intro shot hshot
      refine ⟨fun hnone => absurd hfirst.1 (hnone i), ?_, ?_⟩
      · intro j other hother hget
        rw [hother.unique hfirst] at hget ⊢
        rw [hop] at hget
        cases hget
        exact ⟨named, hnamed, hall shot hshot⟩
      · intro op
        rw [hall shot hshot]
        exact nofun
    · intro hgood
      rw [hfailed] at hgood
      cases hgood

def twiceUnsupported : List (Op Float32) :=
  [.injected 0 0 0, .resetAll, .x 0, .bare (.unknown 99) 0 0 0, .injected 0 0 0]

/-- The first of two unsupported operations is named. -/
theorem shot_status_follows_program_twiceUnsupported :
    ∃ results, (runProgram twiceUnsupported
        { Config.standard with shots := 2, idle := some (.ofTimes 1 1 1) } .empty).result =
          .ok results ∧
      results.shots.length = 2 ∧
      ∀ shot ∈ results.shots, shot.status = .unsupportedOperation 3 99 := by
  obtain ⟨results, hresult, hlength, hstatus, _⟩ := shot_status_follows_program twiceUnsupported
    { Config.standard with shots := 2, idle := some (.ofTimes 1 1 1) } .empty rfl rfl rfl
    (by decide)
  refine ⟨results, hresult, hlength, ?_⟩
  intro shot hshot
  rcases (hstatus shot hshot).2.1 3 _ (by decide) rfl with ⟨named, hnamed, hbad⟩
  rw [hnamed (by decide)] at hbad
  exact hbad

end ShotSim
