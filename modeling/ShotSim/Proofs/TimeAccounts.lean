import Mathlib.Data.List.TakeWhile
import ShotSim.Proofs.Ledger
import ShotSim.Proofs.RandomStream

/-!
# Time accounts — the ledger of every shot

A shot does more in a step than move its clock, it may have failed, and it may restart.  Of the
stream, its clock goes through the operations since the last restart, up to the first one that is
refused. Decay comes in just before an operation on the decayed qubit, and nowhere else.

* `liveOps`, `Played` — the operations that a clock goes through, and where decay may come in;
* `Register.balanced_resolve`, `Lane.Accounted.prepare` — one step of a shot;
* `Lane.accounted_after` — a shot of any batch after any number of steps;
* `time_is_accounted_for` — clocks by themselves, in every batch and in the results of every run.
-/

namespace ShotSim

variable {R : Type} [Scalar R]

/-! ## Operations that count -/

section Live

variable {R : Type}

def Op.isRefused (n : Nat) (op : Op R) : Bool := op.isUnsupported || !validQubits n op.qubits

theorem Op.harmless_of_not_refused {n : Nat} {op : Op R} (hreset : op.isResetAll = false)
    (h : op.isRefused n = false) : op.Harmless n := by
  rw [isRefused, Bool.or_eq_false_iff, Bool.not_eq_false'] at h
  exact ⟨hreset, h.1, h.2⟩

/-- The operations since the last restart up to the first rejected one. -/
def liveOps (n : Nat) (ops : List (Op R)) : List (Op R) :=
  (sinceRestart ops).takeWhile fun op => !op.isRefused n

variable {n : Nat} {past : List (Op R)} {op : Op R}

theorem liveOps_of_reset (hreset : op.isResetAll = true) : liveOps n (past ++ [op]) = [] := by
  rw [liveOps, sinceRestart_append_reset past hreset, List.takeWhile_nil]

/-- While nothing was refused, every accepted operation is live. -/
theorem liveOps_of_alive (hreset : op.isResetAll = false)
    (hpast : ∀ other ∈ sinceRestart past, other.isRefused n = false) :
    liveOps n (past ++ [op]) = if op.isRefused n then liveOps n past
      else liveOps n past ++ [op] := by
  have hall : ∀ other ∈ sinceRestart past, (!other.isRefused n) = true := by
    intro other hother
    rw [hpast other hother, Bool.not_false]
  rw [liveOps, liveOps, sinceRestart_append past hreset, List.takeWhile_append_of_pos hall,
    List.takeWhile_eq_self_iff.2 hall, List.takeWhile_cons, List.takeWhile_nil]
  cases op.isRefused n <;> simp

/-- After a refusal no operation is live until a restart. -/
theorem liveOps_of_dead (hreset : op.isResetAll = false)
    (hpast : ¬∀ other ∈ sinceRestart past, other.isRefused n = false) :
    liveOps n (past ++ [op]) = liveOps n past := by
  rw [liveOps, sinceRestart_append past hreset, List.takeWhile_append, if_neg]
  · rfl
  · intro hlength
    have hself := (List.takeWhile_prefix fun op : Op R => !op.isRefused n).eq_of_length hlength
    exact hpast fun other hother => by simpa using List.takeWhile_eq_self_iff.1 hself other hother

/-- A successful shot stays successful iff its operation is not refused. -/
theorem verdictAfter_eq_ok_iff (hreset : op.isResetAll = false)
    {v : StatusCode × Nat} (hv : v.1 = .ok) (opIdx : Nat) :
    (verdictAfter n v op opIdx).1 = .ok ↔ op.isRefused n = false := by
  rw [verdictAfter_of_ok n hreset hv, Op.isRefused, Op.isUnsupported]
  cases hunsupported : (!op.code.isKnown || decide (op.code = .injected)) with
  | true => simp
  | false => cases hvalid : validQubits n op.qubits <;> simp [hv]

/-- The ticks of a sequence of operations. A decay tick may precede an operation that absorbs it, on
its operand. -/
inductive Played : List (Op R) → List (Tick R) → Prop
  | none : Played [] []
  | op {ops : List (Op R)} {ticks : List (Tick R)} (op : Op R) :
      Played ops ticks → Played (ops ++ [op]) (ticks ++ [.op op])
  | decay {ops : List (Op R)} {ticks : List (Tick R)} {op : Op R} (h : op.code.takesDecay = true) :
      Played ops ticks → Played (ops ++ [op]) (ticks ++ [.settle op.q1, .op op])

end Live

/-! ## One step -/

namespace Shot

theorem SameClock.refl (s : Shot R) : s.SameClock s := ⟨rfl, fun _ => rfl, fun _ => rfl, rfl⟩

theorem sameClock_collapse (s : Shot R) (q : Nat) (reset : Bool) :
    s.SameClock (s.collapse q reset) := by
  have hset :
      ∀ zero one : R, s.SameClock (s.setQubit q { s.qubit q with zero := zero, one := one }) :=
    fun zero one => ⟨rfl, s.apply_setQubit (·.heat) rfl, s.apply_setQubit (·.idle) rfl, rfl⟩
  exact ⟨rfl, (hset _ _).heat, (hset _ _).idle, rfl⟩

end Shot

/-- A frozen lane keeps its clock. -/
theorem Lane.Frozen.sameClock {lane now : Lane R} (h : lane.Frozen now) :
    lane.shot.SameClock now.shot :=
  ⟨h.elapsed, h.heat, h.idle, h.region⟩

namespace Register

/-- Branch selection keeps the clock. -/
theorem sameClock_select (r : Register R) (job : Job R) (op : Op R) (lost : Bool) :
    r.shot.SameClock (r.select job op lost).shot := by
  have hsame := Shot.SameClock.refl r.shot
  refine select_cases (P := fun r' => r.shot.SameClock r'.shot) r job op lost hsame ?direct
    ?measure ?pauli1 ?pauli2 ?loss
  case direct => exact fun _ => ⟨rfl, fun _ => rfl, fun _ => rfl, rfl⟩
  case measure =>
    intro _
    rw [shot_measure]
    split
    · exact hsame
    · exact r.shot.sameClock_collapse _ _
  case pauli1 =>
    intro _
    unfold Shot.applyPauli1
    dsimp only
    split <;> exact ⟨rfl, fun _ => rfl, fun _ => rfl, rfl⟩
  case pauli2 =>
    intro _
    unfold Shot.applyPauli2
    dsimp only
    split <;> exact ⟨rfl, fun _ => rfl, fun _ => rfl, rfl⟩
  case loss =>
    intro _ _
    unfold Shot.applyLoss
    split
    · have hlost : r.shot.SameClock { r.shot with lost := r.shot.lost ||| 1 <<< op.q1 } :=
        ⟨rfl, fun _ => rfl, fun _ => rfl, rfl⟩
      exact hlost.trans (Shot.sameClock_collapse _ _ _)
    · exact hsame

/-- A resolved operation is one tick, or two if it absorbs the decay of its qubit. -/
theorem balanced_resolve {r : Register Float32} {job : Job Float32}
    (hduration : ∀ code, Scalar.le 0 (job.idle.duration code) = true) {op : Op Float32}
    (hop : op.Harmless job.batch.qubits) (opIdx : Nat) {ops : List (Op Float32)}
    {ticks : List (Tick Float32)} (hplayed : Played ops ticks)
    (h : r.shot.Balanced job.idle.duration job.batch.qubits (ledger job.idle.duration ticks)) :
    ∃ ticks', Played (ops ++ [op]) ticks' ∧
      (r.resolve job op opIdx).shot.Balanced job.idle.duration job.batch.qubits
        (ledger job.idle.duration ticks') := by
  have hsupported : (!op.code.isKnown || op.code = .injected) = false := hop.supported
  have hselect := h.of_sameClock (r.sameClock_select job op (op.qubits.any r.shot.isLost))
  unfold resolve
  rw [if_neg (by simp [hsupported]), if_neg (by simp [hop.valid])]
  dsimp only
  generalize r.select job op (op.qubits.any r.shot.isLost) = chosen at hselect
  have hplain : ∃ ticks', Played (ops ++ [op]) ticks' ∧
      (chosen.shot.accrue op job.idle job.batch.qubits).Balanced job.idle.duration job.batch.qubits
        (ledger job.idle.duration ticks') := by
    refine ⟨ticks ++ [.op op], hplayed.op op, ?_⟩
    rw [ledger_concat]
    exact hselect.accrue hduration op
  split
  · rename_i htakes
    unfold Shot.injectDecay
    dsimp only
    split
    · -- The qubit is due: it starts to wait anew before the operation takes its time.
      refine ⟨ticks ++ [.settle op.q1, .op op], hplayed.decay (Bool.and_eq_true_iff.1 htakes).2, ?_⟩
      have hsettled := hselect.settle job.idle op.q1
      rw [← ledger_concat] at hsettled
      rw [List.append_cons, ledger_concat]
      refine Shot.Balanced.accrue hduration (hsettled.of_sameClock ?_) op
      exact ⟨rfl, fun _ => rfl, fun _ => rfl, rfl⟩
    · exact hplain
  · exact hplain

end Register

/-- State of a shot after `past`: whether an operation was rejected, and a ledger that balances its
clock. -/
structure Lane.Accounted (lane : Lane Float32) (job : Job Float32) (past : List (Op Float32)) :
    Prop where
  status : lane.shot.status = .ok ↔
    ∀ op ∈ sinceRestart past, op.isRefused job.batch.qubits = false
  balanced : ∃ ticks, Played (liveOps job.batch.qubits past) ticks ∧
    lane.shot.Balanced job.idle.duration job.batch.qubits (ledger job.idle.duration ticks)

namespace Lane

section Prepare

variable {lane : Lane Float32} {job : Job Float32} {past : List (Op Float32)} {op : Op Float32}
  (h : lane.Accounted job past) (hop : job.ops[lane.shot.nextOp]? = some op) (shotIdx : Nat)

include hop

/-- The status after a step is that of `verdictAfter`. -/
theorem status_prepare : (lane.prepare job shotIdx).shot.status =
    (verdictAfter job.batch.qubits lane.shot.verdict op lane.shot.nextOp).1 :=
  congrArg Prod.fst (verdict_prepare shotIdx hop)

/-- A restart accounts for an empty past. -/
theorem accounted_of_reset (hreset : op.isResetAll = true) :
    (lane.prepare job shotIdx).Accounted job (past ++ [op]) := by
  refine ⟨?_, [], ?_, ?_⟩
  · rw [status_prepare hop, verdictAfter_resetAll _ _ hreset, sinceRestart_append_reset past hreset]
    simp
  · rw [liveOps_of_reset hreset]
    exact .none
  · rw [prepare_of_resetAll hop hreset]
    exact (lane.shot.balanced_restart job.idle.duration job.batch.qubits job.batch
      shotIdx).of_sameClock
      ⟨rfl, fun _ => rfl, fun _ => rfl, rfl⟩

include h

/-- `Accounted` is preserved by a step of a failed shot. -/
theorem Accounted.of_failed (hreset : op.isResetAll = false) (hstatus : lane.shot.status ≠ .ok) :
    (lane.prepare job shotIdx).Accounted job (past ++ [op]) := by
  have hdead := mt h.status.2 hstatus
  have hfailed : (lane.prepare job shotIdx).shot.status ≠ .ok := by
    rw [status_prepare hop, verdictAfter_of_failed _ hreset hstatus]
    exact hstatus
  obtain ⟨ticks, hplayed, hbalanced⟩ := h.balanced
  refine ⟨⟨fun hok => absurd hok hfailed, fun hall => ?_⟩, ticks, ?_, ?_⟩
  · rw [sinceRestart_append past hreset, List.forall_mem_append] at hall
    exact absurd hall.1 hdead
  · rw [liveOps_of_dead hreset hdead]
    exact hplayed
  · exact hbalanced.of_sameClock (prepare_of_failed hop hreset hfailed).1.sameClock

/-- `Accounted` is preserved by a step of a successful shot. -/
theorem Accounted.of_ok (hduration : ∀ code, Scalar.le 0 (job.idle.duration code) = true)
    (hreset : op.isResetAll = false) (hok : lane.shot.status = .ok) :
    (lane.prepare job shotIdx).Accounted job (past ++ [op]) := by
  have hpast := h.status.1 hok
  have hstatus : (lane.prepare job shotIdx).shot.status = .ok ↔
      op.isRefused job.batch.qubits = false := by
    rw [status_prepare hop]
    exact verdictAfter_eq_ok_iff (v := lane.shot.verdict) hreset hok lane.shot.nextOp
  obtain ⟨ticks, hplayed, hbalanced⟩ := h.balanced
  refine ⟨?_, ?_⟩
  · rw [hstatus, sinceRestart_append past hreset, List.forall_mem_append, List.forall_mem_singleton]
    exact ⟨fun hhere => ⟨hpast, hhere⟩, fun hall => hall.2⟩
  · rw [liveOps_of_alive hreset hpast]
    cases hrefused : op.isRefused job.batch.qubits with
    | true =>
        -- The shot fails here, and its clock stops.
        rw [if_pos rfl]
        have hfailed : (lane.prepare job shotIdx).shot.status ≠ .ok := by simp [hstatus, hrefused]
        exact ⟨ticks, hplayed,
          hbalanced.of_sameClock (prepare_of_failed hop hreset hfailed).1.sameClock⟩
    | false =>
        rw [if_neg Bool.false_ne_true]
        have hready : (lane.ready job).status = .ok := (lane.status_ready job).trans hok
        obtain ⟨ticks', hplayed', hbalanced'⟩ := Register.balanced_resolve hduration
          (r := ⟨lane.ready job, lane.slots⟩) (Op.harmless_of_not_refused hreset hrefused)
          lane.shot.nextOp hplayed (hbalanced.of_sameClock (lane.frozen_ready job).sameClock)
        refine ⟨ticks', hplayed', ?_⟩
        rw [Lane.prepare, hop]
        dsimp only
        rw [hreset, if_neg Bool.false_ne_true, advance_of_ok hready]
        exact hbalanced'.of_sameClock ⟨rfl, fun _ => rfl, fun _ => rfl, rfl⟩

/-- `Accounted` is preserved by a step. -/
theorem Accounted.prepare (hduration : ∀ code, Scalar.le 0 (job.idle.duration code) = true) :
    (lane.prepare job shotIdx).Accounted job (past ++ [op]) := by
  cases hreset : op.isResetAll with
  | true => exact accounted_of_reset hop shotIdx hreset
  | false =>
      by_cases hok : lane.shot.status = .ok
      · exact h.of_ok hop shotIdx hduration hreset hok
      · exact h.of_failed hop shotIdx hreset hok

end Prepare

variable {lane : Lane Float32} {job : Job Float32}
  (hduration : ∀ code, Scalar.le 0 (job.idle.duration code) = true)

include hduration

/-- A shot that began with a blank control block is accounted for after any number of steps. -/
theorem accounted_after (hblank : lane.shot = 0) (shotIdx count : Nat) :
    (lane.after job shotIdx count).Accounted job (job.ops.toList.take count) := by
  have hplace : lane.shot.nextOp = 0 := by rw [hblank]; rfl
  induction count with
  | zero =>
      refine ⟨⟨fun _ => nofun, fun _ => ?_⟩, [], .none, ?_⟩
      · rw [after, hblank]
        rfl
      · rw [after, hblank]
        exact Shot.balanced_zero _ _
  | succ count ih =>
      have hnext : (lane.after job shotIdx count).shot.nextOp =
          min (lane.shot.nextOp + count) job.ops.size :=
        nextOp_after_eq_min (by rw [hplace]; exact Nat.zero_le _) shotIdx count
      rw [hplace, Nat.zero_add] at hnext
      rw [after_succ]
      generalize lane.after job shotIdx count = reached at ih hnext
      have hdecided :
          (reached.prepare job shotIdx).Accounted job (job.ops.toList.take (count + 1)) := by
        by_cases hmore : count < job.ops.size
        · have hop : job.ops[reached.shot.nextOp]? = some job.ops[count] := by
            rw [hnext, Nat.min_eq_left (Nat.le_of_lt hmore), Array.getElem?_eq_getElem hmore]
          have htake :
              job.ops.toList.take (count + 1) = job.ops.toList.take count ++ [job.ops[count]] := by
            rw [List.take_add_one, Array.getElem?_toList, Array.getElem?_eq_getElem hmore]
            rfl
          rw [htake]
          exact ih.prepare hop shotIdx hduration
        · -- Past the end of the stream nothing is left to happen.
          have hend : job.ops[reached.shot.nextOp]? = none := by
            rw [hnext, Nat.min_eq_right (Nat.le_of_not_lt hmore), Array.getElem?_size]
          have htake : job.ops.toList.take (count + 1) = job.ops.toList.take count := by
            rw [List.take_of_length_le (by simp; omega), List.take_of_length_le (by simp; omega)]
          obtain ⟨ticks, hplayed, hbalanced⟩ := ih.balanced
          rw [prepare_past_end hend, htake]
          exact ⟨ih.status, ticks, hplayed,
            hbalanced.of_sameClock ⟨rfl, fun _ => rfl, fun _ => rfl, rfl⟩⟩
      refine ⟨?_, ?_⟩ <;> rw [shot_step]
      · exact hdecided.status
      · exact hdecided.balanced

end Lane

/-! ## Results -/

namespace Ledger

/-- Ledgers with the same charges, settlements aside. -/
structure SameTime (l l' : Ledger R) : Prop where
  charges : l'.charges = l.charges
  region : l'.region = l.region

variable {l l' : Ledger R}

theorem SameTime.record (h : l.SameTime l') (c : Charge R) :
    (l.record c).SameTime (l'.record c) := by
  unfold Ledger.record
  split
  · have hgains : ∀ l : Ledger R,
        Ledger.charges { l with entries := l.entries ++ [.charge c] } = l.charges ++ [c] :=
      fun l => Ledger.charges_of_charge rfl
    exact ⟨by rw [hgains, hgains, h.charges], h.region⟩
  · exact h

/-- `SameTime` is preserved by every tick, settlements included. -/
theorem SameTime.next (h : l.SameTime l') (duration : Opcode → R) (op : Op R) :
    (l.next duration (.op op)).SameTime (l'.next duration (.op op)) := by
  cases hmarker : Timing.isMarker op.code with
  | false =>
      cases hregion : l.region with
      | none =>
          rw [next_of_closed _ hmarker hregion, next_of_closed _ hmarker (h.region.trans hregion)]
          exact h.record _
      | some members =>
          rw [next_of_open _ hmarker hregion, next_of_open _ hmarker (h.region.trans hregion)]
          exact ⟨h.charges, rfl⟩
  | true =>
      have hcode : op.code = .parallelStart ∨ op.code = .parallelEnd := by
        simpa [Timing.isMarker] using hmarker
      rcases hcode with hstart | hend
      · rw [next_of_start _ hstart, next_of_start _ hstart, h.region]
        split
        · exact ⟨h.charges, rfl⟩
        · exact h
      · rw [next_of_end _ hend, next_of_end _ hend, h.region]
        split
        · exact h
        · exact ⟨(h.record _).charges, rfl⟩

end Ledger

/-- Decay ticks played between operations do not change the time. -/
theorem Played.sameTime {ops : List (Op R)} {ticks : List (Tick R)} (h : Played ops ticks)
    (duration : Opcode → R) : (ledger duration (ops.map .op)).SameTime (ledger duration ticks) := by
  induction h with
  | none => exact ⟨rfl, rfl⟩
  | op op _ ih =>
      rw [List.map_append, List.map_singleton, ledger_concat, ledger_concat]
      exact ih.next duration op
  | @decay ops ticks op _ _ ih =>
      rw [List.map_append, List.map_singleton, ledger_concat, List.append_cons, ledger_concat,
        ledger_concat]
      have hsettled : (ledger duration (ops.map .op)).SameTime
          ((ledger duration ticks).next duration (.settle op.q1)) :=
        ⟨(Ledger.charges_of_settle rfl).trans ih.charges, ih.region⟩
      exact hsettled.next duration op

/-- The heat of a result, qubit by qubit. -/
theorem Shot.heat_eq_map_range (s : Shot R) {n : Nat} (hn : n ≤ maxQubitCount) :
    (s.qubits.toList.take n).map (·.heat) = (List.range n).map fun q => (s.qubit q).heat := by
  apply List.ext_getElem?
  intro q
  by_cases hq : q < n
  · have hroom : q < maxQubitCount := Nat.lt_of_lt_of_le hq hn
    simp [qubit, hq, hroom]
  · simp [hq]

/-- A solo shot balances the ledger of its stream. -/
theorem Config.balanced_soloLane {c : Config Float32}
    (hduration : ∀ code, Scalar.le 0 (c.idleParams.duration code) = true) (pool : Pool)
    (stream : Stream Float32) (k : Nat) :
    ∃ ticks, Played (liveOps c.qubits stream.ops) ticks ∧
      (c.soloLane pool stream k).shot.Balanced c.idleParams.duration c.qubits
        (ledger c.idleParams.duration ticks) := by
  have hjob : ∀ code, Scalar.le 0 ((c.soloJob pool stream k).idle.duration code) = true := hduration
  have hall : (c.soloJob pool stream k).ops.toList.take stream.length = stream.ops := by
    rw [soloJob]
    exact List.take_of_length_le (Nat.le_of_eq (List.length_map _))
  have haccounted : (c.soloLane pool stream k).Accounted (c.soloJob pool stream k)
      ((c.soloJob pool stream k).ops.toList.take stream.length) :=
    Lane.accounted_after hjob rfl 0 stream.length
  rw [hall] at haccounted
  exact haccounted.balanced

/-- The times in the results of a run are those of the ledger of its stream. -/
theorem Runs.exists_times {program : List (Op Float32)} {c : Config Float32} {host : Host Float32}
    (h : Runs program c host) {m : IdleModel Float32} (hidle : c.idle = some m) {l : Ledger Float32}
    (hl : l = ledger m.params.duration
      ((liveOps c.qubits (Stream.build program c.noise true c.qubits).ops).map .op)) :
    ∃ results, (runProgram program c host).result = .ok results ∧ results.shots.length = c.shots ∧
      ∀ shot ∈ results.shots, shot.elapsed = Charge.time l.charges ∧
        shot.heat = (List.range c.qubits).map fun q =>
          Charge.time (l.charges.filter fun c => q ∈ c.qubits) := by
  obtain ⟨results, hresult, hshots, _⟩ := h.exists_results rfl
  have hparams : c.idleParams = m.params := by rw [Config.idleParams, hidle]; rfl
  have hduration : ∀ code, Scalar.le 0 (c.idleParams.duration code) = true := by
    rw [hparams]
    exact IdleModel.nonneg_of_validate (Config.idle_of_validate h.checked hidle)
  have hroom := (Config.checked_of_validate h.checked).qubits_le
  have hsome : c.idle.isSome = true := by rw [hidle]; rfl
  rw [hsome] at hshots
  generalize Stream.build program c.noise true c.qubits = stream at hl hshots
  refine ⟨results, hresult, by rw [hshots, List.length_map, List.length_range], ?_⟩
  intro shot hshot
  rw [hshots] at hshot
  obtain ⟨k, _, rfl⟩ := List.mem_map.1 hshot
  obtain ⟨ticks, hplayed, hbalanced⟩ := Config.balanced_soloLane hduration host.pool stream k
  have hcharges : (ledger c.idleParams.duration ticks).charges = l.charges := by
    rw [(hplayed.sameTime _).charges, hl, hparams]
  refine ⟨hbalanced.elapsed.trans (by rw [hcharges]), ?_⟩
  refine ((c.soloLane host.pool stream k).shot.heat_eq_map_range hroom).trans
    (List.map_congr_left fun q hq => ?_)
  have hin := List.mem_range.1 hq
  rw [hbalanced.heat q hin (Nat.lt_of_lt_of_le hin hroom), hcharges]

/-- Time accounting under a valid idle model. A restarted clock that went through any ticks balances
their ledger; a closed region leaves no residue; and a charge added to the ledger is paid once by
the shot and once by every qubit, as heat or as idle time. A region lasts as long as its longest
operation. In every batch, the clock of a shot balances the ledger of the live operations since its
last restart, and the elapsed time and heat in the results of a run are those of the ledger of its
stream. -/
theorem time_is_accounted_for {m : IdleModel Float32} (hm : m.validate = .ok ()) :
    (∀ (s : Shot Float32) (batch : Batch Float32) (shotIdx : Nat) (ticks : List (Tick Float32)),
      let now := ticks.foldl (Shot.tick m.params batch.qubits) (s.restart batch shotIdx)
      let l := ledger m.params.duration ticks
      now.Balanced m.params.duration batch.qubits l ∧
      (now.region.active = false → now.region.qubits = 0 ∧ now.region.duration = 0) ∧
      ∀ t c, (l.next m.params.duration t).entries = l.entries ++ [.charge c] →
        now.Pays (now.tick m.params batch.qubits t) batch.qubits c) ∧
    (∀ members : List (Op Float32),
      (∀ op ∈ members, Scalar.le (m.params.duration op.code)
        (Charge.together m.params.duration members).duration = true) ∧
      ((Charge.together m.params.duration members).duration = 0 ∨
        ∃ op ∈ members, (Charge.together m.params.duration members).duration =
          m.params.duration op.code)) ∧
    (∀ (machine : Machine Float32) (batch : Batch Float32) (count i : Nat) (lane : Lane Float32),
      machine.idle = m.params → i < batch.shots →
      ((machine.beginBatch batch).run count).lanes[i]? = some lane →
      ∃ ticks, Played (liveOps batch.qubits (machine.ops.toList.take count)) ticks ∧
        lane.shot.Balanced m.params.duration batch.qubits (ledger m.params.duration ticks)) ∧
    ∀ (program : List (Op Float32)) (c : Config Float32) (host : Host Float32),
      Runs program c host → c.idle = some m →
      let l := ledger m.params.duration
        ((liveOps c.qubits (Stream.build program c.noise true c.qubits).ops).map .op)
      ∃ results, (runProgram program c host).result = .ok results ∧ results.shots.length = c.shots ∧
        ∀ shot ∈ results.shots, shot.elapsed = Charge.time l.charges ∧
          shot.heat = (List.range c.qubits).map fun q =>
            Charge.time (l.charges.filter fun c => q ∈ c.qubits) := by
  have hduration := IdleModel.nonneg_of_validate hm
  refine ⟨?_, Charge.longest_together hduration, ?_,
    fun program c host h hidle => h.exists_times hidle rfl⟩
  · intro s batch shotIdx ticks now l
    have hrun : ∀ ticks : List (Tick Float32),
        (ticks.foldl (Shot.tick m.params batch.qubits) (s.restart batch shotIdx)).Balanced
          m.params.duration batch.qubits (ledger m.params.duration ticks) := fun ticks =>
      (s.balanced_restart m.params.duration batch.qubits batch shotIdx).foldl_tick hduration
    refine ⟨hrun ticks, (hrun ticks).region_of_inactive, fun t c hentries => ?_⟩
    -- One more tick is balanced as well; what it paid is the difference.
    have hlater := hrun (ticks ++ [t])
    rw [List.foldl_append, ledger_concat] at hlater
    exact (hrun ticks).pays hlater hentries
  · intro machine batch count i lane hidle hi hlane
    rw [machine.getElem?_lanes_run hi] at hlane
    obtain ⟨old, _, rfl⟩ := Option.map_eq_some_iff.1 hlane
    have hjob : ∀ code, Scalar.le 0 ((machine.batchJob batch).idle.duration code) = true := by
      rw [Machine.batchJob, hidle]
      exact hduration
    rw [← hidle]
    exact (Lane.accounted_after hjob rfl i count).balanced

def timedFlips : IdleModel Float32 :=
  ((IdleModel.ofTimes 100 100 1).withDuration .x 1).withDuration .cx 2

def nestedTicks : List (Tick Float32) :=
  [.op (.x 0), .op .parallelStart, .op .parallelStart, .op (.cx 0 1), .op (.x 0), .settle 2,
    .op .parallelEnd, .op .parallelEnd, .op (.x 2), .op .parallelStart, .op (.x 1)]

/-- In `nestedTicks`, qubit 2 is idle for the region only, because decay settles it before the
region closes. In the run, the second `X` is covered by the duration of the `CX`, and the refused
operation takes no time. -/
theorem time_is_accounted_for_nested :
    timedFlips.validate = .ok () ∧
      (∃ now : Shot Float32,
        now = nestedTicks.foldl (Shot.tick timedFlips.params 3) (Shot.restart 0 ⟨0, 0, 1, 3, 0⟩ 0) ∧
        now.elapsed = 4 ∧ (now.qubit 0).heat = 3 ∧ (now.qubit 2).heat = 1 ∧
        (now.qubit 2).idle = 2) ∧
      ∃ results,
        (runProgram [.x 0, .parallelStart, .cx 0 1, .x 0, .parallelEnd, .injected 0 0 0, .x 1]
          { Config.standard with qubits := 2, idle := some timedFlips } .empty).result =
            .ok results ∧
        results.shots.map (fun shot => (shot.elapsed, shot.heat)) = [(3, [3, 2])] := by
  have hvalid : timedFlips.validate = .ok () := rfl
  obtain ⟨hclock, _, _, hrun⟩ := time_is_accounted_for hvalid
  obtain ⟨hbalanced, _⟩ := hclock 0 ⟨0, 0, 1, 3, 0⟩ 0 nestedTicks
  refine ⟨hvalid, ⟨_, rfl, hbalanced.elapsed.trans (by decide +kernel),
    (hbalanced.heat 0 (by decide) (by decide)).trans (by decide +kernel),
    (hbalanced.heat 2 (by decide) (by decide)).trans (by decide +kernel),
    (hbalanced.idle 2 (by decide) (by decide)).trans (by decide +kernel)⟩, ?_⟩
  have hruns : Runs [.x 0, .parallelStart, .cx 0 1, .x 0, .parallelEnd, .injected 0 0 0, .x 1]
      { Config.standard with qubits := 2, idle := some timedFlips } .empty :=
        ⟨rfl, rfl, ⟨_, rfl⟩, by decide⟩
  obtain ⟨results, hresult, hlength, hshots⟩ := hrun _ _ _ hruns rfl
  obtain ⟨shot, hshot⟩ := List.length_eq_one_iff.1 hlength
  obtain ⟨helapsed, hheat⟩ := hshots shot (by rw [hshot]; exact List.mem_singleton_self shot)
  refine ⟨results, hresult, ?_⟩
  rw [hshot, List.map_singleton, helapsed, hheat]
  decide +kernel

end ShotSim
