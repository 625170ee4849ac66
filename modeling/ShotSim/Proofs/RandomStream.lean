import Mathlib.Data.List.Basic
import Mathlib.Data.List.TakeWhile
import ShotSim.Proofs.Resolve

/-!
# Random stream — the place in the stream counts steps

A step takes its five draws before it looks at the operation, and nothing that it finds out later
takes or gives back a draw.  Only a restart seeds the generator.  So the place in the stream is told
by the number of steps since the last restart, whatever the steps are and whatever they come upon.

* `sinceRestart` — the operations after the last restart;
* `Shot.Drawn` — a control block whose generator has given five draws to each of `j` steps;
* `Decides` — control blocks of successive steps, the rest of the memory being anything at any step;
* `drawn_prepare`, `drawn_of_decides` — one step, and all steps;
* `random_stream_counts_steps` — the place in the stream, and two programs that share it.
-/

namespace ShotSim

variable {R : Type} [Scalar R]

namespace Rng

/-- Draws compose. -/
theorem advance_add (g : Rng) (m n : Nat) : g.advance (m + n) = (g.advance m).advance n := by
  induction m generalizing g with
  | zero => rw [Nat.zero_add, advance]
  | succ m ih => rw [Nat.succ_add, advance, advance, ih]

def draws (g : Rng) : Draws R :=
  ⟨g.fraction, (g.advance 1).fraction, (g.advance 2).fraction, (g.advance 3).fraction,
    (g.advance 4).fraction⟩

end Rng

/-- The operations after the last restart. -/
def sinceRestart {R : Type} (ops : List (Op R)) : List (Op R) :=
  (ops.reverse.takeWhile fun op => !op.isResetAll).reverse

section SinceRestart

variable {R : Type} {op : Op R}

/-- A restart clears `sinceRestart`. -/
theorem sinceRestart_append_reset (ops : List (Op R)) (h : op.isResetAll = true) :
    sinceRestart (ops ++ [op]) = [] := by
  simp [sinceRestart, h]

/-- Any other operation is appended to `sinceRestart`. -/
theorem sinceRestart_append (ops : List (Op R)) (h : op.isResetAll = false) :
    sinceRestart (ops ++ [op]) = sinceRestart ops ++ [op] := by
  simp [sinceRestart, h]

/-- The number of steps since the last restart depends only on where the restarts are. -/
theorem length_sinceRestart_congr {ops ops' : List (Op R)}
    (h : ops.map Op.isResetAll = ops'.map Op.isResetAll) :
    (sinceRestart ops).length = (sinceRestart ops').length := by
  have hcount : ∀ ops : List (Op R),
      (sinceRestart ops).length = ((ops.map Op.isResetAll).reverse.takeWhile (!·)).length := by
    intro ops
    rw [← List.map_reverse, List.takeWhile_map, List.length_map, sinceRestart, List.length_reverse]
    rfl
  rw [hcount, hcount, h]

end SinceRestart

/-- The control block of shot `id`, `j` steps after its last restart: five draws per step, the last
five current. -/
structure Shot.Drawn (s : Shot R) (seed id : UInt32) (j : Nat) : Prop where
  rng : s.rng = (Rng.ofShot seed id).advance (5 * j)
  /-- Before the first draw there is nothing at hand. -/
  none : j = 0 → s.draws = 0
  draws : 1 ≤ j → s.draws = ((Rng.ofShot seed id).advance (5 * (j - 1))).draws
  own : s.id = id

/-! ## One step -/

namespace Lane

/-- `ready` takes five draws. -/
theorem rng_ready (lane : Lane R) (job : Job R) :
    (lane.ready job).rng = lane.shot.rng.advance 5 := by
  unfold ready Shot.takeCollation
  dsimp only
  split <;> rfl

theorem draws_ready (lane : Lane R) (job : Job R) :
    (lane.ready job).draws = lane.shot.rng.draws := by
  unfold ready Shot.takeCollation
  dsimp only
  split <;> rfl

/-- `advance` moves the generator on by five draws, failed shot or not. -/
theorem keeps_advance (lane : Lane R) (job : Job R) (op : Op R) (opIdx : Nat) :
    (lane.ready job).Keeps (lane.advance job op opIdx).shot := by
  by_cases hok : (lane.ready job).status = .ok
  · rw [advance_of_ok hok]
    exact Register.keeps_resolve ⟨lane.ready job, lane.slots⟩ job op opIdx
  · rw [advance_of_failed hok]
    exact .rfl

/-- `advance` preserves `Drawn`, one step further. -/
theorem drawn_advance {lane : Lane R} {seed id : UInt32} {j : Nat} (h : lane.shot.Drawn seed id j)
    (job : Job R) (op : Op R) (opIdx : Nat) :
    (lane.advance job op opIdx).shot.Drawn seed id (j + 1) := by
  have hkeeps := lane.keeps_advance job op opIdx
  refine ⟨?_, fun hj => absurd hj (Nat.succ_ne_zero j), fun _ => ?_, ?_⟩
  · rw [hkeeps.rng, rng_ready, h.rng, ← Rng.advance_add, Nat.mul_succ]
  · rw [hkeeps.draws, draws_ready, h.rng, Nat.add_sub_cancel]
  · rw [hkeeps.id, id_ready, h.own]

/-- A restart seeds the generator; every other operation takes five draws. -/
theorem drawn_prepare {lane : Lane R} {job : Job R} {op : Op R}
    (hop : job.ops[lane.shot.nextOp]? = some op) (shotIdx : Nat) {j : Nat}
    (h : op.isResetAll = false →
      lane.shot.Drawn job.batch.seed (job.batch.firstShot + UInt32.ofNat shotIdx) j) :
    (lane.prepare job shotIdx).shot.Drawn job.batch.seed
      (job.batch.firstShot + UInt32.ofNat shotIdx) (if op.isResetAll then 0 else j + 1) := by
  rw [prepare, hop]
  dsimp only
  cases hreset : op.isResetAll with
  | true =>
      rw [if_pos rfl, if_pos rfl]
      exact ⟨rfl, fun _ => rfl, fun hj => absurd hj (Nat.not_succ_le_zero 0), rfl⟩
  | false =>
      have hadvance := drawn_advance (h hreset) job op lane.shot.nextOp
      exact ⟨hadvance.rng, hadvance.none, hadvance.draws, hadvance.own⟩

end Lane

/-! ## All steps -/

/-- Lanes before successive steps of a shot: the control block is that left by the preceding step;
sums, amplitudes, reports and slots are arbitrary. -/
structure Decides (job : Job R) (shotIdx : Nat) (lanes : Nat → Lane R) : Prop where
  first : (lanes 0).shot.nextOp = 0
  next : ∀ k, (lanes (k + 1)).shot = ((lanes k).prepare job shotIdx).shot

/-- Consecutive lanes of a run satisfy `Decides`. -/
theorem decides_after {lane : Lane R} (h : lane.shot.nextOp = 0) (job : Job R) (shotIdx : Nat) :
    Decides job shotIdx (lane.after job shotIdx) := by
  refine ⟨h, fun k => ?_⟩
  rw [Lane.after_add lane job shotIdx k 1]
  exact Lane.shot_step _ job shotIdx

namespace Decides

variable {job : Job R} {shotIdx : Nat} {lanes : Nat → Lane R} (h : Decides job shotIdx lanes)

include h

theorem nextOp_eq (k : Nat) : (lanes k).shot.nextOp = min k job.ops.size := by
  induction k with
  | zero => rw [h.first, Nat.zero_min]
  | succ k ih =>
      rw [h.next]
      cases hop : job.ops[(lanes k).shot.nextOp]? with
      | none =>
          have hpast : job.ops.size ≤ (lanes k).shot.nextOp := Array.getElem?_eq_none_iff.1 hop
          rw [Lane.prepare_past_end hop]
          change (lanes k).shot.nextOp = _
          omega
      | some op =>
          have hin : (lanes k).shot.nextOp < job.ops.size := (Array.getElem?_eq_some_iff.1 hop).1
          rw [Lane.nextOp_prepare shotIdx hop]
          omega

/-- Step `k` has operation `k`, if there is one. -/
theorem getElem?_nextOp (k : Nat) : job.ops[(lanes k).shot.nextOp]? = job.ops[k]? := by
  rw [h.nextOp_eq]
  by_cases hk : k < job.ops.size
  · rw [Nat.min_eq_left (Nat.le_of_lt hk)]
  · rw [Nat.min_eq_right (Nat.le_of_not_lt hk), Array.getElem?_eq_none (Nat.le_refl _),
      Array.getElem?_eq_none (Nat.le_of_not_lt hk)]

/-- `k` steps after its last restart the generator is `5 * k` draws past its seed. -/
theorem drawn {first : Op R} (hfirst : job.ops[0]? = some first) (hreset : first.isResetAll = true)
    (k : Nat) :
    ((lanes k).prepare job shotIdx).shot.Drawn job.batch.seed
      (job.batch.firstShot + UInt32.ofNat shotIdx)
        (sinceRestart (job.ops.toList.take (k + 1))).length := by
  induction k with
  | zero =>
      have hop : job.ops[(lanes 0).shot.nextOp]? = some first := by rw [h.getElem?_nextOp, hfirst]
      have htake : job.ops.toList.take 1 = [first] := by
        rw [List.take_one, List.head?_eq_getElem?, Array.getElem?_toList, hfirst]
        rfl
      have hdrawn := Lane.drawn_prepare hop shotIdx (j := 0)
        (fun hnot => absurd (hnot.symm.trans hreset) Bool.false_ne_true)
      rw [if_pos hreset] at hdrawn
      rw [htake, ← List.nil_append [first], sinceRestart_append_reset [] hreset]
      exact hdrawn
  | succ k ih =>
      rw [← h.next] at ih
      cases hop : job.ops[k + 1]? with
      | none =>
          -- The program is over: the stream stays where it is.
          have hpast : job.ops.size ≤ k + 1 := Array.getElem?_eq_none_iff.1 hop
          have htake : job.ops.toList.take (k + 1 + 1) = job.ops.toList.take (k + 1) := by
            rw [List.take_of_length_le (by simpa using Nat.le_succ_of_le hpast),
              List.take_of_length_le (by simpa using hpast)]
          rw [htake, Lane.prepare_past_end ((h.getElem?_nextOp (k + 1)).trans hop)]
          exact ⟨ih.rng, ih.none, ih.draws, ih.own⟩
      | some op =>
          have htake : job.ops.toList.take (k + 1 + 1) = job.ops.toList.take (k + 1) ++ [op] := by
            rw [List.take_add_one, Array.getElem?_toList, hop]
            rfl
          have hdrawn := Lane.drawn_prepare ((h.getElem?_nextOp (k + 1)).trans hop) shotIdx
            (fun _ => ih)
          rw [htake]
          cases hstart : op.isResetAll with
          | true =>
              rw [hstart] at hdrawn
              rw [sinceRestart_append_reset _ hstart]
              exact hdrawn
          | false =>
              rw [hstart] at hdrawn
              rw [sinceRestart_append _ hstart, List.length_append]
              exact hdrawn

end Decides

/-! ## The machine -/

namespace Machine

theorem getElem?_lanes_prepare (m : Machine R) {shotIdx : Nat} (h : shotIdx < m.batch.shots) :
    m.prepare.lanes[shotIdx]? = m.lanes[shotIdx]?.map fun lane => lane.prepare m.job shotIdx := by
  rw [prepare, mapActive, Array.getElem?_mapIdx]
  congr 1
  funext lane
  exact if_pos h

/-- A prepared lane of a running batch in terms of the lane at its beginning. -/
theorem getElem?_lanes_prepare_run (m : Machine R) {batch : Batch R} {shotIdx : Nat}
    (h : shotIdx < batch.shots) (k : Nat) :
    ((m.beginBatch batch).run k).prepare.lanes[shotIdx]? = m.lanes[shotIdx]?.map fun old =>
      (Lane.after { old with shot := 0 } (m.batchJob batch) shotIdx k).prepare (m.batchJob batch)
        shotIdx := by
  have hbatch : ((m.beginBatch batch).run k).batch = batch := by
    rw [run_eq]
    rfl
  have hjob : ((m.beginBatch batch).run k).job = m.batchJob batch := by
    rw [run_eq]
    rfl
  have hshot : shotIdx < ((m.beginBatch batch).run k).batch.shots := by rwa [hbatch]
  rw [getElem?_lanes_prepare _ hshot, getElem?_lanes_run m h, Option.map_map, hjob]
  rfl

end Machine

/-- After every step the generator of a shot is five draws per step since the last restart past its
seed, and the last five are the current draws, independently of operations, outcomes, losses and
failures. This holds for all shots of a batch, and for a control block stepped through arbitrary
sums and amplitudes. Hence programs with restarts at the same positions see the same draws. -/
theorem random_stream_counts_steps {job : Job R} {first : Op R} (hfirst : job.ops[0]? = some first)
    (hreset : first.isResetAll = true) (shotIdx k : Nat) :
    (∀ lanes, Decides job shotIdx lanes →
      ((lanes k).prepare job shotIdx).shot.Drawn job.batch.seed
        (job.batch.firstShot + UInt32.ofNat shotIdx)
          (sinceRestart (job.ops.toList.take (k + 1))).length) ∧
    (∀ (m : Machine R) (batch : Batch R) (lane : Lane R), m.batchJob batch = job →
      shotIdx < batch.shots →
      ((m.beginBatch batch).run k).prepare.lanes[shotIdx]? = some lane →
      lane.shot.Drawn job.batch.seed (job.batch.firstShot + UInt32.ofNat shotIdx)
        (sinceRestart (job.ops.toList.take (k + 1))).length) ∧
    ∀ (job' : Job R) (shotIdx' : Nat),
      job'.ops.toList.map Op.isResetAll = job.ops.toList.map Op.isResetAll →
      job'.batch.seed = job.batch.seed →
      job'.batch.firstShot + UInt32.ofNat shotIdx' = job.batch.firstShot + UInt32.ofNat shotIdx →
      ∀ lanes lanes', Decides job shotIdx lanes → Decides job' shotIdx' lanes' →
        ((lanes' k).prepare job' shotIdx').shot.rng = ((lanes k).prepare job shotIdx).shot.rng ∧
        ((lanes' k).prepare job' shotIdx').shot.draws =
          ((lanes k).prepare job shotIdx).shot.draws := by
  refine ⟨fun lanes h => h.drawn hfirst hreset k, ?_, ?_⟩
  · rintro m batch lane rfl hi hlane
    rw [m.getElem?_lanes_prepare_run hi] at hlane
    obtain ⟨before, -, rfl⟩ := Option.map_eq_some_iff.1 hlane
    have hstart : ({ before with shot := 0 } : Lane R).shot.nextOp = 0 := rfl
    exact (decides_after hstart _ shotIdx).drawn hfirst hreset k
  · intro job' shotIdx' hplaces hseed hid lanes lanes' h h'
    -- The other program begins with a restart as well.
    obtain ⟨first', hfirst', hreset'⟩ : ∃ op, job'.ops[0]? = some op ∧ op.isResetAll = true := by
      have hhead := congrArg (fun places => places[0]?) hplaces
      simp only [List.getElem?_map, Array.getElem?_toList, hfirst, Option.map_some, hreset] at hhead
      exact Option.map_eq_some_iff.1 hhead
    have hdrawn := h.drawn hfirst hreset k
    have hdrawn' := h'.drawn hfirst' hreset' k
    have hcount : (sinceRestart (job'.ops.toList.take (k + 1))).length =
        (sinceRestart (job.ops.toList.take (k + 1))).length := by
      apply length_sinceRestart_congr
      rw [List.map_take, List.map_take, hplaces]
    rw [hseed, hid, hcount] at hdrawn'
    refine ⟨hdrawn'.rng.trans hdrawn.rng.symm, ?_⟩
    rcases Nat.eq_zero_or_pos (sinceRestart (job.ops.toList.take (k + 1))).length with hzero | hpos
    · exact (hdrawn'.none hzero).trans (hdrawn.none hzero).symm
    · exact (hdrawn'.draws hpos).trans (hdrawn.draws hpos).symm

def fourShots (ops : Array (Op Float32)) : Job Float32 :=
  ⟨ops, ⟨5, 42, 4, 2, 0⟩, 0, Layout.ofCircuit 2 maxQubitsPerWorkgroup, 1, .inOrder⟩

/-- A shot that fails at its second operation draws the same numbers as one that measures there. -/
theorem random_stream_counts_steps_failing :
    let failing := fourShots #[.resetAll, .injected 0 1 1, .x 0]
    let measuring := fourShots #[.resetAll, .h 0, .mz 0 0]
    let lane : Lane Float32 := .blank failing.layout 4 1
    ((lane.after failing 3 2).prepare failing 3).shot.Drawn 42 8 2 ∧
      ((lane.after measuring 3 2).prepare measuring 3).shot.rng =
        ((lane.after failing 3 2).prepare failing 3).shot.rng ∧
      ((lane.after measuring 3 2).prepare measuring 3).shot.draws =
        ((lane.after failing 3 2).prepare failing 3).shot.draws := by
  intro failing measuring lane
  have hstart : lane.shot.nextOp = 0 := rfl
  have hfirst : failing.ops[0]? = some .resetAll := rfl
  have hrun := random_stream_counts_steps hfirst rfl 3 2
  exact ⟨hrun.1 _ (decides_after hstart failing 3),
    hrun.2.2 measuring 3 rfl rfl rfl _ _ (decides_after hstart failing 3)
      (decides_after hstart measuring 3)⟩

end ShotSim
