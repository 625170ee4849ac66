import Mathlib.Data.List.Basic
import Mathlib.Data.List.Nodup
import ShotSim.Proofs.Marginals
import ShotSim.Proofs.ParkedQubits
import ShotSim.Proofs.RandomStream
import ShotSim.Proofs.StartOver

/-!
# Basis states — amplitudes without rounding

In a basis state one amplitude is one and all others are zero.  A restart leads to the basis state
0; reports and the marks of parallel regions leave a basis state as it is.  Its norm is exactly one,
so nothing is ever rescaled, and each report names one basis state.

* `sum_indicator` — sums in which one summand is one and all others are zero;
* `IsBasis`, `total_of_isBasis` — the block of a basis state, and its norm;
* `Lane.AtBasis`, `AtBasis.step_of_isStill` — shots in a basis state, and steps that do not act;
* `Config.atBasis_soloLane` — the log at the end of a program that only reports.
-/

namespace ShotSim

open BasisIndex

/-- Whether an operation is a report or a region marker. -/
def Op.isStill {R : Type} (op : Op R) : Bool :=
  op.code = .mEveryZ || op.code = .parallelStart || op.code = .parallelEnd

theorem Op.harmless_of_isStill {R : Type} {op : Op R} (h : op.isStill = true) (n : Nat) :
    op.Harmless n := by
  have hcode : op.code = .mEveryZ ∨ op.code = .parallelStart ∨ op.code = .parallelEnd := by
    simpa [isStill, or_assoc] using h
  rcases hcode with hc | hc | hc <;>
    exact ⟨by simp [isResetAll, hc], by simp [isUnsupported, hc, Opcode.isKnown],
      by simp [qubits, hc, Opcode.arity, validQubits]⟩

/-! ## Sums of one summand -/

section Indicator

variable {α : Type} {p : α → Prop} [DecidablePred p]

/-- Adding zeros keeps an accumulator of zero or one. -/
theorem foldl_indicator_of_none {as : List α} (h : ∀ a ∈ as, ¬p a) {acc : Float32}
    (hacc : acc = 0 ∨ acc = 1) :
    (as.map fun a => if p a then (1 : Float32) else 0).foldl (· + ·) acc = acc := by
  have hadd : acc + 0 = acc := by
    rcases hacc with rfl | rfl <;> decide +kernel
  induction as with
  | nil => rfl
  | cons a rest ih =>
      rw [List.map_cons, List.foldl_cons, if_neg (h a List.mem_cons_self), hadd]
      exact ih fun other hother => h other (List.mem_cons_of_mem _ hother)

/-- A `Float32` sum of zeros with at most one summand of one is exact. -/
theorem sum_indicator {as : List α} (h : as.Pairwise fun a b => ¬(p a ∧ p b)) :
    Scalar.sum (as.map fun a => if p a then (1 : Float32) else 0) =
      if ∃ a ∈ as, p a then 1 else 0 := by
  have hfirst : (0 : Float32) + 1 = 1 := by decide +kernel
  have hnone : (0 : Float32) + 0 = 0 := by decide +kernel
  rw [Scalar.sum]
  induction as with
  | nil => rfl
  | cons a rest ih =>
      obtain ⟨hnew, hrest⟩ := List.pairwise_cons.1 h
      rw [List.map_cons, List.foldl_cons]
      by_cases ha : p a
      · rw [if_pos ha, if_pos ⟨a, List.mem_cons_self, ha⟩, hfirst]
        exact foldl_indicator_of_none (fun b hb hpb => hnew b hb ⟨ha, hpb⟩) (Or.inr rfl)
      · have hsome : (∃ b ∈ a :: rest, p b) ↔ ∃ b ∈ rest, p b := by simp [ha]
        rw [if_neg ha, hnone, ih hrest]
        simp only [hsome]

end Indicator

/-- `sum_indicator` for a list without duplicates. -/
theorem sum_indicator_of_nodup {is : List Nat} (h : is.Nodup) (b : Nat) :
    Scalar.sum (is.map fun i => if i = b then (1 : Float32) else 0) = if b ∈ is then 1 else 0 := by
  rw [sum_indicator (h.imp fun hne hboth => hne (hboth.1.trans hboth.2.symm))]
  simp only [exists_eq_right]

/-- `sum_indicator` for one of the lists that a duplicate-free `flatMap` is made of. -/
theorem sum_indicator_of_flatMap {count : Nat} {f : Nat → List Nat}
    (h : ((List.range count).flatMap f).Nodup) (b : Nat) :
    Scalar.sum ((List.range count).map fun k => if b ∈ f k then (1 : Float32) else 0) =
      if b ∈ (List.range count).flatMap f then 1 else 0 := by
  have hapart := (List.nodup_flatMap.1 h).2
  rw [sum_indicator (hapart.imp fun hdisjoint hboth => hdisjoint hboth.1 hboth.2)]
  simp only [List.mem_flatMap]

/-! ## Blocks -/

/-- The amplitude of `b` is one and all others are zero. -/
def IsBasis (b : Nat) (block : Array (Cplx Float32)) : Prop :=
  ∀ i, (⟨0, block⟩ : Window Float32).get i = if i = b then 1 else 0

namespace IsBasis

variable {b : Nat} {block : Array (Cplx Float32)} (h : IsBasis b block)

include h

/-- The amplitudes of basis state `b`. -/
theorem getD (i : Nat) : block.getD i 0 = if i = b then 1 else 0 := h i

theorem lt : b < block.size := by
  by_contra hout
  have hget := h.getD b
  rw [if_pos rfl, Array.getD_eq_getD_getElem?, Array.getElem?_eq_none (Nat.le_of_not_lt hout)]
    at hget
  exact absurd hget (by decide +kernel)

/-- The probabilities of basis state `b`. -/
theorem normSqr (i : Nat) : (block.getD i 0).normSqr = if i = b then 1 else 0 := by
  rw [h.getD]
  split <;> decide +kernel

end IsBasis

section Placed

variable {job : Job Float32} {shot : Shot Float32} {e w : Nat} (ht : job.layout.Tiled e w)
  (hplaced : shot.Placed (job.current shot) job.layout.qubitCount) {block : Array (Cplx Float32)}

include ht hplaced

/-- An action with the amplitudes of a basis state as results leads to that state. -/
theorem isBasis_blockAfter (hblock : block.size = job.layout.entriesPerShot) {b : Nat}
    (hb : b < job.layout.entriesPerShot)
    (h : ∀ members : List Nat,
      (job.action shot).act members (members.map (⟨0, block⟩ : Window Float32).get) =
      members.map fun i => if i = b then 1 else 0) : IsBasis b (job.blockAfter shot block) := by
  intro i
  by_cases hi : i < job.layout.entriesPerShot
  · have hmem : i ∈ (job.shares shot).flatten :=
      (perm_flatten_shares ht hplaced).mem_iff.2 (List.mem_range.2 hi)
    obtain ⟨g, hg, hig⟩ := List.mem_flatten.1 hmem
    obtain ⟨p, hp⟩ := List.getElem?_of_mem hig
    have hact := getElem?_act_eq_blockAfter ht hplaced hblock hg hp
    rw [h g, List.getElem?_map, hp] at hact
    simp only [Window.get, Nat.sub_zero, Array.getD_eq_getD_getElem?, ← hact, Option.map_some,
      Option.getD_some]
  · have hout : (job.blockAfter shot block).size ≤ i := by
      rw [Job.size_blockAfter, hblock]
      exact Nat.le_of_not_lt hi
    rw [if_neg (by omega)]
    simp [Window.get, Array.getElem?_eq_none hout]

/-- The norm of a basis state is one in every summation order. -/
theorem total_of_isBasis {b : Nat} (hb : b < job.layout.entriesPerShot) (h : IsBasis b block) :
    Scalar.sum ((List.range job.layout.workgroups).map fun workgroup =>
      (job.collation shot block workgroup).total) = 1 := by
  have hall := perm_visiting ht hplaced
  have hnodup := hall.nodup_iff.2 List.nodup_range
  have hworkgroup : ∀ workgroup ∈ List.range job.layout.workgroups,
      (job.collation shot block workgroup).total =
        if b ∈ (List.range threadsPerWorkgroup).flatMap (job.visiting shot workgroup) then 1
        else 0 := by
    intro workgroup hmem
    have hown := (List.nodup_flatMap.1 hnodup).1 workgroup hmem
    have hthread : ∀ thread ∈ List.range threadsPerWorkgroup,
        Scalar.sum ((job.visiting shot workgroup thread).map fun i => (block.getD i 0).normSqr) =
          if b ∈ job.visiting shot workgroup thread then 1 else 0 := by
      intro thread hin
      simp only [h.normSqr]
      exact sum_indicator_of_nodup ((List.nodup_flatMap.1 hown).1 thread hin) b
    rw [total_collation, threadSum, List.map_congr_left hthread]
    exact sum_indicator_of_flatMap hown b
  rw [List.map_congr_left hworkgroup, sum_indicator_of_flatMap hnodup, if_pos]
  exact hall.mem_iff.2 (List.mem_range.2 hb)

end Placed

/-- Scaling basis-state amplitudes by one is the identity. -/
theorem map_scale_one (b : Nat) (members : List Nat) :
    (members.map fun i => if i = b then (1 : Cplx Float32) else 0).map (·.scale 1) =
      members.map fun i => if i = b then 1 else 0 := by
  rw [List.map_map]
  apply List.map_congr_left
  intro i _
  rw [Function.comp_apply]
  split <;> decide +kernel

/-- The report of basis state `b` is the single record of `b`. -/
theorem reports_of_isBasis {b : Nat} {block : Array (Cplx Float32)} (h : IsBasis b block)
    {threshold : Float32} (hthreshold : Scalar.lt threshold 1 = true)
    (hzero : Scalar.lt threshold 0 = false) {is : List Nat} (hnodup : is.Nodup) :
    reports 1 threshold ⟨0, block⟩ is = if b ∈ is then [⟨b, 1⟩] else [] := by
  have hfirst : (1 : Cplx Float32).normSqr * (1 * 1) = 1 := by decide +kernel
  have hother : (0 : Cplx Float32).normSqr * (1 * 1) = 0 := by decide +kernel
  induction is with
  | nil => rfl
  | cons i rest ih =>
      obtain ⟨hnew, hrest⟩ := List.nodup_cons.1 hnodup
      have htail := ih hrest
      rw [reports] at htail
      rw [reports, List.filterMap_cons, htail, h i]
      by_cases hi : i = b
      · subst hi
        simp only [if_true, hfirst, hthreshold, if_neg hnew, List.mem_cons_self]
      · have hmem : b ∈ i :: rest ↔ b ∈ rest := by simp [Ne.symm hi]
        simp only [if_neg hi, hother, hzero, Bool.false_eq_true, if_false, hmem]

/-! ## Lanes -/

/-- A successful shot in basis state `b` with collected norm one and no lost qubit. -/
structure Lane.AtBasis (lane : Lane Float32) (b : Nat) : Prop where
  block : IsBasis b lane.block
  total : Scalar.sum (lane.sums.toList.map (·.total)) = 1
  status : lane.shot.status = .ok
  lost : lane.shot.lost = 0

namespace Lane

/-- A still operation selects no gate and keeps the status. -/
theorem mode_prepare_of_isStill {lane : Lane Float32} (hok : lane.shot.status = .ok)
    {job : Job Float32} {op : Op Float32} (hop : job.ops[lane.shot.nextOp]? = some op)
    (hstill : op.isStill = true) (shotIdx : Nat) :
    (lane.prepare job shotIdx).shot.mode = (if op.code = .mEveryZ then .extract else .scaleOnly) ∧
      (lane.prepare job shotIdx).shot.status = .ok := by
  have hharmless := Op.harmless_of_isStill hstill job.batch.qubits
  have hready : (lane.ready job).status = .ok := (lane.status_ready job).trans hok
  have hsupported : (!op.code.isKnown || op.code = .injected) = false := hharmless.supported
  refine ⟨?_, ?_⟩
  · rw [prepare, hop]
    dsimp only
    rw [hharmless.notReset, if_neg Bool.false_ne_true, advance_of_ok hready]
    change (Register.resolve ⟨lane.ready job, lane.slots⟩ job op lane.shot.nextOp).shot.mode = _
    unfold Register.resolve
    rw [if_neg (by simp [hsupported]), if_neg (by simp [hharmless.valid])]
    dsimp only
    rw [Shot.mode_accrue]
    have hcode : op.code = .mEveryZ ∨ op.code = .parallelStart ∨ op.code = .parallelEnd := by
      simpa [Op.isStill, or_assoc] using hstill
    rcases hcode with hc | hc | hc
    · simp only [hc, Opcode.takesDecay, Bool.and_false, Bool.false_eq_true, if_false, if_true,
        Register.select, Shot.mode]
    · simp only [hc, Opcode.takesDecay, Bool.and_false, Bool.false_eq_true, if_false, reduceCtorEq,
        Register.select, Shot.mode, ready]
    · simp only [hc, Opcode.takesDecay, Bool.and_false, Bool.false_eq_true, if_false, reduceCtorEq,
        Register.select, Shot.mode, ready]
  · have hverdict := verdict_prepare shotIdx hop
    rw [hharmless.verdictAfter_eq] at hverdict
    exact (congrArg Prod.fst hverdict).trans hok

/-- The rescale factor of a step is computed from the norm of the step before. -/
theorem renormalize_prepare {R : Type} [Scalar R] {lane : Lane R} {job : Job R} {op : Op R}
    (hop : job.ops[lane.shot.nextOp]? = some op) (hreset : op.isResetAll = false) (shotIdx : Nat) :
    (lane.prepare job shotIdx).shot.renormalize =
      renormalizer (Scalar.sum (lane.sums.toList.map (·.total))) := by
  rw [prepare, hop]
  dsimp only
  rw [hreset, if_neg Bool.false_ne_true]
  exact (lane.keeps_advance job op lane.shot.nextOp).renormalize.trans (lane.renormalize_ready job)

/-- In a basis state the rescale factor is one. -/
theorem AtBasis.renormalize_prepare {lane : Lane Float32} {b : Nat} (h : lane.AtBasis b)
    {job : Job Float32} {op : Op Float32} (hop : job.ops[lane.shot.nextOp]? = some op)
    (hreset : op.isResetAll = false) (shotIdx : Nat) :
    (lane.prepare job shotIdx).shot.renormalize = 1 := by
  rw [Lane.renormalize_prepare hop hreset, h.total]
  decide +kernel

/-- A still operation prepares no gate, and rescales by one. -/
theorem AtBasis.prepare_of_isStill {lane : Lane Float32} {b : Nat} (h : lane.AtBasis b)
    {job : Job Float32} {op : Op Float32} (hop : job.ops[lane.shot.nextOp]? = some op)
    (hstill : op.isStill = true) (shotIdx : Nat) :
    (lane.prepare job shotIdx).shot.mode = (if op.code = .mEveryZ then .extract else .scaleOnly) ∧
      (lane.prepare job shotIdx).shot.renormalize = 1 ∧
      (lane.prepare job shotIdx).shot.status = .ok := by
  obtain ⟨hmode, hstatus⟩ := mode_prepare_of_isStill h.status hop hstill shotIdx
  have hreset := (Op.harmless_of_isStill hstill job.batch.qubits).notReset
  exact ⟨hmode, h.renormalize_prepare hop hreset shotIdx, hstatus⟩

/-- Without a gate or a restart, `prepare` keeps the loss flags. -/
theorem lost_prepare_of_arity_zero {lane : Lane Float32} {job : Job Float32} {shotIdx : Nat}
    (hmode : (lane.prepare job shotIdx).shot.mode.arity = 0)
    (hreset : (lane.prepare job shotIdx).shot.mode ≠ .resetAll) :
    (lane.prepare job shotIdx).shot.lost = lane.shot.lost := by
  cases lane.treats_prepare job shotIdx with
  | restarts reset _ => exact absurd reset hreset
  | spares kept _ => exact kept
  | loses _ _ _ selected arity _ =>
      rw [Shot.mode, selected, arity] at hmode
      cases hmode

section Steps

variable {job : Job Float32} {e w : Nat} (ht : job.layout.Tiled e w)
  (hroom : job.batch.qubits ≤ job.layout.qubitCount) {lane : Lane Float32}
  (hblock : lane.block.size = job.layout.entriesPerShot)

include ht hroom hblock

/-- A step into a basis state records a norm of one. -/
theorem total_step {b shotIdx : Nat} (h : IsBasis b (lane.step job shotIdx).block) :
    Scalar.sum ((lane.step job shotIdx).sums.toList.map (·.total)) = 1 := by
  have hplaced := placed_prepare lane job shotIdx hroom
  have hsize : (lane.prepare job shotIdx).block.size = job.layout.entriesPerShot := by
    rw [(lane.prepare_frame job shotIdx).1, hblock]
  have hb := h.lt
  rw [block_step ht hroom hblock, Job.size_blockAfter, hblock] at hb
  rw [step, sums_execute ht hplaced hsize, List.map_map]
  exact total_of_isBasis ht hplaced hb h

/-- A restart leads to basis state 0. -/
theorem atBasis_step_of_resetAll {op : Op Float32} (hop : job.ops[lane.shot.nextOp]? = some op)
    (hreset : op.isResetAll = true) (shotIdx : Nat) : (lane.step job shotIdx).AtBasis 0 := by
  have hprepared := prepare_of_resetAll hop hreset shotIdx
  have hmode : (lane.prepare job shotIdx).shot.mode = .resetAll := by
    rw [hprepared]
    rfl
  have hbasis : IsBasis 0 (lane.step job shotIdx).block := by
    rw [block_step ht hroom hblock]
    apply isBasis_blockAfter ht (placed_prepare lane job shotIdx hroom) hblock (Nat.two_pow_pos _)
    intro members
    rw [Job.action, Action.ofShot, hmode]
    rfl
  refine ⟨hbasis, total_step ht hroom hblock hbasis, ?_, ?_⟩
  · rw [shot_step, hprepared]
    rfl
  · rw [shot_step, hprepared]
    rfl

/-- A still operation preserves a basis state; a report logs exactly that state. -/
theorem AtBasis.step_of_isStill {b : Nat} (h : lane.AtBasis b) {op : Op Float32}
    (hop : job.ops[lane.shot.nextOp]? = some op) (hstill : op.isStill = true) (shotIdx : Nat)
    (hthreshold : Scalar.lt job.batch.threshold 1 = true)
    (hzero : Scalar.lt job.batch.threshold 0 = false) :
    (lane.step job shotIdx).AtBasis b ∧
      lane.newReports job shotIdx = if op.code = .mEveryZ then [⟨b, 1⟩] else [] := by
  obtain ⟨hmode, hnorm, hstatus⟩ := h.prepare_of_isStill hop hstill shotIdx
  have harity : (lane.prepare job shotIdx).shot.mode.arity = 0 := by
    rw [hmode]
    split <;> rfl
  have hplaced := placed_prepare lane job shotIdx hroom
  have hb : b < job.layout.entriesPerShot := hblock ▸ h.block.lt
  -- A report looks at the amplitudes and a marker rescales them by one.
  have hbasis : IsBasis b (lane.step job shotIdx).block := by
    rw [block_step ht hroom hblock]
    apply isBasis_blockAfter ht hplaced hblock hb
    intro members
    have hmembers : members.map (⟨0, lane.block⟩ : Window Float32).get =
        members.map fun i => if i = b then 1 else 0 := List.map_congr_left fun i _ => h.block i
    by_cases hcode : op.code = .mEveryZ
    · rw [if_pos hcode] at hmode
      rw [Job.action, Action.ofShot, hmode, hmembers]
      rfl
    · rw [if_neg hcode] at hmode
      rw [Job.action, Action.ofShot, hmode, hnorm, hmembers]
      exact map_scale_one b members
  refine ⟨⟨hbasis, total_step ht hroom hblock hbasis, ?_, ?_⟩, ?_⟩
  · rw [shot_step, hstatus]
  · rw [shot_step,
      lost_prepare_of_arity_zero harity (by rw [hmode]; split <;> exact Mode.noConfusion), h.lost]
  · by_cases hcode : op.code = .mEveryZ
    · rw [if_pos hcode] at hmode
      -- A schedule can only permute the reports, and a single report leaves no choice.
      have hall : b ∈ (job.shares (lane.prepare job shotIdx).shot).flatten :=
        (perm_flatten_shares ht hplaced).mem_iff.2 (List.mem_range.2 hb)
      have hperm := job.arrivals_perm (lane.prepare job shotIdx).shot lane.block
      rw [Job.reportsOf, if_pos hmode, hnorm,
        reports_of_isBasis h.block hthreshold hzero (nodup_flatten_shares ht hplaced),
        if_pos hall] at hperm
      rw [if_pos hcode]
      exact List.perm_singleton.1 hperm
    · rw [if_neg hcode] at hmode
      rw [if_neg hcode]
      exact job.arrivals_of_not_extract _ (by rw [hmode]; exact Mode.noConfusion)

omit hblock in
/-- A run of still operations preserves a basis state and logs it once per report. -/
theorem AtBasis.after_of_isStill {b resultsPerShot resultCount : Nat} (h : lane.AtBasis b)
    (hfits : lane.Fits job.layout resultsPerShot resultCount) {ops : List (Op Float32)}
    (hops : job.ops.toList.drop lane.shot.nextOp = ops) (hstill : ∀ op ∈ ops, op.isStill = true)
    (shotIdx : Nat) (hthreshold : Scalar.lt job.batch.threshold 1 = true)
    (hzero : Scalar.lt job.batch.threshold 0 = false) :
    (lane.after job shotIdx ops.length).AtBasis b ∧
      (lane.after job shotIdx ops.length).log =
        (List.replicate (ops.countP fun op => op.code = .mEveryZ) ⟨b, 1⟩).foldl ReportLog.push
          lane.log := by
  induction ops generalizing lane with
  | nil => exact ⟨h, rfl⟩
  | cons op rest ih =>
      have hop : job.ops[lane.shot.nextOp]? = some op := by
        rw [← Array.getElem?_toList, ← List.head?_drop, hops]
        rfl
      have hnow := hstill op List.mem_cons_self
      have hnotReset : op.isResetAll = false :=
        (Op.harmless_of_isStill hnow job.batch.qubits).notReset
      obtain ⟨hbasis, hreports⟩ :=
        h.step_of_isStill ht hroom hfits.block hop hnow shotIdx hthreshold hzero
      have hlog := log_step ht hfits.block shotIdx
      rw [log_prepare hop hnotReset, hreports] at hlog
      -- The induction is on the operations that are left; a step consumes the first of them.
      have hnext : job.ops.toList.drop (lane.step job shotIdx).shot.nextOp = rest := by
        rw [shot_step, nextOp_prepare shotIdx hop, ← List.tail_drop, hops, List.tail_cons]
      obtain ⟨hend, hrest⟩ := ih hbasis (fits_step ht hfits shotIdx) hnext
        fun other hother => hstill other (List.mem_cons_of_mem _ hother)
      refine ⟨hend, ?_⟩
      rw [List.length_cons, after, hrest, hlog, List.countP_cons]
      by_cases hcode : op.code = .mEveryZ
      · rw [if_pos hcode, if_pos (decide_eq_true hcode), List.replicate_succ]
        rfl
      · rw [if_neg hcode, if_neg (by simpa using hcode)]
        rfl

end Steps

end Lane

/-- The log of a shot whose stream restarts and then only reports. -/
theorem Config.atBasis_soloLane {c : Config Float32} (hchecked : c.Checked) (pool : Pool)
    {stream : Stream Float32} {ops : List (Op Float32)} (hops : stream.ops = Op.resetAll :: ops)
    (hstill : ∀ op ∈ ops, op.isStill = true) (hthreshold : Scalar.lt c.threshold 1 = true)
    (hzero : Scalar.lt c.threshold 0 = false) (k : Nat) :
    (c.soloLane pool stream k).AtBasis 0 ∧
      (c.soloLane pool stream k).log =
        (List.replicate (ops.countP fun op => op.code = .mEveryZ) ⟨0, 1⟩).foldl ReportLog.push
          c.blankLane.log := by
  obtain ⟨e, w, htiled⟩ := Layout.exists_tiled_ofCircuit c.qubits hchecked.perWorkgroup_ge
    hchecked.perWorkgroup_le
  have ht : (c.soloJob pool stream k).layout.Tiled e w := htiled
  have hroom := Layout.le_qubitCount_ofCircuit c.qubits c.qubitsPerWorkgroup
  have hall : (c.soloJob pool stream k).ops.toList = .resetAll :: ops := hops
  have hfirst : (c.soloJob pool stream k).ops[c.blankLane.shot.nextOp]? = some .resetAll := by
    rw [← Array.getElem?_toList, hall]
    rfl
  have hreset : (.resetAll : Op Float32).isResetAll = true := rfl
  have hbasis := Lane.atBasis_step_of_resetAll ht hroom c.fits_blankLane.block hfirst hreset 0
  -- The restart empties the log, so the rest of the stream starts from an empty one.
  have hlog := Lane.log_step ht c.fits_blankLane.block 0
  rw [Lane.newReports_of_resetAll hfirst hreset, Lane.prepare_of_resetAll hfirst hreset] at hlog
  have hnext : (c.soloJob pool stream k).ops.toList.drop
      (c.blankLane.step (c.soloJob pool stream k) 0).shot.nextOp = ops := by
    rw [Lane.shot_step, Lane.nextOp_prepare 0 hfirst, hall]
    rfl
  obtain ⟨hend, hrest⟩ := hbasis.after_of_isStill ht hroom
    (Lane.fits_step ht c.fits_blankLane 0) hnext hstill 0 hthreshold hzero
  have hlength : stream.length = ops.length + 1 := by
    simpa [Stream.ops] using congrArg List.length hops
  rw [soloLane, hlength, Lane.after]
  refine ⟨hend, ?_⟩
  rw [hrest, hlog]
  rfl

end ShotSim
