import Mathlib.Data.List.Basic
import ShotSim.Proofs.SignedZero
import ShotSim.Proofs.StartOver
import ShotSim.Proofs.StreamInputs

/-!
# Timetable — what the clock of a shot counts

The time of a shot can be told from the opcodes of its stream alone: draws, amplitudes, measurements
and lost qubits have no part in it.  The stream is not the program, though.  Weaving adds identities
to it and runs a move as an identity, and an identity takes the time that identities take.

* `Timing`, `timetable` — the time that opcodes take, one after another and in parallel regions;
* `timing_prepare`, `timing_after` — the clock of a shot keeps to the timetable of its stream;
* `Op.timed`, `timetable_weave` — the opcodes that an operation of a program is charged for;
* `clock_follows_timed_operations` — the clock of every shot, and when it is that of the program
  itself;
* `identities_take_time` — programs that take longer, or less long, than their operations do.
-/

namespace ShotSim

/-! ## Timetables -/

/-- State of a timetable: elapsed time and, in a parallel region, the longest duration so far. -/
structure Timing (R : Type) where
  elapsed : R
  longest : Option R

namespace Timing

variable {R : Type} [Scalar R]

def start : Timing R := ⟨0, none⟩

/-- Adds a duration if it is positive. -/
def pass (time duration : R) : R := if Scalar.le duration 0 then time else time + duration

/-- Processes an opcode. A region takes its longest duration when it closes. -/
def next (duration : Opcode → R) (t : Timing R) (code : Opcode) : Timing R :=
  match code, t.longest with
  | .parallelStart, none => { t with longest := some 0 }
  | .parallelStart, some _ => t
  | .parallelEnd, none => t
  | .parallelEnd, some longest => ⟨pass t.elapsed longest, none⟩
  | code, none => ⟨pass t.elapsed (duration code), none⟩
  | code, some longest => ⟨t.elapsed, some (Scalar.max longest (duration code))⟩

def isMarker (code : Opcode) : Bool := code = .parallelStart || code = .parallelEnd

/-- Outside a region an opcode passes its duration. -/
theorem next_of_closed (duration : Opcode → R) {code : Opcode} (h : isMarker code = false)
    (elapsed : R) : next duration ⟨elapsed, none⟩ code = ⟨pass elapsed (duration code), none⟩ := by
  cases code with
  | parallelStart => cases h
  | parallelEnd => cases h
  | _ => rfl

/-- Inside a region an opcode extends the longest duration. -/
theorem next_of_open (duration : Opcode → R) {code : Opcode} (h : isMarker code = false)
    (elapsed longest : R) :
    next duration ⟨elapsed, some longest⟩ code =
      ⟨elapsed, some (Scalar.max longest (duration code))⟩ := by
  cases code with
  | parallelStart => cases h
  | parallelEnd => cases h
  | _ => rfl

end Timing

/-- The elapsed time of a sequence of opcodes. An unclosed region takes none. -/
def timetable {R : Type} [Scalar R] (duration : Opcode → R) (codes : List Opcode) : R :=
  (codes.foldl (Timing.next duration) Timing.start).elapsed

/-! ## The clock of a shot -/

section Clock

variable {R : Type} [Scalar R]

def Shot.timing (s : Shot R) : Timing R :=
  ⟨s.elapsed, if s.region.active then some s.region.duration else none⟩

namespace Shot

/-- `charge` passes its duration. -/
theorem elapsed_charge (s : Shot R) (busy : Nat) (duration : R) (n : Nat) :
    (s.charge busy duration n).elapsed = Timing.pass s.elapsed duration := by
  unfold charge Timing.pass
  split <;> rfl

theorem region_charge (s : Shot R) (busy : Nat) (duration : R) (n : Nat) :
    (s.charge busy duration n).region = s.region := by
  unfold charge
  split <;> rfl

/-- `accrue` moves the timing by the opcode. -/
theorem timing_accrue (s : Shot R) (op : Op R) (params : IdleParams R) (n : Nat) :
    (s.accrue op params n).timing = s.timing.next params.duration op.code := by
  unfold accrue
  cases hactive : s.region.active with
  | false =>
      have htiming : s.timing = ⟨s.elapsed, none⟩ := by simp [timing, hactive]
      rw [htiming]
      split
      · rename_i hcode
        rw [hcode]
        rfl
      · rename_i hcode
        rw [hcode, if_neg Bool.false_ne_true]
        exact htiming
      · rename_i hstart hend
        have hmarker : Timing.isMarker op.code = false := by simp_all [Timing.isMarker]
        rw [Timing.next_of_closed _ hmarker]
        dsimp only
        rw [if_neg Bool.false_ne_true, timing, elapsed_charge, region_charge, hactive]
        rfl
  | true =>
      have htiming : s.timing = ⟨s.elapsed, some s.region.duration⟩ := by simp [timing, hactive]
      rw [htiming]
      split
      · rename_i hcode
        rw [hcode, if_pos rfl]
        exact htiming
      · -- The region closes and is charged as one operation.
        rename_i hcode
        rw [hcode, if_pos rfl, timing, elapsed_charge]
        rfl
      · rename_i hstart hend
        have hmarker : Timing.isMarker op.code = false := by simp_all [Timing.isMarker]
        rw [Timing.next_of_open _ hmarker]
        dsimp only
        rw [if_pos rfl, timing, hactive]
        rfl

theorem timing_injectDecay (s : Shot R) (params : IdleParams R) (op : Op R) :
    (s.injectDecay params op).timing = s.timing := by
  unfold injectDecay
  dsimp only
  split <;> rfl

end Shot

namespace Register

/-- Branch selection keeps the timing. -/
theorem timing_select (r : Register R) (job : Job R) (op : Op R) (lost : Bool) :
    (r.select job op lost).shot.timing = r.shot.timing := by
  refine select_cases (P := fun r' => r'.shot.timing = r.shot.timing) r job op lost rfl
    (fun _ => rfl) ?measure ?pauli1 ?pauli2 ?loss
  case measure =>
    intro _
    rw [shot_measure]
    split <;> rfl
  case pauli1 =>
    intro _
    unfold Shot.applyPauli1
    dsimp only
    split <;> rfl
  case pauli2 =>
    intro _
    unfold Shot.applyPauli2
    dsimp only
    split <;> rfl
  case loss =>
    intro _ _
    unfold Shot.applyLoss
    split <;> rfl

/-- A successful operation moves the timing by its opcode, lost qubits or not. -/
theorem timing_resolve (r : Register R) (job : Job R) {op : Op R}
    (hop : op.Harmless job.batch.qubits) (opIdx : Nat) :
    (r.resolve job op opIdx).shot.timing = r.shot.timing.next job.idle.duration op.code := by
  have hsupported : (!op.code.isKnown || op.code = .injected) = false := hop.supported
  unfold resolve
  rw [if_neg (by simp [hsupported]), if_neg (by simp [hop.valid])]
  dsimp only
  rw [Shot.timing_accrue]
  split
  · rw [Shot.timing_injectDecay, timing_select]
  · rw [timing_select]

end Register

namespace Lane

theorem timing_ready (lane : Lane R) (job : Job R) :
    (lane.ready job).timing = lane.shot.timing := by
  unfold ready Shot.takeCollation
  dsimp only
  split <;> rfl

/-- A step of a successful shot moves the timing by its opcode. -/
theorem timing_prepare {lane : Lane R} {job : Job R} (shotIdx : Nat) {op : Op R}
    (hop : job.ops[lane.shot.nextOp]? = some op) (hok : lane.shot.status = .ok)
    (hharmless : op.Harmless job.batch.qubits) :
    (lane.prepare job shotIdx).shot.timing = lane.shot.timing.next job.idle.duration op.code := by
  have hready : (lane.ready job).status = .ok := (lane.status_ready job).trans hok
  have hresolve :=
    Register.timing_resolve ⟨lane.ready job, lane.slots⟩ job hharmless lane.shot.nextOp
  rw [prepare, hop]
  dsimp only
  rw [hharmless.notReset, if_neg Bool.false_ne_true, advance_of_ok hready]
  exact hresolve.trans (by rw [timing_ready])

/-- A restart resets the timing. -/
theorem timing_prepare_of_resetAll {lane : Lane R} {job : Job R} (shotIdx : Nat) {op : Op R}
    (hop : job.ops[lane.shot.nextOp]? = some op) (hreset : op.isResetAll = true) :
    (lane.prepare job shotIdx).shot.timing = Timing.start := by
  rw [prepare_of_resetAll hop hreset]
  rfl

/-- After the remaining operations the timing is that of their timetable. -/
theorem timing_after {lane : Lane R} {job : Job R} (shotIdx : Nat) {ops : List (Op R)}
    (hops : job.ops.toList.drop lane.shot.nextOp = ops) (hok : lane.shot.status = .ok)
    (hharmless : ∀ op ∈ ops, op.Harmless job.batch.qubits) :
    (lane.after job shotIdx ops.length).shot.timing =
      (ops.map (·.code)).foldl (Timing.next job.idle.duration) lane.shot.timing := by
  induction ops generalizing lane with
  | nil => rfl
  | cons op rest ih =>
      have hop : job.ops[lane.shot.nextOp]? = some op := by
        rw [← Array.getElem?_toList, ← List.head?_drop, hops]
        rfl
      have hhere := hharmless op List.mem_cons_self
      have hnext : (lane.step job shotIdx).shot.nextOp = lane.shot.nextOp + 1 := by
        rw [shot_step, nextOp_prepare shotIdx hop]
      have hrest : job.ops.toList.drop (lane.step job shotIdx).shot.nextOp = rest := by
        rw [hnext, ← List.drop_drop, hops]
        rfl
      have hstatus : (lane.step job shotIdx).shot.status = .ok := by
        have hverdict := verdict_prepare shotIdx hop
        rw [hhere.verdictAfter_eq] at hverdict
        rw [shot_step]
        exact (congrArg Prod.fst hverdict).trans hok
      rw [List.length_cons, after, ih hrest hstatus
        (fun other hother => hharmless other (List.mem_cons_of_mem _ hother)), shot_step,
        timing_prepare shotIdx hop hok hhere]
      rfl

end Lane

/-- The elapsed time of a solo shot is the timetable of the operations behind its restart. -/
theorem Config.elapsed_soloLane (c : Config R) (pool : Pool) {stream : Stream R} {ops : List (Op R)}
    (hstream : stream.ops = .resetAll :: ops) (hharmless : ∀ op ∈ ops, op.Harmless c.qubits)
    (k : Nat) :
    (c.soloLane pool stream k).shot.elapsed =
      timetable c.idleParams.duration (ops.map (·.code)) := by
  have hlength : stream.length = ops.length + 1 := by
    have h := congrArg List.length hstream
    rwa [Stream.ops, List.length_map, List.length_cons] at h
  have hfirst : (c.soloJob pool stream k).ops[c.blankLane.shot.nextOp]? = some .resetAll := by
    rw [Config.soloJob, hstream]
    rfl
  have hstep := Lane.prepare_of_resetAll hfirst rfl 0
  have hrest : (c.soloJob pool stream k).ops.toList.drop
      (c.blankLane.step (c.soloJob pool stream k) 0).shot.nextOp = ops := by
    rw [Lane.shot_step, Lane.nextOp_prepare 0 hfirst, Config.soloJob, hstream]
    rfl
  have hok : (c.blankLane.step (c.soloJob pool stream k) 0).shot.status = .ok := by
    rw [Lane.shot_step, hstep]
    rfl
  have hafter := Lane.timing_after 0 hrest hok hharmless
  rw [Lane.shot_step, Lane.timing_prepare_of_resetAll 0 hfirst rfl] at hafter
  rw [Config.soloLane, hlength, Lane.after]
  exact congrArg Timing.elapsed hafter

end Clock

/-! ## Opcodes that take no time -/

/-- Laws of nonnegative durations. -/
class Scalar.ClockLaws (R : Type) [Scalar R] : Prop where
  zero_beq : ((0 : R) == 0) = true
  zero_nonneg : Scalar.le (0 : R) 0 = true
  le_zero : ∀ {z : R}, (z == 0) = true → Scalar.le z 0 = true
  max_zero : ∀ {d z : R}, Scalar.le 0 d = true → (z == 0) = true → Scalar.max d z = d
  nonneg_of_finite : ∀ {x : R}, Scalar.isFinite x = true → Scalar.lt x 0 = false →
    Scalar.le 0 x = true

namespace Single

open Float.Model Float.Model.UnpackedFloat

theorem value_eq_zero {z : Float32} (h : (z == 0) = true) : ∃ s, value z = .zero s := by
  rcases eq_or_zeros_of_beq h with rfl | ⟨s, _, hz, _⟩
  · exact ⟨.positive, rfl⟩
  · exact ⟨s, hz⟩

/-- A nonnegative number is at most itself and not below zero. -/
theorem compare_of_nonneg {d : Float32} (h : Scalar.le 0 d = true) (s : Sign) :
    (value d).compare (.zero s) ≠ some .lt ∧ (value d).compare (value d) = some .eq := by
  have hcompare : ((UnpackedFloat.zero .positive).compare (value d)).any (·.isLE) = true :=
    le_iff.1 h
  cases hd : value d with
  | notANumber =>
      rw [hd] at hcompare
      cases hcompare
  | zero t => exact ⟨by simp [UnpackedFloat.compare], rfl⟩
  | infinity t =>
      rw [hd] at hcompare
      cases t with
      | positive => exact ⟨by simp [UnpackedFloat.compare], rfl⟩
      | negative => cases hcompare
  | finite t m e hm =>
      rw [hd] at hcompare
      cases t with
      | positive => exact ⟨by simp [UnpackedFloat.compare], by simp [UnpackedFloat.compare]⟩
      | negative => cases hcompare

instance : Scalar.ClockLaws Float32 where
  zero_beq := by decide
  zero_nonneg := by decide
  le_zero {z} h := by
    obtain ⟨s, hz⟩ := value_eq_zero h
    rw [le_iff, hz]
    rfl
  max_zero {d z} hd hz := by
    obtain ⟨s, hvalue⟩ := value_eq_zero hz
    obtain ⟨hnot, hself⟩ := compare_of_nonneg hd s
    have hlt : Scalar.lt d z = false := by
      rw [← Bool.not_eq_true, lt_iff, hvalue]
      exact hnot
    have hle : Scalar.le d d = true := by
      rw [le_iff, hself]
      rfl
    rw [Scalar.max, hlt, hle]
    rfl
  nonneg_of_finite {x} hfinite hlt := by
    have hfin : (value x).isFinite = true := hfinite
    have hnot : ¬(value x).compare (.zero .positive) = some .lt := by
      intro h
      rw [lt_iff.2 h] at hlt
      cases hlt
    rw [le_iff]
    change ((UnpackedFloat.zero .positive).compare (value x)).any (·.isLE) = true
    cases hx : value x with
    | notANumber =>
        rw [hx] at hfin
        cases hfin
    | infinity t =>
        rw [hx] at hfin
        cases hfin
    | zero t => rfl
    | finite t m e hm =>
        rw [hx] at hnot
        cases t with
        | positive => rfl
        | negative => exact absurd rfl hnot

end Single

section Timeless

variable {R : Type} [Scalar R] [Scalar.ClockLaws R] {duration : Opcode → R}

/-- Whether an opcode is no region marker and has duration zero. -/
def timeless (duration : Opcode → R) (code : Opcode) : Bool :=
  !Timing.isMarker code && duration code == 0

/-- The longest duration of an open region is nonnegative. -/
def Timing.Nonneg (t : Timing R) : Prop := ∀ longest, t.longest = some longest →
    Scalar.le 0 longest = true

namespace Timing

omit [Scalar.ClockLaws R] in
theorem le_max {a b : R} (ha : Scalar.le 0 a = true) (hb : Scalar.le 0 b = true) :
    Scalar.le 0 (Scalar.max a b) = true := by
  unfold Scalar.max
  split
  · exact hb
  · split
    · exact ha
    · exact hb

/-- `Nonneg` is preserved by every opcode. -/
theorem Nonneg.next (hduration : ∀ code, Scalar.le 0 (duration code) = true) {t : Timing R}
    (h : t.Nonneg) (code : Opcode) : (t.next duration code).Nonneg := by
  obtain ⟨elapsed, longest⟩ := t
  intro after hafter
  cases hmarker : isMarker code with
  | false =>
      cases longest with
      | none =>
          rw [next_of_closed _ hmarker] at hafter
          cases hafter
      | some longest =>
          rw [next_of_open _ hmarker] at hafter
          obtain rfl := Option.some.inj hafter
          exact le_max (h longest rfl) (hduration code)
  | true =>
      have hcode : code = .parallelStart ∨ code = .parallelEnd := by simpa [isMarker] using hmarker
      rcases hcode with rfl | rfl
      · -- A region opens, or one is open already.
        cases longest with
        | none =>
            obtain rfl : 0 = after := Option.some.inj hafter
            exact Scalar.ClockLaws.zero_nonneg
        | some longest => exact h after hafter
      · cases longest with
        | none => cases hafter
        | some longest => cases hafter

/-- A timeless opcode keeps the timing. -/
theorem next_of_timeless {t : Timing R} (h : t.Nonneg) {code : Opcode}
    (hcode : timeless duration code = true) : t.next duration code = t := by
  rw [timeless, Bool.and_eq_true, Bool.not_eq_true'] at hcode
  obtain ⟨elapsed, longest⟩ := t
  cases longest with
  | none => rw [next_of_closed _ hcode.1, pass, if_pos (Scalar.ClockLaws.le_zero hcode.2)]
  | some longest => rw [next_of_open _ hcode.1, Scalar.ClockLaws.max_zero (h longest rfl) hcode.2]

/-- Timeless opcodes can be filtered out of a timing. -/
theorem foldl_next_filter (hduration : ∀ code, Scalar.le 0 (duration code) = true)
    {keep : Opcode → Bool} (hdrop : ∀ code, keep code = false → timeless duration code = true)
    (codes : List Opcode) {t : Timing R} (h : t.Nonneg) :
    (codes.filter keep).foldl (next duration) t = codes.foldl (next duration) t := by
  induction codes generalizing t with
  | nil => rfl
  | cons code rest ih =>
      cases hkeep : keep code with
      | true =>
          rw [List.filter_cons_of_pos hkeep, List.foldl_cons, List.foldl_cons]
          exact ih (h.next hduration code)
      | false =>
          rw [List.filter_cons_of_neg (by simp [hkeep]), List.foldl_cons,
            next_of_timeless h (hdrop code hkeep)]
          exact ih h

end Timing

/-- Timeless opcodes can be filtered out of a timetable. -/
theorem timetable_filter (hduration : ∀ code, Scalar.le 0 (duration code) = true)
    {keep : Opcode → Bool} (hdrop : ∀ code, keep code = false → timeless duration code = true)
    (codes : List Opcode) :
    timetable duration (codes.filter keep) = timetable duration codes := by
  have hstart : (Timing.start : Timing R).Nonneg := by
    intro longest h
    cases h
  rw [timetable, timetable, Timing.foldl_next_filter hduration hdrop codes hstart]

/-- A timetable depends on the timed opcodes only. -/
theorem timetable_congr (hduration : ∀ code, Scalar.le 0 (duration code) = true)
    {keep : Opcode → Bool} (hdrop : ∀ code, keep code = false → timeless duration code = true)
    {codes codes' : List Opcode} (h : codes.filter keep = codes'.filter keep) :
    timetable duration codes = timetable duration codes' := by
  rw [← timetable_filter hduration hdrop codes, h, timetable_filter hduration hdrop]

/-- The durations of a valid model are nonnegative. -/
theorem IdleModel.nonneg_of_validate {m : IdleModel R} (h : m.validate = .ok ()) (code : Opcode) :
    Scalar.le 0 (m.params.duration code) = true := by
  have hall : ∀ d ∈ m.durations.toList, Scalar.isFinite d = true ∧ Scalar.lt d 0 = false := by
    simp only [validate, bind, Except.bind, pure, Except.pure, throw, throwThe, MonadExceptOf.throw,
      ite_error_eq_ok] at h
    obtain ⟨-, -, -, -, hdurations⟩ := h
    cases hfind : m.durations.toList.find? fun d => !Scalar.isFinite d || Scalar.lt d 0 with
    | some d =>
        rw [hfind] at hdurations
        cases hdurations
    | none =>
        intro d hd
        have hd := List.find?_eq_none.1 hfind d hd
        simpa using hd
  rw [IdleParams.duration, params]
  cases hlookup : m.durations[code.toWord.toNat]? with
  | none => exact Scalar.ClockLaws.zero_nonneg
  | some d =>
      have hmem : d ∈ m.durations.toList := by
        rw [Vector.mem_toList_iff]
        exact Vector.mem_of_getElem? hlookup
      exact Scalar.ClockLaws.nonneg_of_finite (hall d hmem).1 (hall d hmem).2

/-- Noise opcodes are timeless. -/
theorem timeless_of_isNoise (p : IdleParams R) {code : Opcode} (h : code.isNoise = true) :
    timeless p.duration code = true := by
  have hcode : code = .pauli1 ∨ code = .pauli2 ∨ code = .loss := by
    revert h
    cases code <;> simp [Opcode.isNoise]
  have hbeyond : p.duration code = 0 := by rcases hcode with rfl | rfl | rfl <;> rfl
  have hmarker : Timing.isMarker code = false := by rcases hcode with rfl | rfl | rfl <;> rfl
  rw [timeless, hbeyond, hmarker, Scalar.ClockLaws.zero_beq]
  rfl

end Timeless

/-! ## The time of a woven program -/

section Woven

variable {R : Type} [Scalar R] (noise : Option (NoiseModel R))

/-- Number of identities woven in before an operation: one per operand of a joint operation, one for
a measurement, one per qubit of the circuit for a report. -/
def Op.pointsBefore (n : Nat) (op : Op R) : Nat :=
  if 1 < op.code.arity then op.code.arity
  else if op.code.isMeasurement then 1
  else if op.code = .mEveryZ then n
  else 0

/-- Number of identities woven in behind an operation: one per operand of a two-qubit operation with
loss. -/
def Op.carriersAfter (op : Op R) : Nat :=
  if op.code.arity = 2 && (noise.bind (·.tableFor? op)).any fun t => Scalar.lt 0 t.loss then 2
  else 0

/-- The opcodes an operation is charged for. A move is charged as an identity. -/
def Op.timed (n : Nat) (op : Op R) : List Opcode :=
  List.replicate (op.pointsBefore n) .id ++
    (if op.code = .move then .id else op.code) :: List.replicate (op.carriersAfter noise) .id

def withFinalReport (program : List (Op R)) : List (Op R) :=
  program ++ if program.getLast?.map (·.code) = some .mEveryZ then [] else [.mEveryZ]

/-- Of the noise operations only the identities are timed. -/
theorem codes_noiseOps (op : Op R) :
    (((noise.bind (·.noiseOps? op)).getD []).map (·.code)).filter (!·.isNoise) =
      List.replicate (op.carriersAfter noise) .id := by
  cases noise with
  | none => simp [Op.carriersAfter]
  | some m =>
      cases htable : m.tableFor? op with
      | none => simp [Op.carriersAfter, NoiseModel.noiseOps?, htable]
      | some t =>
          have hpauli : ((if t.hasPauliNoise then [NoiseModel.pauliOp op t] else []).map
              (·.code)).filter (!·.isNoise) = [] := by
            split
            · rw [NoiseModel.pauliOp]
              split <;> rfl
            · rfl
          simp only [Option.bind_some, NoiseModel.noiseOps?, htable, Option.map_some,
            Option.getD_some, List.map_append, List.filter_append, hpauli, List.nil_append,
            Op.carriersAfter, Option.any_some, NoiseModel.lossOps]
          by_cases hloss : Scalar.lt 0 t.loss = true
          · by_cases htwo : op.code.arity = 2
            · simp only [hloss, htwo, if_true, decide_true, Bool.and_true]
              rfl
            · simp only [hloss, htwo, if_true, if_false, decide_false, Bool.false_and]
              rfl
          · simp [hloss]

omit [Scalar R] in
theorem length_qubits (op : Op R) : op.qubits.length = op.code.arity := by
  have hle : op.code.arity ≤ 3 := by cases op.code <;> simp [Opcode.arity]
  rw [Op.qubits, List.length_take]
  exact Nat.min_eq_left hle

theorem codes_identities (qs : List Nat) :
    (qs.map (Op.identity : Nat → Op R)).map (·.code) = List.replicate qs.length .id := by
  rw [List.map_map]
  exact List.map_const

/-- The expansion of an operation has the timetable of its timed opcodes. -/
theorem codes_weaveOp (n : Nat) (op : Op R) :
    ((weaveOp noise true n op).map (·.code)).filter (!·.isNoise) =
      (op.timed noise n).filter (!·.isNoise) := by
  have hids : ∀ k, (List.replicate k Opcode.id).filter (!·.isNoise) = List.replicate k .id := by
    intro k
    exact List.filter_replicate_of_pos rfl
  have hadded := codes_noiseOps noise op
  rw [weaveOp, if_pos rfl, List.map_append, List.filter_append, Op.timed, List.filter_append, hids]
  unfold withNoise
  generalize (noise.bind (·.noiseOps? op)).getD [] = added at hadded ⊢
  by_cases hmeasures : op.code.isMeasurement = true
  · -- A measurement has one identity before it, for its noise or for the decay of its qubit.
    have harity : op.code.arity = 1 := by
      revert hmeasures
      cases op.code <;> simp [Opcode.isMeasurement, Opcode.arity]
    have hmove : op.code ≠ .move := by
      intro hmove
      rw [hmove] at hmeasures
      cases hmeasures
    have hcarriers : op.carriersAfter noise = 0 := by simp [Op.carriersAfter, harity]
    have hpoints : op.pointsBefore n = 1 := by simp [Op.pointsBefore, harity, hmeasures]
    rw [hcarriers] at hadded ⊢
    rw [hpoints, if_neg hmove, if_neg hmove]
    by_cases hempty : added = []
    · simp [hempty, decayPoints, harity, hmeasures, Op.identity, Op.phase1, Op.bare, Opcode.isNoise]
    · have hnoisy : (op.code.isMeasurement && !added.isEmpty) = true := by simp [hmeasures, hempty]
      have hdecay :
          decayPoints n op (decide (1 < (.identity op.q1 :: added ++ [op]).length)) = [] := by
        have hreport : op.code ≠ .mEveryZ := by
          intro hreport
          rw [hreport] at hmeasures
          cases hmeasures
        simp [decayPoints, harity, hreport]
      rw [if_pos hnoisy, hdecay, List.map_append, List.filter_append, List.map_cons,
        List.filter_cons_of_pos rfl, hadded]
      rfl
  · -- Everything else comes first and its noise behind it.
    have hpoints : ∀ noisy, (decayPoints n op noisy).map (·.code) =
        List.replicate (op.pointsBefore n) .id := by
      intro noisy
      rw [decayPoints, Op.pointsBefore]
      split
      · rw [codes_identities, length_qubits]
      · simp only [hmeasures, Bool.false_and, Bool.false_eq_true, if_false]
        split
        · rw [codes_identities, List.length_range]
        · rfl
    rw [hpoints, hids]
    simp only [hmeasures, Bool.false_and, Bool.false_eq_true, if_false, List.map_cons]
    have hcode : (if op.code = .move then { op with code := .id } else op).code =
        if op.code = .move then .id else op.code := by
      split <;> rfl
    rw [hcode, List.filter_cons, List.filter_cons, hadded, hids]

/-- Weaving maps the timetable of a program to that of its timed opcodes. -/
theorem timetable_weave [Scalar.ClockLaws R] {p : IdleParams R}
    (hduration : ∀ code, Scalar.le 0 (p.duration code) = true) (n : Nat) (program : List (Op R)) :
    timetable p.duration ((program.flatMap (weaveOp noise true n)).map (·.code)) =
      timetable p.duration (program.flatMap (Op.timed noise n)) := by
  have hdrop : ∀ code : Opcode, (!code.isNoise) = false → timeless p.duration code = true := by
    intro code hcode
    exact timeless_of_isNoise p (by simpa using hcode)
  refine timetable_congr hduration hdrop ?_
  rw [List.map_flatMap, List.filter_flatMap, List.filter_flatMap]
  congr 1
  funext op
  exact codes_weaveOp noise n op

/-- If identities and moves are timeless, an operation is charged for itself only. -/
theorem timetable_timed [Scalar.ClockLaws R] {p : IdleParams R}
    (hduration : ∀ code, Scalar.le 0 (p.duration code) = true) (n : Nat) {program : List (Op R)}
    (hid : (p.duration .id == 0) = true)
    (hmove : ∀ op ∈ program, op.code = .move → (p.duration .move == 0) = true) :
    timetable p.duration (program.flatMap (Op.timed noise n)) =
      timetable p.duration (program.map (·.code)) := by
  have hdrop : ∀ code : Opcode, (!timeless p.duration code) = false →
      timeless p.duration code = true := by
    intro code hcode
    simpa using hcode
  -- Timeless operations can be dropped from both sides.
  refine timetable_congr hduration hdrop ?_
  have hlone : timeless p.duration .id = true := by
    rw [timeless, hid]
    rfl
  have hids : ∀ k, (List.replicate k Opcode.id).filter (!timeless p.duration ·) = [] := by
    intro k
    exact List.filter_replicate_of_neg (by simp [hlone])
  have hop : ∀ op ∈ program, (op.timed noise n).filter (!timeless p.duration ·) =
      [op.code].filter (!timeless p.duration ·) := by
    intro op hmem
    rw [Op.timed, List.filter_append, hids, List.nil_append]
    by_cases hcode : op.code = .move
    · have hstill : timeless p.duration .move = true := by
        rw [timeless, hmove op hmem hcode]
        rfl
      rw [if_pos hcode, List.filter_cons_of_neg (by simp [hlone]), hids, hcode,
        List.filter_cons_of_neg (by simp [hstill])]
      rfl
    · rw [if_neg hcode, List.filter_cons, List.filter_cons, hids]
      rfl
  have hcodes : program.map (·.code) = program.flatMap fun op => [op.code] :=
    List.map_eq_flatMap
  rw [hcodes, List.filter_flatMap, List.filter_flatMap]
  exact List.flatMap_congr hop

/-! ## The stream of a program -/

/-- With idle noise, a woven program ends with a report only if the program does. -/
theorem lastCode_flatMap_weaveOp (n : Nat) (program : List (Op R)) :
    (Op.resetAll :: program.flatMap (weaveOp noise true n)).getLast?.map (·.code) = some .mEveryZ ↔
      program.getLast?.map (·.code) = some .mEveryZ := by
  rcases List.eq_nil_or_concat program with rfl | ⟨init, last, rfl⟩
  · simp [Op.resetAll, Op.bare]
  · have hne : weaveOp noise true n last ≠ [] := by
      rw [weaveOp, if_pos rfl]
      simp [withNoise_ne_nil]
    rw [List.concat_eq_append, List.flatMap_append, List.flatMap_singleton, ← List.cons_append,
      List.getLast?_append_of_ne_nil _ hne,
      List.getLast?_append_of_ne_nil _ (List.cons_ne_nil last [])]
    constructor
    · intro h
      obtain ⟨other, hother, hcode⟩ := Option.map_eq_some_iff.1 h
      rw [List.getLast?_singleton, Option.map_some,
        code_eq_of_mem_weaveOp noise (List.mem_of_getLast? hother) hcode]
    · intro h
      have hcode : last.code = .mEveryZ := Option.some.inj h
      rw [weaveOp_of_report noise n hcode,
        List.getLast?_append_of_ne_nil _ (List.cons_ne_nil last [])]
      exact h

/-- With idle noise a stream is a restart followed by the expanded program and its final report. -/
theorem ops_build_of_idle (n : Nat) (program : List (Op R)) :
    (Stream.build program noise true n).ops =
      .resetAll :: (withFinalReport program).flatMap (weaveOp noise true n) := by
  have hreport : weaveOp none true n (.mEveryZ : Op R) = weaveOp noise true n .mEveryZ := by
    rw [weaveOp_of_report none n rfl, weaveOp_of_report noise n rfl]
  rw [ops_build, withReport, withFinalReport, List.flatMap_append]
  by_cases hends : program.getLast?.map (·.code) = some .mEveryZ
  · rw [if_pos hends, if_pos ((lastCode_flatMap_weaveOp noise n program).2 hends)]
    rfl
  · rw [if_neg hends, if_neg (mt (lastCode_flatMap_weaveOp noise n program).1 hends),
      List.flatMap_singleton, hreport]
    rfl

end Woven

/-! ## The clock of a run -/

section Run

variable {R : Type} [Scalar R] [Scalar.ClockLaws R]

omit [Scalar.ClockLaws R] in
theorem Config.idle_of_validate {c : Config R} (h : c.validate = .ok ()) {m : IdleModel R}
    (hm : c.idle = some m) : m.validate = .ok () := by
  simp only [validate, bind, Except.bind, pure, Except.pure, throw, throwThe, MonadExceptOf.throw,
    ite_error_eq_ok] at h
  obtain ⟨-, -, -, -, -, hmodels⟩ := h
  rw [hm] at hmodels
  -- The noise model is checked first.
  have hidle : (m.validate.mapError fun e => SimError.noise (.idle e)) = .ok () := by
    cases hnoise : c.noise with
    | none =>
        rw [hnoise] at hmodels
        exact hmodels
    | some noise =>
        rw [hnoise] at hmodels
        dsimp only at hmodels
        cases hvalid : noise.validate with
        | ok u =>
            rw [hvalid] at hmodels
            exact hmodels
        | error e =>
            rw [hvalid] at hmodels
            cases hmodels
  cases hvalidate : m.validate with
  | ok u => rfl
  | error e =>
      rw [hvalidate] at hidle
      cases hidle

/-- The elapsed time of a solo shot in terms of the program. -/
theorem Config.elapsed_of_program {c : Config R} (hvalid : c.validate = .ok ()) {m : IdleModel R}
    (hidle : c.idle = some m) {program : List (Op R)}
    (hprogram : c.validateProgram program = .ok ())
    (hclean : ∀ op ∈ program, op.isResetAll = false ∧ op.isUnsupported = false) (pool : Pool)
    (k : Nat) :
    (c.soloLane pool (Stream.build program c.noise true c.qubits) k).shot.elapsed =
      timetable m.params.duration
        ((withFinalReport program).flatMap (Op.timed c.noise c.qubits)) := by
  have hnoise := (Config.checked_of_validate hvalid).noise
  have hsubmitted : ∀ op ∈ withFinalReport program, op.Harmless c.qubits := by
    intro op hop
    rcases List.mem_append.1 hop with hmem | hreport
    · exact (Config.admitted_of_validateProgram hprogram op hmem).harmless (hclean op hmem).1
        (hclean op hmem).2
    · split at hreport
      · cases hreport
      · obtain rfl := List.mem_singleton.1 hreport
        exact ⟨rfl, rfl, rfl⟩
  have hharmless : ∀ op ∈ (withFinalReport program).flatMap (weaveOp c.noise true c.qubits),
      op.Harmless c.qubits := by
    intro op hop
    obtain ⟨source, hsource, hwoven⟩ := List.mem_flatMap.1 hop
    exact harmless_weaveOp hnoise true (hsubmitted source hsource) op hwoven
  have hparams : c.idleParams = m.params := by rw [Config.idleParams, hidle]; rfl
  rw [c.elapsed_soloLane pool (ops_build_of_idle c.noise c.qubits program) hharmless, hparams]
  exact timetable_weave c.noise
    (IdleModel.nonneg_of_validate (Config.idle_of_validate hvalid hidle))
    c.qubits _

/-- All shots of a run have the same elapsed time. -/
theorem Runs.elapsed_eq {program : List (Op R)} {c : Config R} {host : Host R}
    (h : Runs program c host) {m : IdleModel R} (hidle : c.idle = some m)
    (hclean : ∀ op ∈ program, op.isResetAll = false ∧ op.isUnsupported = false) :
    ∃ results, (runProgram program c host).result = .ok results ∧
      results.shots.map (·.elapsed) = List.replicate c.shots (timetable m.params.duration
        ((withFinalReport program).flatMap (Op.timed c.noise c.qubits))) := by
  obtain ⟨results, hresult, hshots, _⟩ := h.exists_results rfl
  have hsome : c.idle.isSome = true := by rw [hidle]; rfl
  refine ⟨results, hresult, ?_⟩
  rw [hshots, List.map_map, List.eq_replicate_iff]
  refine ⟨by rw [List.length_map, List.length_range], ?_⟩
  intro time htime
  obtain ⟨k, _, rfl⟩ := List.mem_map.1 htime
  rw [hsome]
  exact Config.elapsed_of_program h.checked hidle h.admitted hclean host.pool k

end Run

/-- The elapsed time of every shot is the timetable of the submitted operations and the final
report, where each operation is charged for the identities that weaving adds to it and a move is
charged as an identity. If identities take no time, and moves take none or do not occur, it is the
timetable of the submitted operations themselves. -/
theorem clock_follows_timed_operations {program : List (Op Float32)} {c : Config Float32}
    {host : Host Float32} (h : Runs program c host) {m : IdleModel Float32}
    (hidle : c.idle = some m)
    (hclean : ∀ op ∈ program, op.isResetAll = false ∧ op.isUnsupported = false) :
    ∃ results, (runProgram program c host).result = .ok results ∧ results.shots.length = c.shots ∧
      ∀ shot ∈ results.shots,
        shot.elapsed = timetable m.params.duration
          ((withFinalReport program).flatMap (Op.timed c.noise c.qubits)) ∧
        ((m.params.duration .id == 0) = true →
          (∀ op ∈ program, op.code = .move → (m.params.duration .move == 0) = true) →
          shot.elapsed = timetable m.params.duration ((withFinalReport program).map (·.code))) := by
  obtain ⟨results, hresult, htimes⟩ := h.elapsed_eq hidle hclean
  obtain ⟨hlength, hall⟩ := List.eq_replicate_iff.1 htimes
  refine ⟨results, hresult, by rwa [List.length_map] at hlength, ?_⟩
  intro shot hshot
  have helapsed := hall _ (List.mem_map_of_mem hshot)
  refine ⟨helapsed, fun hid hmove => helapsed.trans ?_⟩
  have hnonneg := IdleModel.nonneg_of_validate (Config.idle_of_validate h.checked hidle)
  refine timetable_timed c.noise hnonneg c.qubits hid ?_
  intro op hop hcode
  rcases List.mem_append.1 hop with hmem | hreport
  · exact hmove op hmem hcode
  · split at hreport
    · cases hreport
    · obtain rfl := List.mem_singleton.1 hreport
      cases hcode

def timedPair (durations : List (Opcode × Float32)) : Config Float32 :=
  { Config.standard with
    qubits := 2
    idle := some (durations.foldl (fun m (code, time) => m.withDuration code time)
      (.ofTimes 100 100 1)) }

/-- A region lasts as long as its longest operation. -/
theorem clock_follows_timed_operations_region :
    ∃ results, (runProgram [.x 0, .parallelStart, .x 1, .cx 0 1, .parallelEnd, .move 0]
        (timedPair [(.x, 1), (.cx, 2)]) .empty).result = .ok results ∧
      results.shots.length = 1 ∧ ∀ shot ∈ results.shots, shot.elapsed = 3 := by
  have hruns : Runs [.x 0, .parallelStart, .x 1, .cx 0 1, .parallelEnd, .move 0]
      (timedPair [(.x, 1), (.cx, 2)]) .empty := ⟨rfl, rfl, ⟨_, rfl⟩, by decide⟩
  obtain ⟨results, hresult, hlength, hshots⟩ := clock_follows_timed_operations hruns rfl (by decide)
  refine ⟨results, hresult, hlength, fun shot hshot => ?_⟩
  have htime := (hshots shot hshot).2 (by decide) (by decide)
  exact htime.trans (by decide +kernel)

/-- The timetable of the submitted operations is not enough: a joint operation of duration two takes
six with its decay points, and a move of duration three takes none. -/
theorem identities_take_time :
    (∃ results,
      (runProgram [.cx 0 1] (timedPair [(.id, 1), (.cx, 2)]) .empty).result = .ok results ∧
      results.shots.map (·.elapsed) = [6] ∧
      timetable (timedPair [(.id, 1), (.cx, 2)]).idleParams.duration [.cx, .mEveryZ] = 2) ∧
    ∃ results, (runProgram [.move 0] (timedPair [(.move, 3)]) .empty).result = .ok results ∧
      results.shots.map (·.elapsed) = [0] ∧
      timetable (timedPair [(.move, 3)]).idleParams.duration [.move, .mEveryZ] = 3 := by
  have hjoint : Runs [.cx 0 1] (timedPair [(.id, 1), (.cx, 2)]) .empty :=
    ⟨rfl, rfl, ⟨_, rfl⟩, by decide⟩
  have hmove : Runs [.move 0] (timedPair [(.move, 3)]) .empty := ⟨rfl, rfl, ⟨_, rfl⟩, by decide⟩
  obtain ⟨joint, hjointResult, hjointTimes⟩ := hjoint.elapsed_eq rfl (by decide)
  obtain ⟨move, hmoveResult, hmoveTimes⟩ := hmove.elapsed_eq rfl (by decide)
  exact ⟨⟨joint, hjointResult, hjointTimes.trans (by decide +kernel), by decide +kernel⟩,
    move, hmoveResult, hmoveTimes.trans (by decide +kernel), by decide +kernel⟩

end ShotSim
