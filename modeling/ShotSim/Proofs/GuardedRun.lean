import Mathlib.Data.List.Basic
import ShotSim.Proofs.GuardedMachine
import ShotSim.Proofs.GuardedStream
import ShotSim.Proofs.Isolation

/-!
# Guarded runs — a checked run never leaves its arrays and words

A run weaves its stream, numbers the shots of its batches, steps the machine through all of them,
and picks the results of each shot out of the long arrays that a batch gives back.  Here the whole
run is made with checked indices, from the refusal of a bad configuration to the last amplitude of
the last shot.  For every session the outcome is the one that is computed without any check.

* `Plan.InRange` — what a run relies on about its plan, and `inRange_of_make`: every plan has it;
* `Guarded.batchesFrom_eq` — the shots of the batches;
* `Guarded.region_eq`, `Guarded.collect_eq` — the results;
* `runs_stay_in_range` — the whole run.
-/

namespace ShotSim

variable {R : Type} [Scalar R]

/-! ## Plans -/

structure Config.InWords {R : Type} (c : Config R) : Prop where
  shots : c.shots < 2 ^ wordBits
  resultCount : c.resultCount < 2 ^ wordBits

/-- Bounds of a plan that a run relies on. -/
structure Plan.InRange (p : Plan) : Prop where
  tiled : ∃ e w, p.layout.Tiled e w
  layout : p.layout.qubitCount ≤ maxQubitCount
  room : p.circuitQubits ≤ p.layout.qubitCount
  shots : p.shots < 2 ^ wordBits
  shotsPerBatch_pos : 0 < p.shotsPerBatch
  shotsPerBatch : p.shotsPerBatch < 2 ^ wordBits
  batches : p.batches = (p.shots + p.shotsPerBatch - 1) / p.shotsPerBatch
  ops : p.ops < 2 ^ wordBits
  resultsPerShot_pos : 0 < p.resultsPerShot
  resultsPerShot : p.resultsPerShot < 2 ^ wordBits
  resultCount : p.resultCount < 2 ^ wordBits

theorem Config.resultsPerShot_pos_of_validate {c : Config R} (h : c.validate = .ok ()) :
    0 < c.resultsPerShot := by
  simp only [validate, bind, Except.bind, pure, Except.pure, throw, throwThe, MonadExceptOf.throw,
    ite_error_eq_ok] at h
  exact Nat.pos_of_ne_zero h.2.2.2.1

namespace Plan

omit [Scalar R] in
/-- The buffers of an accepted plan are within bounds. -/
theorem sizes_of_make {c : Config R} {ops : Nat} {plan : Plan} (h : make c ops = .ok plan) :
    plan.resultsPerShot * recordSize ≤ maxBufferSize ∧ plan.shotsPerBatch ≤ max 1 plan.shots := by
  simp only [make, bind, Except.bind, pure, Except.pure, throw, throwThe, MonadExceptOf.throw,
    ite_error_eq_ok, Except.ok.injEq] at h
  obtain ⟨_, hresults, _, _, rfl⟩ := h
  refine ⟨Nat.le_of_not_lt hresults, ?_⟩
  dsimp only [batchSize]
  omega

/-- An accepted plan for a configuration in words satisfies `InRange`. -/
theorem inRange_of_make {c : Config R} (hconfig : c.validate = .ok ()) (hwords : c.InWords)
    {ops : Nat} {plan : Plan} (h : make c ops = .ok plan) : plan.InRange := by
  have hchecked := Config.checked_of_validate hconfig
  have hrecords := Config.resultsPerShot_pos_of_validate hconfig
  obtain ⟨hbuffer, hsize⟩ := sizes_of_make h
  obtain ⟨hqubits, hlayout, hcount, hper, hshots, hops, hmax, hpos, hbatches⟩ := make_eq_ok h
  have hpadded : plan.layout.qubitCount = max c.qubits minQubitCount := by
    rw [hlayout]
    rfl
  have hminimum : minQubitCount ≤ maxQubitCount := by decide
  have hle := hchecked.qubits_le
  have hshot := hwords.shots
  -- The limits on buffers keep all other counts below the size of a word.
  have hword : maxOps < 2 ^ wordBits ∧ maxBufferSize < 2 ^ wordBits ∧ 1 < 2 ^ wordBits := by decide
  refine
    { tiled := ?_
      layout := by omega
      room := by omega
      shots := by omega
      shotsPerBatch_pos := hpos
      shotsPerBatch := by omega
      batches := hbatches
      ops := by omega
      resultsPerShot_pos := by omega
      resultsPerShot := ?_
      resultCount := by rw [hcount]; exact hwords.resultCount }
  · rw [hlayout]
    exact Layout.exists_tiled_ofCircuit c.qubits hchecked.perWorkgroup_ge hchecked.perWorkgroup_le
  · rw [recordSize] at hbuffer
    omega

/-- Every batch ends within the shots of the run. -/
theorem lt_shots_of_mem_batchRanges {p : Plan} (h : p.InRange) {range : Nat × Nat}
    (hrange : range ∈ p.batchRanges) {i : Nat} (hi : i < range.2) : range.1 + i < p.shots := by
  rw [← List.mem_range, ← flatMap_batchRanges h.shotsPerBatch_pos h.batches]
  exact List.mem_flatMap.2 ⟨range, hrange, List.mem_range'_1.2 ⟨by omega, by omega⟩⟩

end Plan

namespace Guarded

/-- First shot and number of shots of each batch. The end of a batch has to fit a word as well. -/
def batchesFrom (p : Plan) : Nat → Nat → Nat → Guarded (List (Nat × Nat))
  | 0, _, _ => return []
  | count + 1, index, remaining => do
    let now := min remaining p.shotsPerBatch
    let first ← fit wordBits (index * p.shotsPerBatch)
    discard (fit wordBits (first + now))
    let rest ← batchesFrom p count (index + 1) (← sub remaining now)
    return (first, now) :: rest

/-- Numbering batches subtracts only shots that remain. -/
theorem batchesFrom_eq {p : Plan} {count index remaining : Nat}
    (hcount : count * p.shotsPerBatch < remaining + p.shotsPerBatch)
    (hwords : 0 < count → index * p.shotsPerBatch + remaining < 2 ^ wordBits) :
    batchesFrom p count index remaining = .ok (p.batchesFrom count index remaining) := by
  induction count generalizing index remaining with
  | zero => rfl
  | succ count ih =>
      have hfits := hwords (Nat.succ_pos count)
      rw [Nat.succ_mul] at hcount
      have hrest : batchesFrom p count (index + 1) (remaining - min remaining p.shotsPerBatch) =
          .ok (p.batchesFrom count (index + 1) (remaining - min remaining p.shotsPerBatch)) := by
        apply ih (by omega)
        intro hmore
        -- Another batch follows, so this one is full.
        have hfull : p.shotsPerBatch ≤ count * p.shotsPerBatch := Nat.le_mul_of_pos_left _ hmore
        rw [Nat.succ_mul]
        omega
      rw [batchesFrom, fit_of_lt (by omega), ok_bind, fit_of_lt (by omega),
        sub_of_le (Nat.min_le_left _ _)]
      change (batchesFrom p count (index + 1) _ >>= _) = _
      rw [hrest]
      rfl

/-- The batches of a plan are numbered without a breach. -/
theorem batchRanges_eq {p : Plan} (h : p.InRange) :
    batchesFrom p p.batches 0 p.shots = .ok p.batchRanges := by
  have hcount : p.batches * p.shotsPerBatch < p.shots + p.shotsPerBatch := by
    have hle := Nat.div_mul_le_self (p.shots + p.shotsPerBatch - 1) p.shotsPerBatch
    have hpos := h.shotsPerBatch_pos
    rw [h.batches]
    omega
  apply batchesFrom_eq hcount
  intro _
  rw [Nat.zero_mul, Nat.zero_add]
  exact h.shots

end Guarded

/-! ## Machines between batches -/

/-- The buffers of the machine are those of a plan. -/
structure Machine.Carries (m : Machine R) (p : Plan) : Prop where
  layout : m.layout = p.layout
  resultsPerShot : m.resultsPerShot = p.resultsPerShot
  resultCount : m.resultCount = p.resultCount
  ops : m.ops.size = p.ops
  lanes : m.lanes.size = p.shotsPerBatch
  fits : m.Fits

/-- A batch of a plan: its qubits, at most `shotsPerBatch` shots, and ids that fit words. -/
structure Batch.Of (batch : Batch R) (p : Plan) : Prop where
  qubits : batch.qubits = p.circuitQubits
  shots : batch.shots ≤ p.shotsPerBatch
  ids : ∀ i < batch.shots, batch.firstShot.toNat + i < 2 ^ wordBits

namespace Machine.Carries

variable {m : Machine R} {p : Plan} (h : m.Carries p) (hplan : p.InRange) {batch : Batch R}
  (hbatch : batch.Of p)

include h hplan hbatch

/-- A batch begins with buffers of the planned sizes. -/
theorem sized_beginBatch : (m.beginBatch batch).Sized := by
  obtain ⟨e, w, ht⟩ := hplan.tiled
  have hroom := hplan.room
  refine
    { tiled := ⟨e, w, by rw [beginBatch, h.layout]; exact ht⟩
      qubits := by rw [beginBatch, h.layout]; exact hplan.layout
      room := by rw [beginBatch, h.layout, hbatch.qubits]; exact hplan.room
      fits := ?_
      records := by rw [beginBatch, h.resultsPerShot]; exact hplan.resultsPerShot_pos
      shots := by rw [beginBatch, Array.size_map, h.lanes]; exact hbatch.shots
      ids := hbatch.ids
      ops := by rw [beginBatch, h.ops]; exact hplan.ops }
  intro lane hlane
  obtain ⟨old, hold, rfl⟩ := Array.mem_map.1 hlane
  exact (h.fits old hold).begun

/-- A batch preserves `Carries`. -/
theorem run_beginBatch (count : Nat) : ((m.beginBatch batch).run count).Carries p := by
  obtain ⟨hops, _, hlayout, hper, hcount, _, hsize⟩ := m.run_beginBatch_frame batch count
  obtain ⟨e, w, ht⟩ := hplan.tiled
  have htiled : m.layout.Tiled e w := h.layout ▸ ht
  have hroom : batch.qubits ≤ m.layout.qubitCount := by
    rw [h.layout, hbatch.qubits]
    exact hplan.room
  exact
    { layout := hlayout.trans h.layout
      resultsPerShot := hper.trans h.resultsPerShot
      resultCount := hcount.trans h.resultCount
      ops := by rw [hops, h.ops]
      lanes := hsize.trans h.lanes
      fits := fits_run_beginBatch htiled h.fits count }

end Machine.Carries

/-! ## Results -/

/-- The output of a batch has the sizes of its plan. -/
structure BatchOutput.Sized (out : BatchOutput R) (p : Plan) : Prop where
  shots : out.shots.length ≤ p.shotsPerBatch
  logs : out.logs.length = out.shots.length
  slots : out.slots.length = out.shots.length
  records : ∀ log ∈ out.logs, log.slots.size = p.resultsPerShot
  results : ∀ slots ∈ out.slots, slots.length = p.resultCount
  states : ∀ blocks, out.states = some blocks →
    blocks.length = out.shots.length ∧ ∀ block ∈ blocks, block.size = p.layout.entriesPerShot

omit [Scalar R] in
/-- The output of a batch has the planned sizes. -/
theorem Machine.Carries.sized_read {m : Machine R} {p : Plan} (h : m.Carries p)
    (hshots : m.batch.shots ≤ p.shotsPerBatch) (capture : Bool) : (m.read capture).Sized p := by
  have hmem : ∀ lane ∈ m.active, lane.Fits p.layout p.resultsPerShot p.resultCount := by
    intro lane hlane
    have hfits := h.fits lane (Array.mem_toList_iff.1 (List.mem_of_mem_take hlane))
    rwa [h.layout, h.resultsPerShot, h.resultCount] at hfits
  have hlength : m.active.length ≤ p.shotsPerBatch := (List.length_take_le _ _).trans hshots
  refine
    { shots := by simpa [read] using hlength
      logs := by simp [read]
      slots := by simp [read]
      records := ?_
      results := ?_
      states := ?_ }
  · intro log hlog
    obtain ⟨lane, hlane, rfl⟩ := List.mem_map.1 hlog
    exact (hmem lane hlane).room
  · intro slots hslots
    obtain ⟨lane, hlane, rfl⟩ := List.mem_map.1 hslots
    have hsize := (hmem lane hlane).slots
    have hcount := h.resultCount
    rw [List.length_take, Array.length_toList]
    omega
  · intro blocks hblocks
    cases capture with
    | false => cases hblocks
    | true =>
        cases hblocks
        refine ⟨by simp [read], ?_⟩
        intro block hblock
        obtain ⟨lane, hlane, rfl⟩ := List.mem_map.1 hblock
        exact (hmem lane hlane).block

namespace Guarded

def readBack (m : Machine R) (capture : Bool) : Guarded (BatchOutput R) := do
  demand (m.batch.shots ≤ m.lanes.size) (.range m.lanes.size 0 m.batch.shots)
  let slots ← m.active.mapM fun lane => do return (← slice lane.slots 0 m.resultCount).toList
  return { m.read capture with slots := slots }

/-- The first `count` elements of piece `i` of a list cut into pieces of `size`. -/
def region {α : Type} (stretches : List (List α)) (size i count : Nat) : Guarded (List α) := do
  let start ← fit indexBits (i * size)
  let stop ← fit indexBits (start + count)
  return (← slice stretches.flatten.toArray start stop).toList

def shotResult (stream : Stream R) (p : Plan) (out : BatchOutput R) (i : Nat) (shot : Shot R) :
    Guarded (ShotResult R) := do
  let log ← item out.logs i
  -- The cursor counts reports that found no room as well.
  let kept := min log.cursor.toNat p.resultsPerShot
  let records ← region (out.logs.map (·.slots.toList)) p.resultsPerShot i kept
  let measurements ← region out.slots p.resultCount i p.resultCount
  return { RunResults.shotResult stream p.circuitQubits shot log measurements with
    records := records.mergeSort fun a b => decide (a.index ≤ b.index) }

def batchResults (stream : Stream R) (p : Plan) (out : BatchOutput R) :
    Guarded (List (ShotResult R)) :=
  out.shots.zipIdx.mapM fun (shot, i) => shotResult stream p out i shot

def batchStates (p : Plan) (entries : Nat) (out : BatchOutput R) :
    Guarded (List (Array (Cplx R))) :=
  match out.states with
  | none => return []
  | some blocks =>
    blocks.zipIdx.mapM fun (_, i) => do
      return (← region (blocks.map (·.toList)) p.layout.entriesPerShot i entries).toArray

def collect (stream : Stream R) (p : Plan) (capture : Bool) (device : String)
    (outs : List (BatchOutput R)) : Guarded (RunResults R) := do
  let entries ← shl indexBits 1 p.circuitQubits
  let shots := (← outs.mapM (batchResults stream p)).flatten
  let states := (← outs.mapM (batchStates p entries)).flatten
  return {
    shots := shots
    states := if capture then some states else none
    success := shots.all (·.status.isOk)
    device := device }

omit [Scalar R] in
/-- Reading a batch back is within bounds. -/
theorem readBack_eq {m : Machine R} (hshots : m.batch.shots ≤ m.lanes.size) (hfits : m.Fits)
    (capture : Bool) : readBack m capture = .ok (m.read capture) := by
  have hslots : (m.active.mapM fun lane => do return (← slice lane.slots 0 m.resultCount).toList) =
      .ok (m.active.map fun lane => lane.slots.toList.take m.resultCount) := by
    apply mapM_eq
    intro lane hlane
    have hsize := (hfits lane (Array.mem_toList_iff.1 (List.mem_of_mem_take hlane))).slots
    rw [slice_of_le (Nat.zero_le _) (by omega), ok_bind, Array.toList_extract,
      List.extract_eq_take_drop]
    rfl
  rw [readBack, demand_of hshots, ok_bind, hslots, ok_bind]
  rfl

/-- Sublists of one size start at its multiples in the flattened list. -/
theorem flatten_split {α : Type} {stretches : List (List α)} {size : Nat}
    (hsize : ∀ xs ∈ stretches, xs.length = size) {i : Nat} {xs : List α}
    (hi : stretches[i]? = some xs) :
    ∃ before rest, stretches.flatten = before ++ (xs ++ rest) ∧ before.length = i * size := by
  induction stretches generalizing i with
  | nil => cases hi
  | cons first others ih =>
      cases i with
      | zero =>
          cases hi
          exact ⟨[], others.flatten, rfl, by simp⟩
      | succ i =>
          obtain ⟨before, rest, hsplit, hlength⟩ :=
            ih (fun ys hys => hsize ys (List.mem_cons_of_mem _ hys)) hi
          refine ⟨first ++ before, rest, ?_, ?_⟩
          · rw [List.flatten_cons, hsplit, List.append_assoc]
          · rw [List.length_append, hlength, hsize first List.mem_cons_self, Nat.succ_mul,
              Nat.add_comm]

/-- Region `i` of a flat buffer is its `i`-th sublist. -/
theorem region_eq {α : Type} {stretches : List (List α)} {size : Nat}
    (hsize : ∀ xs ∈ stretches, xs.length = size) (hword : size < 2 ^ wordBits)
    (hlength : stretches.length < 2 ^ wordBits) {i : Nat} {xs : List α}
    (hi : stretches[i]? = some xs) {count : Nat} (hcount : count ≤ size) :
    region stretches size i count = .ok (xs.take count) := by
  obtain ⟨before, rest, hsplit, hbefore⟩ := flatten_split hsize hi
  have hxs : xs.length = size := hsize xs (List.mem_of_getElem? hi)
  -- The last index of the array is a product of two words.
  have hproduct : i * size + size < 2 ^ indexBits := by
    have hlt : i < stretches.length := (List.getElem?_eq_some_iff.1 hi).1
    have hmul : (i + 1) * size ≤ 2 ^ wordBits * size := Nat.mul_le_mul_right _ (by omega)
    rw [Nat.succ_mul] at hmul
    simp only [wordBits, indexBits] at *
    omega
  have hstop : i * size + count ≤ stretches.flatten.toArray.size := by
    rw [List.size_toArray, hsplit, List.length_append, List.length_append, hbefore, hxs]
    omega
  rw [region, fit_of_lt (by omega), ok_bind, fit_of_lt (by omega), ok_bind,
    slice_of_le (Nat.le_add_right _ _) hstop, ok_bind, Array.toList_extract,
    List.extract_eq_take_drop, hsplit, List.drop_left' hbefore, Nat.add_sub_cancel_left,
    List.take_append_of_le_length (by omega)]
  rfl

section Results

variable {p : Plan} (hplan : p.InRange) {out : BatchOutput R} (hout : out.Sized p)

include hplan hout

omit [Scalar R] in
theorem length_lt : out.shots.length < 2 ^ wordBits :=
  Nat.lt_of_le_of_lt hout.shots hplan.shotsPerBatch

omit [Scalar R] in
/-- The result of a shot is read within bounds. -/
theorem shotResult_eq (stream : Stream R) {i : Nat} {log : ReportLog R} {slots : List Outcome}
    (hlog : out.logs[i]? = some log) (hslots : out.slots[i]? = some slots) (shot : Shot R) :
    shotResult stream p out i shot =
      .ok (RunResults.shotResult stream p.circuitQubits shot log slots) := by
  have hlength := length_lt hplan hout
  have hroom : log.slots.toList.length = p.resultsPerShot :=
    hout.records log (List.mem_of_getElem? hlog)
  have hcount : slots.length = p.resultCount := hout.results slots (List.mem_of_getElem? hslots)
  have hitem : item out.logs i = .ok log := read_of_some (by rw [List.getElem?_toArray, hlog])
  have hrecords : region (out.logs.map (·.slots.toList)) p.resultsPerShot i
      (min log.cursor.toNat p.resultsPerShot) =
        .ok (log.slots.toList.take (min log.cursor.toNat p.resultsPerShot)) := by
    apply region_eq _ hplan.resultsPerShot _ _ (Nat.min_le_right _ _)
    · intro xs hxs
      obtain ⟨other, hother, rfl⟩ := List.mem_map.1 hxs
      exact hout.records other hother
    · rw [List.length_map, hout.logs]
      exact hlength
    · rw [List.getElem?_map, hlog]
      rfl
  have hmeasured :=
    region_eq hout.results hplan.resultCount (by rw [hout.slots]; exact hlength) hslots
    (Nat.le_refl p.resultCount)
  rw [shotResult, hitem, ok_bind]
  dsimp only
  rw [hrecords, ok_bind, hmeasured, ok_bind, ← hcount, List.take_length, ← hroom,
    ← List.take_eq_take_min]
  rfl

omit [Scalar R] in
/-- The results of a batch are read within bounds. -/
theorem batchResults_eq (stream : Stream R) :
    batchResults stream p out = .ok (RunResults.batchResults stream p.circuitQubits out) := by
  apply mapM_zipIdx_eq
  · simp [RunResults.batchResults, hout.logs, hout.slots]
  · intro i shot result hshot hresult
    rw [RunResults.batchResults, List.getElem?_map, Option.map_eq_some_iff] at hresult
    obtain ⟨⟨shot', log, slots⟩, hzip, hsame⟩ := hresult
    obtain ⟨hshot', hrest⟩ := List.getElem?_zip_eq_some.1 hzip
    obtain ⟨hlog, hslots⟩ := List.getElem?_zip_eq_some.1 hrest
    rw [hshot, Option.some.injEq] at hshot'
    dsimp only at hshot' hlog hslots hsame ⊢
    rw [Nat.zero_add, shotResult_eq hplan hout stream hlog hslots shot, ← hsame, hshot']

omit [Scalar R] in
/-- The captured states of a batch are read within bounds. -/
theorem batchStates_eq {entries : Nat} (hentries : entries ≤ p.layout.entriesPerShot) :
    batchStates p entries out =
      .ok ((out.states.getD []).map fun block => block.extract 0 entries) := by
  unfold batchStates
  cases hstates : out.states with
  | none => rfl
  | some blocks =>
      obtain ⟨hlength, hsize⟩ := hout.states blocks hstates
      have hshots := length_lt hplan hout
      have hword : p.layout.entriesPerShot < 2 ^ wordBits :=
        Nat.pow_lt_pow_right (by omega) (Nat.lt_of_le_of_lt hplan.layout (by decide))
      -- Both sides are maps over the same blocks, so one block is enough.
      apply mapM_zipIdx_eq
      · simp
      · intro i block cut hblock hcut
        have hregion : region (blocks.map (·.toList)) p.layout.entriesPerShot (0 + i) entries =
            .ok (block.toList.take entries) := by
          rw [Nat.zero_add]
          apply region_eq _ hword _ _ hentries
          · intro xs hxs
            obtain ⟨other, hother, rfl⟩ := List.mem_map.1 hxs
            exact hsize other hother
          · rw [List.length_map, hlength]
            exact hshots
          · rw [List.getElem?_map, hblock]
            rfl
        rw [Option.getD_some, List.getElem?_map, hblock, Option.map_some, Option.some.injEq] at hcut
        dsimp only
        rw [hregion, ok_bind, ← hcut]
        apply congrArg Except.ok
        apply Array.toList_inj.1
        rw [Array.toList_extract, List.extract_eq_take_drop]
        rfl

end Results

omit [Scalar R] in
/-- The results of all batches are collected within bounds. -/
theorem collect_eq {p : Plan} (hplan : p.InRange) (stream : Stream R) (capture : Bool)
    (device : String) {outs : List (BatchOutput R)} (houts : ∀ out ∈ outs, out.Sized p) :
    collect stream p capture device outs =
      .ok (RunResults.collect stream p capture device outs) := by
  have hshift : p.circuitQubits < indexBits :=
    Nat.lt_of_le_of_lt (hplan.room.trans hplan.layout) (by decide)
  have hentries : 2 ^ p.circuitQubits ≤ p.layout.entriesPerShot :=
    Nat.pow_le_pow_right (by omega) hplan.room
  have hshots := mapM_eq fun out hout => batchResults_eq hplan (houts out hout) stream
  have hstates := mapM_eq fun out hout => batchStates_eq hplan (houts out hout) hentries
  rw [collect, shl_one hshift, ok_bind, Nat.one_shiftLeft, hshots, ok_bind, hstates, ok_bind,
    RunResults.collect]
  simp only [List.flatMap_def]
  rfl

/-! ## The whole run -/

def runBatches (config : Config R) (p : Plan) :
    List (Nat × Nat) → Nat → Machine R → Guarded (Machine R × List (BatchOutput R) × List LogLine)
  | [], _, m => return (m, [], [])
  | (first, shots) :: rest, index, m => do
    let m := m.beginBatch ⟨UInt32.ofNat first, config.seed, shots, p.circuitQubits,
      config.threshold⟩
    let m ← runSteps m p.ops
    let line : LogLine := ⟨.debug, s!"batch {index}: shots {first}..{first + shots}"⟩
    let out ← readBack m config.capture
    let (m, outs, lines) ← runBatches config p rest (index + 1) m
    return (m, out :: outs, line :: lines)

/-- Runs a stream. Batch sizes come from a division, and steps are counted modulo
`stepsPerSubmission`. -/
def runStream (s : Session R) (stream : Stream R) (host : Host R) :
    Guarded (Session R × RunOutcome R) :=
  match Plan.makeChecked s.config stream.length with
  | .error (.refused e) => return (s, ⟨.error e, []⟩)
  | .error (.fault cause) => .error (.fault cause)
  | .ok p =>
    let opening := Session.openingLines p host.toEnvironment
    if host.resolve s.config.backend = .gpu then
      let outcome := host.runOnGpu stream p s.config
      return (s, ⟨outcome.result, opening ++ outcome.log⟩)
    else do
      let fallback := if host.backendOr s.config.backend = .auto then [Session.fallbackLine] else []
      demand (0 < host.stepsPerSubmission) (.fault .divisionByZero)
      let ranges ← batchesFrom p p.batches 0 p.shots
      let m := { s.machine with pool := host.pool }
      let m := (m.load stream.ops s.config.idleParams).prepareRun p
      let (m, outs, lines) ← runBatches s.config p ranges 0 m
      let name := Machine.name host.pool
      let results ← collect stream p s.config.capture name outs
      return ({ s with machine := m },
        ⟨.ok results,
          opening ++ fallback ++ lines ++ [⟨.info, "ran on " ++ name⟩] ++
            Session.failureLines results ++ Session.truncationLines results⟩)

def sessionStream (s : Session R) : Guarded (Stream R) :=
  match s.stream with
  | some stream => return stream
  | none => build s.program s.config.noise s.config.idle.isSome s.config.qubits

def run (s : Session R) (host : Host R) : Guarded (Session R × RunOutcome R) :=
  match s.config.validate, s.config.validateProgram s.program with
  | .error e, _ => return (s, ⟨.error e, []⟩)
  | .ok _, .error e => return (s, ⟨.error e, []⟩)
  | .ok _, .ok _ => do
    let stream ← sessionStream s
    runStream { s with stream := some stream } stream host

/-- The batches of a plan run without a breach. -/
theorem runBatches_eq (config : Config R) {p : Plan} (hplan : p.InRange) {ranges : List (Nat × Nat)}
    (hranges : ∀ range ∈ ranges, (Session.batchOf config p range).Of p) (index : Nat)
    {m : Machine R} (h : m.Carries p) :
    runBatches config p ranges index m = .ok (Session.runBatches config p ranges index m) ∧
      ∀ out ∈ (Session.runBatches config p ranges index m).2.1, out.Sized p := by
  induction ranges generalizing index m with
  | nil => exact ⟨rfl, by simp [Session.runBatches]⟩
  | cons range rest ih =>
      obtain ⟨first, shots⟩ := range
      have hbatch := hranges (first, shots) List.mem_cons_self
      have hsteps :
          (m.beginBatch (Session.batchOf config p (first, shots))).steps + p.ops <
          2 ^ wordBits := by
        have hstart : (m.beginBatch (Session.batchOf config p (first, shots))).steps = 0 := rfl
        rw [hstart, Nat.zero_add]
        exact hplan.ops
      have hrun := runSteps_eq (h.sized_beginBatch hplan hbatch) hsteps
      -- What the batch leaves behind is what the next one needs to find.
      have hafter := h.run_beginBatch hplan hbatch p.ops
      obtain ⟨hrest, houts⟩ :=
        ih (fun other hother => hranges other (List.mem_cons_of_mem _ hother)) (index + 1) hafter
      have hshots :
          ((m.beginBatch (Session.batchOf config p (first, shots))).run p.ops).batch.shots ≤
          p.shotsPerBatch := by
        rw [Machine.run_eq]
        exact hbatch.shots
      have hread := readBack_eq (hafter.lanes ▸ hshots) hafter.fits config.capture
      rw [Session.batchOf] at hrun hread hrest
      refine ⟨?_, ?_⟩
      · rw [runBatches]
        dsimp only
        rw [hrun, ok_bind, hread, ok_bind, hrest, ok_bind]
        rfl
      · intro out hout
        rcases List.mem_cons.1 hout with rfl | hlater
        · exact hafter.sized_read hshots config.capture
        · exact houts out hlater

/-- The machine made ready for a run satisfies `Carries`. -/
theorem carries_readyMachine (s : Session R) {stream : Stream R} {p : Plan}
    (hops : p.ops = stream.length) (pool : Pool) : (s.readyMachine stream p pool).Carries p where
  layout := rfl
  resultsPerShot := rfl
  resultCount := rfl
  ops := by simp [Session.readyMachine, Machine.load, Machine.prepareRun, Stream.ops, hops]
  lanes := s.size_lanes_readyMachine stream p pool
  fits := Machine.fits_prepareRun _ p

end Guarded

theorem Environment.stepsPerSubmission_pos (env : Environment) : 0 < env.stepsPerSubmission := by
  rw [stepsPerSubmission]
  cases hchosen : (env.maxOpsPerDispatch.bind (count? · 64)).filter (0 < ·) with
  | none => decide
  | some steps => simpa using (Option.filter_eq_some_iff.1 hchosen).2

omit [Scalar R] in
/-- The first shot ids of all batches fit a word. -/
theorem Session.batchOf_of_mem (config : Config R) {p : Plan} (hplan : p.InRange)
    {range : Nat × Nat} (hrange : range ∈ p.batchRanges) : (batchOf config p range).Of p where
  qubits := rfl
  shots := Plan.le_of_mem_batchesFrom hrange
  ids := by
    intro i hi
    have hlast := Plan.lt_shots_of_mem_batchRanges hplan hrange hi
    have hshots := hplan.shots
    have hfirst : (batchOf config p range).firstShot.toNat ≤ range.1 := by
      rw [batchOf, UInt32.toNat_ofNat']
      exact Nat.mod_le _ _
    omega

namespace Guarded

/-- Running a stream is without a breach. -/
theorem runStream_eq {s : Session R} (hconfig : s.config.validate = .ok ())
    (hwords : s.config.InWords) (stream : Stream R) (host : Host R) :
    runStream s stream host = .ok (s.runStream stream host) := by
  rw [runStream, Plan.makeChecked, Session.runStream]
  cases hmake : Plan.make s.config stream.length with
  | error e => rfl
  | ok p =>
      have hplan := Plan.inRange_of_make hconfig hwords hmake
      have hrecords := Config.resultsPerShot_pos_of_validate hconfig
      have hops : p.ops = stream.length := (Plan.make_eq_ok hmake).2.2.2.2.2.1
      obtain ⟨hbatches, houts⟩ := runBatches_eq s.config hplan
        (fun range hrange => Session.batchOf_of_mem s.config hplan hrange) 0
        (carries_readyMachine s hops host.pool)
      rw [Session.readyMachine] at hbatches houts
      have hresults := collect_eq hplan stream s.config.capture (Machine.name host.pool) houts
      dsimp only
      rw [if_neg (Nat.ne_of_gt hrecords)]
      dsimp only
      split
      · rfl
      · rw [demand_of host.stepsPerSubmission_pos, ok_bind, batchRanges_eq hplan, ok_bind,
          hbatches, ok_bind, hresults, ok_bind]
        rfl

theorem sessionStream_eq {s : Session R} (h : s.config.Checked) :
    sessionStream s = .ok (s.stream.getD s.buildStream) := by
  unfold sessionStream
  cases s.stream with
  | some stream => rfl
  | none => exact build_eq h.noise _ _ _

end Guarded

/-- A run with every array access, slice, subtraction, word-sized addition and shift checked has no
breach, and its outcome is that of the unchecked run. This holds for every validated program,
unknown opcodes included, every stream cached by the session and every state of the machine. -/
theorem runs_stay_in_range (s : Session R) (hwords : s.config.InWords) (host : Host R) :
    Guarded.run s host = .ok (s.run host) := by
  rw [Guarded.run, Session.run]
  cases hconfig : s.config.validate with
  | error e => rfl
  | ok =>
      cases s.config.validateProgram s.program with
      | error e => rfl
      | ok =>
          dsimp only
          rw [Guarded.sessionStream_eq (Config.checked_of_validate hconfig), Guarded.ok_bind]
          have hkept :
              { s with stream := some (s.stream.getD s.buildStream) }.config.validate = .ok () :=
            hconfig
          exact Guarded.runStream_eq hkept hwords _ host

def widestConfig : Config Float32 :=
  { Config.standard with
    qubits := 27
    shots := 4294967295
    resultCount := 4294967295
    noise := some (.uniform (.pauli 0.25 0.25 0.25) ⟨2, ["XX", "ZI"], [0.5, 0.25], 0.125⟩)
    capture := true }

def strayProgram : List (Op Float32) :=
  [.cx 26 0, ⟨.unknown 4000000000, 4294967295, 77, 40, 0, Coeffs.zero⟩, .ccx 13 26 0,
    .mz 26 4294967294]

/-- A circuit of the largest size with an unknown opcode. -/
theorem runs_stay_in_range_widest :
    Runs strayProgram widestConfig .empty ∧ widestConfig.InWords ∧
      Guarded.run ((Session.new widestConfig).setProgram strayProgram) .empty =
        .ok (((Session.new widestConfig).setProgram strayProgram).run .empty) := by
  have hlength : (Stream.build strayProgram widestConfig.noise widestConfig.idle.isSome
      widestConfig.qubits).length = 11 := rfl
  have hruns : Runs strayProgram widestConfig .empty :=
    ⟨rfl, rfl, by rw [hlength]; exact ⟨_, rfl⟩, by decide⟩
  have hwords : widestConfig.InWords := ⟨by decide, by decide⟩
  exact ⟨hruns, hwords, runs_stay_in_range _ hwords _⟩

end ShotSim
