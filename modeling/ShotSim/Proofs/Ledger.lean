import Mathlib.Data.List.DropRight
import ShotSim.Proofs.DecayPoints

/-!
# Ledger — where the time of a shot goes

Time passes in stretches.  An operation on its own is one stretch, and so is a parallel region as a
whole. Each stretch counts once for the shot, and for a qubit either as work or as waiting.  Decay
lets a qubit start to wait anew.  Here the stretches are written down in a ledger, told from the
operations alone, and everything that the clock of a shot shows is read off the ledger.

* `Charge`, `Tick`, `Ledger` — stretches of time, what brings them about, and the ledger of a shot;
* `Shot.Balanced`, `Shot.Pays` — a clock that agrees with a ledger, and what one more stretch costs;
* `Charge.longest_together` — a region takes as long as the longest of its operations;
* `Balanced.accrue`, `Balanced.foldl_tick` — one operation, and any number of ticks.
-/

namespace ShotSim

/-! ## Ledgers -/

/-- A duration and the qubits busy in it. -/
structure Charge (R : Type) where
  qubits : List Nat
  duration : R

/-- An event of a clock: an operation, or the decay of a qubit. -/
inductive Tick (R : Type)
  | op (op : Op R)
  | settle (q : Nat)

/-- A ledger entry: a charge, or a qubit whose idle time is settled. -/
inductive Entry (R : Type)
  | charge (c : Charge R)
  | settle (q : Nat)

/-- The entries so far, and the members of the open parallel region. -/
structure Ledger (R : Type) where
  entries : List (Entry R)
  region : Option (List (Op R))

section Definitions

variable {R : Type} [Scalar R]

namespace Charge

/-- The charge of a region: all its qubits, for the longest duration. -/
def together (duration : Opcode → R) (members : List (Op R)) : Charge R :=
  ⟨members.flatMap (·.qubits), (members.map fun op => duration op.code).foldl Scalar.max 0⟩

def time (charges : List (Charge R)) : R := Scalar.sum (charges.map (·.duration))

/-- `time` of an appended charge. -/
theorem time_concat (charges : List (Charge R)) (c : Charge R) :
    time (charges ++ [c]) = time charges + c.duration := by
  simp [time, Scalar.sum]

/-- `time` of the charges satisfying a predicate, with one appended. -/
theorem time_filter_concat (p : Charge R → Bool) (charges : List (Charge R)) (c : Charge R) :
    time ((charges ++ [c]).filter p) =
      if p c then time (charges.filter p) + c.duration else time (charges.filter p) := by
  rw [List.filter_append]
  cases hp : p c with
  | true => rw [List.filter_cons_of_pos hp, List.filter_nil, time_concat, if_pos rfl]
  | false =>
      rw [List.filter_cons_of_neg (by simp [hp]), List.filter_nil, List.append_nil,
        if_neg Bool.false_ne_true]

/-- Adding an operation to a region extends its qubits and takes the longer duration. -/
theorem together_concat (duration : Opcode → R) (members : List (Op R)) (op : Op R) :
    together duration (members ++ [op]) =
      ⟨(together duration members).qubits ++ op.qubits,
        Scalar.max (together duration members).duration (duration op.code)⟩ := by
  simp [together]

end Charge

namespace Entry

def charge? : Entry R → Option (Charge R)
  | charge c => some c
  | settle _ => none

def settles (q : Nat) : Entry R → Bool
  | charge _ => false
  | settle q' => q' = q

end Entry

namespace Ledger

def start : Ledger R := ⟨[], none⟩

def record (l : Ledger R) (c : Charge R) : Ledger R :=
  if Scalar.lt 0 c.duration then { l with entries := l.entries ++ [.charge c] } else l

/-- The ledger after a tick. A region is recorded when it closes; nested starts and unmatched ends
have no effect. -/
def next (duration : Opcode → R) (l : Ledger R) : Tick R → Ledger R
  | .settle q => { l with entries := l.entries ++ [.settle q] }
  | .op op =>
    match op.code, l.region with
    | .parallelStart, none => { l with region := some [] }
    | .parallelStart, some _ => l
    | .parallelEnd, none => l
    | .parallelEnd, some members => { l.record (.together duration members) with region := none }
    | code, none => l.record ⟨op.qubits, duration code⟩
    | _, some members => { l with region := some (members ++ [op]) }

def charges (l : Ledger R) : List (Charge R) := l.entries.filterMap Entry.charge?

/-- The charges since the last settlement of `q`. -/
def chargesSince (l : Ledger R) (q : Nat) : List (Charge R) :=
  (l.entries.rtakeWhile fun entry => !entry.settles q).filterMap Entry.charge?

/-- Outside of regions an operation is recorded by itself. -/
theorem next_of_closed (duration : Opcode → R) {l : Ledger R} {op : Op R}
    (h : Timing.isMarker op.code = false) (hregion : l.region = none) :
    l.next duration (.op op) = l.record ⟨op.qubits, duration op.code⟩ := by
  obtain ⟨entries, region⟩ := l
  obtain ⟨code, q1, q2, q3, angle, coeffs⟩ := op
  cases hregion
  cases code with
  | parallelStart => cases h
  | parallelEnd => cases h
  | _ => rfl

/-- A start marker opens a region unless one is open. -/
theorem next_of_start (duration : Opcode → R) {op : Op R} (h : op.code = .parallelStart)
    (l : Ledger R) :
    l.next duration (.op op) = if l.region.isNone then { l with region := some [] } else l := by
  obtain ⟨entries, region⟩ := l
  simp only [next, h]
  cases region <;> rfl

/-- An end marker records the region and closes it. -/
theorem next_of_end (duration : Opcode → R) {op : Op R} (h : op.code = .parallelEnd)
    (l : Ledger R) :
    l.next duration (.op op) = match l.region with
      | none => l
      | some members => { l.record (.together duration members) with region := none } := by
  obtain ⟨entries, region⟩ := l
  simp only [next, h]
  cases region <;> rfl

/-- Inside a region an operation joins its members. -/
theorem next_of_open (duration : Opcode → R) {l : Ledger R} {op : Op R}
    (h : Timing.isMarker op.code = false) {members : List (Op R)}
    (hregion : l.region = some members) :
    l.next duration (.op op) = { l with region := some (members ++ [op]) } := by
  obtain ⟨entries, region⟩ := l
  obtain ⟨code, q1, q2, q3, angle, coeffs⟩ := op
  cases hregion
  cases code with
  | parallelStart => cases h
  | parallelEnd => cases h
  | _ => rfl

section Concat

variable {l l' : Ledger R}

omit [Scalar R]

/-- A charge is appended to all charges. -/
theorem charges_of_charge {c : Charge R} (h : l'.entries = l.entries ++ [.charge c]) :
    l'.charges = l.charges ++ [c] := by
  simp [charges, h, Entry.charge?]

/-- A charge is appended to the charges since the last settlement of every qubit. -/
theorem chargesSince_of_charge {c : Charge R} (h : l'.entries = l.entries ++ [.charge c])
    (q : Nat) : l'.chargesSince q = l.chargesSince q ++ [c] := by
  rw [chargesSince, h, List.rtakeWhile_concat_pos _ _ _ rfl]
  simp [chargesSince, Entry.charge?]

theorem charges_of_settle {q : Nat} (h : l'.entries = l.entries ++ [.settle q]) :
    l'.charges = l.charges := by
  simp [charges, h, Entry.charge?]

/-- A settlement clears the charges of its qubit only. -/
theorem chargesSince_of_settle {q' : Nat} (h : l'.entries = l.entries ++ [.settle q']) (q : Nat) :
    l'.chargesSince q = if q' = q then [] else l.chargesSince q := by
  rw [chargesSince, h, List.rtakeWhile_concat]
  by_cases hq : q' = q <;> simp [chargesSince, Entry.settles, Entry.charge?, hq]

end Concat

end Ledger

def ledger (duration : Opcode → R) (ticks : List (Tick R)) : Ledger R :=
  ticks.foldl (Ledger.next duration) Ledger.start

theorem ledger_concat (duration : Opcode → R) (ticks : List (Tick R)) (tick : Tick R) :
    ledger duration (ticks ++ [tick]) = (ledger duration ticks).next duration tick := by
  simp [ledger]

def Shot.tick (params : IdleParams R) (n : Nat) (s : Shot R) : Tick R → Shot R
  | .op op => s.accrue op params n
  | .settle q => s.setQubit q { s.qubit q with idle := 0 }

/-- The clock of a shot agrees with a ledger: elapsed time is the time of all charges, heat that of
the charges naming the qubit, and idle time that of the others since its last settlement. -/
structure Shot.Balanced (duration : Opcode → R) (n : Nat) (s : Shot R) (l : Ledger R) : Prop where
  elapsed : s.elapsed = Charge.time l.charges
  heat : ∀ q < n, q < maxQubitCount →
    (s.qubit q).heat = Charge.time (l.charges.filter fun c => q ∈ c.qubits)
  idle : ∀ q < n, q < maxQubitCount →
    (s.qubit q).idle = Charge.time ((l.chargesSince q).filter fun c => q ∉ c.qubits)
  closed : l.region = none → s.region = ⟨false, 0, 0⟩
  opened : ∀ members, l.region = some members → s.region.active = true ∧
    (∀ q < maxQubitCount,
      s.region.qubits.testBit q = true ↔ q ∈ (Charge.together duration members).qubits) ∧
    s.region.duration = (Charge.together duration members).duration

/-- A charge is paid: once by the shot, and by each qubit as heat or as idle time. -/
structure Shot.Pays (s now : Shot R) (n : Nat) (c : Charge R) : Prop where
  elapsed : now.elapsed = s.elapsed + c.duration
  works : ∀ q < n, q < maxQubitCount → q ∈ c.qubits →
    (now.qubit q).heat = (s.qubit q).heat + c.duration ∧ (now.qubit q).idle = (s.qubit q).idle
  waits : ∀ q < n, q < maxQubitCount → q ∉ c.qubits →
    (now.qubit q).heat = (s.qubit q).heat ∧ (now.qubit q).idle = (s.qubit q).idle + c.duration

/-- Equal clocks. -/
structure Shot.SameClock (s now : Shot R) : Prop where
  elapsed : now.elapsed = s.elapsed
  heat : ∀ q, (now.qubit q).heat = (s.qubit q).heat
  idle : ∀ q, (now.qubit q).idle = (s.qubit q).idle
  region : now.region = s.region

end Definitions

/-! ## One operation -/

namespace Shot

section Step

variable {R : Type} [Scalar R] {duration : Opcode → R} {n : Nat} {s now : Shot R} {l l' : Ledger R}

theorem SameClock.trans {later : Shot R} (h : s.SameClock now) (h' : now.SameClock later) :
    s.SameClock later where
  elapsed := h'.elapsed.trans h.elapsed
  heat q := (h'.heat q).trans (h.heat q)
  idle q := (h'.idle q).trans (h.idle q)
  region := h'.region.trans h.region

/-- `Balanced` depends on the clock of the shot only. -/
theorem Balanced.of_sameClock (h : s.Balanced duration n l) (hsame : s.SameClock now) :
    now.Balanced duration n l where
  elapsed := hsame.elapsed.trans h.elapsed
  heat q hq hroom := (hsame.heat q).trans (h.heat q hq hroom)
  idle q hq hroom := (hsame.idle q).trans (h.idle q hq hroom)
  closed hnone := hsame.region.trans (h.closed hnone)
  opened members hmembers := by
    rw [hsame.region]
    exact h.opened members hmembers

/-- An inactive region is empty in the ledger. -/
theorem Balanced.region_of_inactive (h : s.Balanced duration n l)
    (hidle : s.region.active = false) : s.region.qubits = 0 ∧ s.region.duration = 0 := by
  cases hregion : l.region with
  | none =>
      rw [h.closed hregion]
      exact ⟨rfl, rfl⟩
  | some members =>
      rw [(h.opened members hregion).1] at hidle
      cases hidle

/-- A charge recorded in the ledger is one the shot has paid. -/
theorem Balanced.pays (h : s.Balanced duration n l) (h' : now.Balanced duration n l') {c : Charge R}
    (hentries : l'.entries = l.entries ++ [.charge c]) : s.Pays now n c where
  elapsed := by rw [h'.elapsed, h.elapsed, Ledger.charges_of_charge hentries, Charge.time_concat]
  works q hq hroom hworks := by
    rw [h'.heat q hq hroom, h.heat q hq hroom, h'.idle q hq hroom, h.idle q hq hroom,
      Ledger.charges_of_charge hentries, Ledger.chargesSince_of_charge hentries,
      Charge.time_filter_concat, Charge.time_filter_concat]
    simp [hworks]
  waits q hq hroom hwaits := by
    rw [h'.heat q hq hroom, h.heat q hq hroom, h'.idle q hq hroom, h.idle q hq hroom,
      Ledger.charges_of_charge hentries, Ledger.chargesSince_of_charge hentries,
      Charge.time_filter_concat, Charge.time_filter_concat]
    simp [hwaits]

/-- A charge that the shot has paid may be recorded. -/
theorem Balanced.of_pays (h : s.Balanced duration n l) {c : Charge R} (hpays : s.Pays now n c)
    (hregion : now.region = s.region) (hentries : l'.entries = l.entries ++ [.charge c])
    (hopen : l'.region = l.region) : now.Balanced duration n l' where
  elapsed := by rw [hpays.elapsed, h.elapsed, Ledger.charges_of_charge hentries, Charge.time_concat]
  heat q hq hroom := by
    rw [Ledger.charges_of_charge hentries, Charge.time_filter_concat, ← h.heat q hq hroom]
    by_cases hbusy : q ∈ c.qubits
    · rw [(hpays.works q hq hroom hbusy).1, if_pos (decide_eq_true hbusy)]
    · rw [(hpays.waits q hq hroom hbusy).1, if_neg (by simp [hbusy])]
  idle q hq hroom := by
    rw [Ledger.chargesSince_of_charge hentries, Charge.time_filter_concat, ← h.idle q hq hroom]
    by_cases hbusy : q ∈ c.qubits
    · rw [(hpays.works q hq hroom hbusy).2, if_neg (by simp [hbusy])]
    · rw [(hpays.waits q hq hroom hbusy).2, if_pos (decide_eq_true hbusy)]
  closed hnone := hregion.trans (h.closed (hopen.symm.trans hnone))
  opened members hmembers := by
    rw [hregion]
    exact h.opened members (hopen.symm.trans hmembers)

/-- `charge` pays its duration. -/
theorem pays_charge (s : Shot R) {busy : Nat} {c : Charge R}
    (hbusy : ∀ q < maxQubitCount, busy.testBit q = true ↔ q ∈ c.qubits)
    (hlong : Scalar.le c.duration 0 = false) (n : Nat) :
    s.Pays (s.charge busy c.duration n) n c := by
  have hqubit : ∀ q < n, q < maxQubitCount → (s.charge busy c.duration n).qubit q =
      if busy.testBit q then { s.qubit q with heat := (s.qubit q).heat + c.duration }
      else { s.qubit q with idle := (s.qubit q).idle + c.duration } := by
    intro q hq hroom
    rw [charge, if_neg (by simp [hlong])]
    simp [qubit, mapQubits, hroom, hq]
  refine ⟨?_, ?_, ?_⟩
  · rw [elapsed_charge, Timing.pass, if_neg (by simp [hlong])]
  · intro q hq hroom hworks
    rw [hqubit q hq hroom, if_pos ((hbusy q hroom).2 hworks)]
    exact ⟨rfl, rfl⟩
  · intro q hq hroom hwaits
    rw [hqubit q hq hroom, if_neg (mt (hbusy q hroom).1 hwaits)]
    exact ⟨rfl, rfl⟩

/-- A zero clock balances the empty ledger. -/
theorem balanced_start (duration : Opcode → R) (n : Nat) (helapsed : s.elapsed = 0)
    (hqubit : ∀ q, (s.qubit q).heat = 0 ∧ (s.qubit q).idle = 0) (hregion : s.region = 0) :
    s.Balanced duration n Ledger.start where
  elapsed := helapsed
  heat q _ _ := (hqubit q).1
  idle q _ _ := (hqubit q).2
  closed _ := hregion
  opened := nofun

theorem qubit_zero (q : Nat) : (0 : Shot R).qubit q = 0 := by
  change (Vector.replicate maxQubitCount (0 : QubitState R))[q]?.getD 0 = 0
  rw [Vector.getElem?_replicate]
  split <;> rfl

theorem balanced_zero (duration : Opcode → R) (n : Nat) :
    (0 : Shot R).Balanced duration n Ledger.start :=
  balanced_start duration n rfl (fun q => by rw [qubit_zero]; exact ⟨rfl, rfl⟩) rfl

/-- A restart balances the empty ledger. -/
theorem balanced_restart (duration : Opcode → R) (n : Nat) (s : Shot R) (batch : Batch R)
    (shotIdx : Nat) : (s.restart batch shotIdx).Balanced duration n Ledger.start := by
  refine balanced_start duration n rfl (fun q => ?_) rfl
  have hqubit : ((s.restart batch shotIdx).qubit q).heat = ((0 : Shot R).qubit q).heat ∧
      ((s.restart batch shotIdx).qubit q).idle = ((0 : Shot R).qubit q).idle := by
    simp only [restart, qubit, mapQubits, Vector.getElem?_mapIdx]
    cases (0 : Shot R).qubits[q]? with
    | none => exact ⟨rfl, rfl⟩
    | some state =>
        simp only [Option.map_some, Option.getD_some]
        split <;> exact ⟨rfl, rfl⟩
  rw [hqubit.1, hqubit.2, qubit_zero]
  exact ⟨rfl, rfl⟩

/-- Resetting the idle time of a qubit is a settlement. -/
theorem Balanced.settle (h : s.Balanced duration n l) (params : IdleParams R) (q' : Nat) :
    (s.tick params n (.settle q')).Balanced duration n (l.next duration (.settle q')) where
  elapsed := by
    rw [Ledger.charges_of_settle (l := l) (q := q') rfl]
    exact h.elapsed
  heat q hq hroom := by
    have hheat : ((s.tick params n (.settle q')).qubit q).heat = (s.qubit q).heat := by
      by_cases hself : q' = q
      · simp [tick, qubit, setQubit, hself, hroom]
      · simp [tick, qubit, setQubit, hself]
    rw [Ledger.charges_of_settle (l := l) (q := q') rfl, hheat]
    exact h.heat q hq hroom
  idle q hq hroom := by
    rw [Ledger.chargesSince_of_settle (l := l) rfl]
    by_cases hself : q' = q
    · rw [if_pos hself]
      simp [tick, qubit, setQubit, hself, hroom, Charge.time, Scalar.sum]
    · rw [if_neg hself, ← h.idle q hq hroom]
      simp [tick, qubit, setQubit, hself]
  closed hnone := h.closed hnone
  opened members hmembers := h.opened members hmembers

/-- `accrue` of an operation: collect it in an open region, else charge it. -/
theorem accrue_of_not_marker (s : Shot R) {op : Op R} (h : Timing.isMarker op.code = false)
    (params : IdleParams R) (n : Nat) :
    s.accrue op params n =
      if s.region.active then
        { s with region :=
            { s.region with
              qubits := s.region.qubits ||| op.qubitMask
              duration := Scalar.max s.region.duration (params.duration op.code) } }
      else s.charge op.qubitMask (params.duration op.code) n := by
  obtain ⟨code, q1, q2, q3, angle, coeffs⟩ := op
  cases code with
  | parallelStart => cases h
  | parallelEnd => cases h
  | _ => rfl

/-- `accrue` of a start marker. -/
theorem accrue_of_start (s : Shot R) {op : Op R} (h : op.code = .parallelStart)
    (params : IdleParams R) (n : Nat) :
    s.accrue op params n = if s.region.active then s else { s with region := ⟨true, 0, 0⟩ } := by
  simp only [accrue, h]

/-- `accrue` of an end marker: charge the region. -/
theorem accrue_of_end (s : Shot R) {op : Op R} (h : op.code = .parallelEnd) (params : IdleParams R)
    (n : Nat) :
    s.accrue op params n =
      if s.region.active then { s.charge s.region.qubits s.region.duration n with region := 0 }
      else s := by
  simp only [accrue, h]

omit [Scalar R] in
/-- `qubitMask` names the operands of an operation. A restart has an empty mask, and `allQubits` is
not the number of a qubit. -/
theorem testBit_qubitMask_iff (op : Op R) {q : Nat} (hroom : q < maxQubitCount) :
    op.qubitMask.testBit q = true ↔ q ∈ op.qubits := by
  cases hreset : op.isResetAll with
  | false => rw [testBit_qubitMask hreset, List.contains_iff_mem]
  | true =>
      have hall : op.code = .reset ∧ op.q1 = allQubits := by simpa [Op.isResetAll] using hreset
      have hother : q ≠ allQubits := Nat.ne_of_lt (Nat.lt_trans hroom (by decide))
      simp [Op.qubitMask, hreset, Op.qubits, hall.1, hall.2, Opcode.arity, hother]

end Step

end Shot

/-! ## Durations -/

namespace Single

open Float.Model Float.Model.UnpackedFloat

/-- The unpacked forms of a nonnegative number. -/
theorem value_of_nonneg {d : Float32} (h : Scalar.le 0 d = true) :
    (∃ s, value d = .zero s) ∨ value d = .infinity .positive ∨
      ∃ m e hm, value d = .finite .positive m e hm := by
  have hcompare : ((UnpackedFloat.zero .positive).compare (value d)).any (·.isLE) = true :=
    le_iff.1 h
  cases hd : value d with
  | notANumber =>
      rw [hd] at hcompare
      cases hcompare
  | zero s => exact Or.inl ⟨s, rfl⟩
  | infinity s =>
      rw [hd] at hcompare
      cases s with
      | positive => exact Or.inr (Or.inl rfl)
      | negative => cases hcompare
  | finite s m e hm =>
      rw [hd] at hcompare
      cases s with
      | positive => exact Or.inr (Or.inr ⟨m, e, hm, rfl⟩)
      | negative => cases hcompare

theorem isLE_compare_then {e e' : Int} {m m' : Nat} :
    ((compare e e').then (compare m m')).isLE = true ↔ e < e' ∨ e = e' ∧ m ≤ m' := by
  rw [Ordering.isLE_then_iff_or, Int.compare_eq_lt, Int.compare_eq_eq, Nat.isLE_compare]

/-- For nonnegative numbers, positive is the negation of at most zero. -/
theorem pos_eq_of_nonneg {d : Float32} (h : Scalar.le 0 d = true) :
    Scalar.lt 0 d = !Scalar.le d 0 := by
  rw [Bool.eq_iff_iff, Bool.not_eq_true', ← Bool.not_eq_true, lt_iff, le_iff]
  change (UnpackedFloat.zero .positive).compare (value d) = some .lt ↔
    ¬((value d).compare (.zero .positive)).any (·.isLE) = true
  rcases value_of_nonneg h with ⟨s, hd⟩ | hd | ⟨m, e, hm, hd⟩ <;> rw [hd] <;>
    simp [UnpackedFloat.compare]

section Order

variable {a b c : Float32} (ha : Scalar.le 0 a = true) (hb : Scalar.le 0 b = true)

include ha hb

/-- The order of nonnegative numbers is total. -/
theorem le_of_not_lt_of_nonneg (h : Scalar.lt a b = false) : Scalar.le b a = true := by
  rw [← Bool.not_eq_true, lt_iff] at h
  rw [le_iff]
  rcases value_of_nonneg ha with ⟨s, hva⟩ | hva | ⟨m, e, hm, hva⟩ <;>
    rcases value_of_nonneg hb with ⟨t, hvb⟩ | hvb | ⟨m', e', hm', hvb⟩ <;>
    rw [hva, hvb] at h <;> rw [hva, hvb] <;> simp [UnpackedFloat.compare] at h ⊢
  · rfl
  · -- Two finite numbers compare by exponent and mantissa.
    rw [Ordering.then_eq_lt, Int.compare_eq_lt, Int.compare_eq_eq, Nat.compare_eq_lt] at h
    rw [isLE_compare_then]
    omega

/-- The order is transitive below a nonnegative bound. -/
theorem le_trans_of_nonneg (hc : Scalar.le 0 c = true) (hab : Scalar.le a b = true)
    (hbc : Scalar.le b c = true) : Scalar.le a c = true := by
  rw [le_iff] at hab hbc ⊢
  rcases value_of_nonneg ha with ⟨s, hva⟩ | hva | ⟨m, e, hm, hva⟩ <;>
    rcases value_of_nonneg hb with ⟨t, hvb⟩ | hvb | ⟨m', e', hm', hvb⟩ <;>
    rcases value_of_nonneg hc with ⟨u, hvc⟩ | hvc | ⟨m'', e'', hm'', hvc⟩ <;>
    rw [hva, hvb] at hab <;> rw [hvb, hvc] at hbc <;> rw [hva, hvc] <;>
    simp [UnpackedFloat.compare] at hab hbc ⊢
  · rfl
  · rw [isLE_compare_then] at hab hbc ⊢
    omega

end Order

theorem le_self_of_nonneg {a : Float32} (ha : Scalar.le 0 a = true) : Scalar.le a a = true := by
  rw [le_iff, (compare_of_nonneg ha .positive).2]
  rfl

/-- `Scalar.max` is an upper bound of nonnegative numbers. -/
theorem le_max_of_nonneg {a b : Float32} (ha : Scalar.le 0 a = true) (hb : Scalar.le 0 b = true) :
    Scalar.le a (Scalar.max a b) = true ∧ Scalar.le b (Scalar.max a b) = true := by
  unfold Scalar.max
  cases hlt : Scalar.lt a b with
  | true =>
      refine ⟨?_, le_self_of_nonneg hb⟩
      rw [if_pos rfl, le_iff, lt_iff.1 hlt]
      rfl
  | false =>
      rw [if_neg Bool.false_ne_true, if_pos (le_self_of_nonneg ha)]
      exact ⟨le_self_of_nonneg ha, le_of_not_lt_of_nonneg ha hb hlt⟩

/-- Folding `Scalar.max` gives an upper bound of nonnegative numbers. -/
theorem le_foldl_max {ds : List Float32} (hds : ∀ d ∈ ds, Scalar.le 0 d = true) {longest : Float32}
    (h : Scalar.le 0 longest = true) :
    Scalar.le 0 (ds.foldl Scalar.max longest) = true ∧
      Scalar.le longest (ds.foldl Scalar.max longest) = true ∧
      ∀ d ∈ ds, Scalar.le d (ds.foldl Scalar.max longest) = true := by
  induction ds generalizing longest with
  | nil => exact ⟨h, le_self_of_nonneg h, fun _ hd => absurd hd List.not_mem_nil⟩
  | cons d rest ih =>
      have hd := hds d List.mem_cons_self
      have hmax := Timing.le_max h hd
      obtain ⟨hlongest, hhere⟩ := le_max_of_nonneg h hd
      obtain ⟨hall, hfirst, hrest⟩ := ih (fun d' hd' => hds d' (List.mem_cons_of_mem _ hd')) hmax
      refine ⟨hall, le_trans_of_nonneg h hmax hall hlongest hfirst, ?_⟩
      intro d' hd'
      rcases List.mem_cons.1 hd' with rfl | hlater
      · exact le_trans_of_nonneg hd hmax hall hhere hfirst
      · exact hrest d' hlater

end Single

/-- Folding `Scalar.max` returns the seed or an element. -/
theorem foldl_max_mem {R : Type} [Scalar R] (ds : List R) (longest : R) :
    ds.foldl Scalar.max longest = longest ∨ ds.foldl Scalar.max longest ∈ ds := by
  induction ds generalizing longest with
  | nil => exact Or.inl rfl
  | cons d rest ih =>
      have hmax : Scalar.max longest d = longest ∨ Scalar.max longest d = d := by
        unfold Scalar.max
        split
        · exact Or.inr rfl
        · split
          · exact Or.inl rfl
          · exact Or.inr rfl
      rw [List.foldl_cons]
      rcases ih (Scalar.max longest d) with hsame | hlater
      · rw [hsame]
        rcases hmax with hfirst | hhere
        · exact Or.inl hfirst
        · exact Or.inr (List.mem_cons.2 (Or.inl hhere))
      · exact Or.inr (List.mem_cons_of_mem _ hlater)

section Run

variable {duration : Opcode → Float32} (hduration : ∀ code, Scalar.le 0 (duration code) = true)

include hduration

theorem nonneg_of_mem_durations {members : List (Op Float32)} :
    ∀ d ∈ members.map fun op => duration op.code, Scalar.le 0 d = true := by
  intro d hd
  obtain ⟨op, _, rfl⟩ := List.mem_map.1 hd
  exact hduration op.code

theorem Charge.nonneg_together (members : List (Op Float32)) :
    Scalar.le 0 (Charge.together duration members).duration = true :=
  (Single.le_foldl_max (nonneg_of_mem_durations hduration) Scalar.ClockLaws.zero_nonneg).1

/-- A region lasts as long as its longest operation. -/
theorem Charge.longest_together (members : List (Op Float32)) :
    (∀ op ∈ members,
      Scalar.le (duration op.code) (Charge.together duration members).duration = true) ∧
      ((Charge.together duration members).duration = 0 ∨
        ∃ op ∈ members, (Charge.together duration members).duration = duration op.code) := by
  constructor
  · intro op hop
    exact (Single.le_foldl_max (nonneg_of_mem_durations hduration)
      Scalar.ClockLaws.zero_nonneg).2.2 _ (List.mem_map_of_mem hop)
  · rcases foldl_max_mem (members.map fun op => duration op.code) 0 with hnone | hmem
    · exact Or.inl hnone
    · obtain ⟨op, hop, hlongest⟩ := List.mem_map.1 hmem
      exact Or.inr ⟨op, hop, hlongest.symm⟩

end Run

namespace Shot

section Run

variable {n : Nat} {s : Shot Float32} {l : Ledger Float32}

/-- Charging a duration balances recording it. -/
theorem Balanced.record {duration : Opcode → Float32} (h : s.Balanced duration n l) {busy : Nat}
    {c : Charge Float32} (hbusy : ∀ q < maxQubitCount, busy.testBit q = true ↔ q ∈ c.qubits)
    (hlong : Scalar.le 0 c.duration = true) :
    (s.charge busy c.duration n).Balanced duration n (l.record c) := by
  have hsign := Single.pos_eq_of_nonneg hlong
  cases hnone : Scalar.le c.duration 0 with
  | true =>
      rw [hnone, Bool.not_true] at hsign
      rw [charge, if_pos hnone, Ledger.record, if_neg (by simp [hsign])]
      exact h
  | false =>
      rw [hnone, Bool.not_false] at hsign
      rw [Ledger.record, if_pos hsign]
      exact h.of_pays (s.pays_charge hbusy hnone n) (region_charge s busy c.duration n) rfl rfl

variable {params : IdleParams Float32}
    (hduration : ∀ code, Scalar.le 0 (params.duration code) = true)

include hduration

/-- `accrue` balances the next entry of the ledger. -/
theorem Balanced.accrue (h : s.Balanced params.duration n l) (op : Op Float32) :
    (s.accrue op params n).Balanced params.duration n (l.next params.duration (.op op)) := by
  have hmask : ∀ q < maxQubitCount, op.qubitMask.testBit q = true ↔ q ∈ op.qubits :=
    fun q hroom => testBit_qubitMask_iff op hroom
  cases hmarker : Timing.isMarker op.code with
  | false =>
      rw [accrue_of_not_marker s hmarker]
      cases hregion : l.region with
      | none =>
          -- The operation is a stretch of its own.
          have hidle : s.region.active = false := by rw [h.closed hregion]
          rw [hidle, if_neg Bool.false_ne_true, Ledger.next_of_closed _ hmarker hregion]
          exact h.record (c := ⟨op.qubits, params.duration op.code⟩) hmask (hduration op.code)
      | some members =>
          obtain ⟨hactive, hqubits, hlongest⟩ := h.opened members hregion
          rw [hactive, if_pos rfl, Ledger.next_of_open _ hmarker hregion]
          refine ⟨h.elapsed, h.heat, h.idle, fun hclosed => absurd hclosed (Option.some_ne_none _),
            ?_⟩
          intro members' hmembers'
          obtain rfl : members ++ [op] = members' := Option.some.inj hmembers'
          rw [Charge.together_concat]
          refine ⟨hactive, fun q hroom => ?_, by rw [hlongest]⟩
          rw [Nat.testBit_or, Bool.or_eq_true, List.mem_append, hqubits q hroom, hmask q hroom]
  | true =>
      have hcode : op.code = .parallelStart ∨ op.code = .parallelEnd := by
        simpa [Timing.isMarker] using hmarker
      rcases hcode with hstart | hend
      · rw [Ledger.next_of_start _ hstart, accrue_of_start s hstart]
        cases hregion : l.region with
        | none =>
            have hidle : s.region.active = false := by rw [h.closed hregion]
            rw [hidle, if_neg Bool.false_ne_true]
            refine ⟨h.elapsed, h.heat, h.idle,
              fun hclosed => absurd hclosed (Option.some_ne_none _), ?_⟩
            intro members hmembers
            obtain rfl : [] = members := Option.some.inj hmembers
            exact ⟨rfl, fun q _ => by simp [Charge.together], rfl⟩
        | some members =>
            rw [(h.opened members hregion).1, if_pos rfl]
            exact h
      · rw [Ledger.next_of_end _ hend, accrue_of_end s hend]
        cases hregion : l.region with
        | none =>
            have hidle : s.region.active = false := by rw [h.closed hregion]
            rw [hidle, if_neg Bool.false_ne_true]
            exact h
        | some members =>
            -- The region closes: one stretch for all that was in it.
            obtain ⟨hactive, hqubits, hlongest⟩ := h.opened members hregion
            have hrecord := h.record hqubits (Charge.nonneg_together hduration members)
            rw [hactive, if_pos rfl, hlongest]
            exact ⟨hrecord.elapsed, hrecord.heat, hrecord.idle, fun _ => rfl,
              fun _ hopen => absurd hopen.symm (Option.some_ne_none _)⟩

/-- `Balanced` is preserved along any sequence of ticks. -/
theorem Balanced.foldl_tick {ticks : List (Tick Float32)} {now : Shot Float32}
    (h : now.Balanced params.duration n Ledger.start) :
    (ticks.foldl (tick params n) now).Balanced params.duration n
      (ledger params.duration ticks) := by
  induction ticks using List.reverseRecOn with
  | nil => exact h
  | append_singleton ticks t ih =>
      rw [List.foldl_append, ledger_concat]
      cases t with
      | op op => exact ih.accrue hduration op
      | settle q => exact ih.settle params q

end Run

end Shot

end ShotSim
