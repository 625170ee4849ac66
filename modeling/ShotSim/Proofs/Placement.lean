import Mathlib.Data.List.Basic
import Mathlib.Data.Nat.Bitwise
import ShotSim.BasisIndex

/-!
# Placement — writing and reading the operand bits of a basis index

A gate sees an index only through the bits at its operands.  This module gives the reference view of
those bits and ties the offsets that workers compute to it:

* `place qs index value` — `index` with the bits of `value` written at the operands `qs`;
* `localIndex qs index` — the bits of `index` at the operands, read as a number;
* `spread qs item` — zero bits put into `item` at rising positions, one after another.

The first operand is the most significant one throughout.  Every fact is proved one bit at a time.
-/

namespace ShotSim
namespace BasisIndex

/-! ## One bit -/

def setBit (index q : Nat) (b : Bool) : Nat :=
  if index.testBit q = b then index else index ^^^ 1 <<< q

theorem testBit_one_shiftLeft (q j : Nat) : (1 <<< q).testBit j = decide (q = j) := by
  rw [Nat.one_shiftLeft, Nat.testBit_two_pow]

/-- `setBit` writes the bit of its qubit only. -/
theorem testBit_setBit (index q j : Nat) (b : Bool) :
    (setBit index q b).testBit j = if j = q then b else index.testBit j := by
  unfold setBit
  by_cases hj : j = q
  · subst hj
    by_cases hb : index.testBit j = b
    · simp [hb]
    · have hflip : (!index.testBit j) = b := by
        cases h : index.testBit j <;> cases b <;> simp_all
      rw [if_neg hb, if_pos rfl, Nat.testBit_xor, testBit_one_shiftLeft]
      simpa using hflip
  · have hne : ¬ q = j := fun h => hj h.symm
    by_cases hb : index.testBit q = b
    · rw [if_pos hb, if_neg hj]
    · rw [if_neg hb, if_neg hj, Nat.testBit_xor, testBit_one_shiftLeft]
      simp [hne]

/-! ## Operands -/

/-- `index` with the bits of `value` written at the operands, first operand most significant. -/
def place : List Nat → Nat → Nat → Nat
  | [], index, _ => index
  | q :: rest, index, value => setBit (place rest index value) q (value.testBit rest.length)

/-- The bits of `index` at the operands read as a number, first operand most significant. -/
def localIndex : List Nat → Nat → Nat
  | [], _ => 0
  | q :: rest, index => 2 ^ rest.length * (index.testBit q).toNat + localIndex rest index

/-- `place` keeps the bits outside the operands. -/
theorem testBit_place_of_notMem {qs : List Nat} {j : Nat} (index value : Nat) (h : j ∉ qs) :
    (place qs index value).testBit j = index.testBit j := by
  induction qs with
  | nil => rfl
  | cons q rest ih =>
      have hq : j ≠ q := fun e => h (e ▸ List.mem_cons_self)
      have hrest : j ∉ rest := fun e => h (List.mem_cons_of_mem _ e)
      rw [place, testBit_setBit, if_neg hq, ih hrest]

theorem localIndex_lt (qs : List Nat) (index : Nat) : localIndex qs index < 2 ^ qs.length := by
  induction qs with
  | nil => simp [localIndex]
  | cons q rest ih =>
      have hbit : (index.testBit q).toNat ≤ 1 := Bool.toNat_le _
      have hmul : 2 ^ rest.length * (index.testBit q).toNat ≤ 2 ^ rest.length := by
        simpa using Nat.mul_le_mul_left (2 ^ rest.length) hbit
      rw [localIndex, List.length_cons, Nat.pow_succ]
      omega

/-- `localIndex` depends on the operand bits only. -/
theorem localIndex_congr {qs : List Nat} {i j : Nat}
    (h : ∀ q ∈ qs, i.testBit q = j.testBit q) : localIndex qs i = localIndex qs j := by
  induction qs with
  | nil => rfl
  | cons q rest ih =>
      have hq : i.testBit q = j.testBit q := h q List.mem_cons_self
      have hrest : localIndex rest i = localIndex rest j :=
        ih fun q' hq' => h q' (List.mem_cons_of_mem _ hq')
      rw [localIndex, localIndex, hq, hrest]

/-- `place` depends on the lowest `qs.length` bits of the value only. -/
theorem place_congr {qs : List Nat} {v w : Nat} (index : Nat)
    (h : ∀ p < qs.length, v.testBit p = w.testBit p) : place qs index v = place qs index w := by
  induction qs with
  | nil => rfl
  | cons q rest ih =>
      have hlow : ∀ p < rest.length, v.testBit p = w.testBit p := by
        intro p hp
        exact h p (by simp only [List.length_cons]; omega)
      have htop : v.testBit rest.length = w.testBit rest.length := h _ (by simp)
      rw [place, place, ih hlow, htop]

/-- `localIndex` inverts `place`. -/
theorem localIndex_place {qs : List Nat} (hqs : qs.Nodup) (index value : Nat) :
    localIndex qs (place qs index value) = value % 2 ^ qs.length := by
  induction qs with
  | nil => simp [localIndex, Nat.mod_one]
  | cons q rest ih =>
      have hq : q ∉ rest := (List.nodup_cons.1 hqs).1
      have htop : (place (q :: rest) index value).testBit q = value.testBit rest.length := by
        rw [place, testBit_setBit, if_pos rfl]
      have hlow : localIndex rest (place (q :: rest) index value) =
          localIndex rest (place rest index value) := by
        apply localIndex_congr
        intro q' hq'
        have hne : q' ≠ q := fun e => hq (e ▸ hq')
        rw [place, testBit_setBit, if_neg hne]
      rw [localIndex, htop, hlow, ih (List.nodup_cons.1 hqs).2, List.length_cons,
        Nat.mod_pow_succ, Nat.toNat_testBit]
      exact Nat.add_comm _ _

/-- Placing the local index of an index is the identity. -/
theorem place_localIndex (qs : List Nat) (index : Nat) :
    place qs index (localIndex qs index) = index := by
  induction qs with
  | nil => rfl
  | cons q rest ih =>
      have hlt : localIndex rest index < 2 ^ rest.length := localIndex_lt rest index
      have hbits : ∀ p, (localIndex (q :: rest) index).testBit p =
          if p < rest.length then (localIndex rest index).testBit p
          else ((index.testBit q).toNat).testBit (p - rest.length) := by
        intro p
        rw [localIndex, Nat.testBit_two_pow_mul_add _ hlt]
      have hlow : place rest index (localIndex (q :: rest) index) = index := by
        have hsame : place rest index (localIndex (q :: rest) index) =
            place rest index (localIndex rest index) := by
          apply place_congr
          intro p hp
          rw [hbits p, if_pos hp]
        exact hsame.trans ih
      have htop : (localIndex (q :: rest) index).testBit rest.length = index.testBit q := by
        rw [hbits, if_neg (Nat.lt_irrefl _), Nat.sub_self, Nat.testBit_bool_toNat]
        simp
      rw [place, hlow, htop, setBit, if_pos rfl]

/-- The operand bits of `place` do not depend on the index. -/
theorem testBit_place_of_mem {qs : List Nat} {j : Nat} (h : j ∈ qs) (i i' value : Nat) :
    (place qs i value).testBit j = (place qs i' value).testBit j := by
  induction qs with
  | nil => cases h
  | cons q rest ih =>
      simp only [place, testBit_setBit]
      by_cases hj : j = q
      · rw [if_pos hj, if_pos hj]
      · rw [if_neg hj, if_neg hj]
        exact ih ((List.mem_cons.1 h).resolve_left hj)

/-- The second of two placements overrides the first. -/
theorem place_place (qs : List Nat) (index v w : Nat) :
    place qs (place qs index v) w = place qs index w := by
  apply Nat.eq_of_testBit_eq
  intro j
  by_cases hj : j ∈ qs
  · exact testBit_place_of_mem hj _ _ w
  · rw [testBit_place_of_notMem _ _ hj, testBit_place_of_notMem _ _ hj,
      testBit_place_of_notMem _ _ hj]

/-- `place` is injective in the value. -/
theorem place_injOn {qs : List Nat} (hqs : qs.Nodup) {index v w : Nat}
    (hv : v < 2 ^ qs.length) (hw : w < 2 ^ qs.length)
    (h : place qs index v = place qs index w) : v = w := by
  have hread : localIndex qs (place qs index v) = localIndex qs (place qs index w) := by rw [h]
  rwa [localIndex_place hqs, localIndex_place hqs, Nat.mod_eq_of_lt hv,
    Nat.mod_eq_of_lt hw] at hread

theorem place_lt {qs : List Nat} {n index : Nat} (hindex : index < 2 ^ n) (hqs : ∀ q ∈ qs, q < n)
    (value : Nat) : place qs index value < 2 ^ n := by
  apply Nat.lt_pow_two_of_testBit
  intro j hj
  have hmem : j ∉ qs := fun h => absurd (hqs j h) (Nat.not_lt.2 hj)
  rw [testBit_place_of_notMem _ _ hmem]
  exact Nat.testBit_lt_two_pow (Nat.lt_of_lt_of_le hindex (Nat.pow_le_pow_right (by omega) hj))

/-- Operands below `s` keep the bits from `s` on. -/
theorem place_div {qs : List Nat} {s : Nat} (hqs : ∀ q ∈ qs, q < s) (index value : Nat) :
    place qs index value / 2 ^ s = index / 2 ^ s := by
  apply Nat.eq_of_testBit_eq
  intro j
  have hmem : j + s ∉ qs := fun h => absurd (hqs _ h) (by omega)
  rw [Nat.testBit_div_two_pow, Nat.testBit_div_two_pow, testBit_place_of_notMem _ _ hmem]

/-! ## Zero bits put into a work item -/

/-- `item` with zero bits inserted at rising positions. -/
def spread : List Nat → Nat → Nat
  | [], item => item
  | q :: rest, item => spread rest (pairOffset item q)

theorem low_eq (n bits : Nat) : low n bits = n % 2 ^ bits := rfl

/-- Bits of `pairOffset`: a zero inserted at `q`. -/
theorem testBit_pairOffset (item q j : Nat) :
    (pairOffset item q).testBit j =
      if j < q then item.testBit j else if j = q then false else item.testBit (j - 1) := by
  simp only [pairOffset, low_eq, Nat.testBit_or, Nat.testBit_shiftLeft, Nat.testBit_shiftRight,
    Nat.testBit_mod_two_pow]
  by_cases hlt : j < q
  · have hle : ¬ q + 1 ≤ j := by omega
    simp [hlt, hle]
  · by_cases heq : j = q
    · have hle : ¬ q + 1 ≤ j := by omega
      simp [heq]
    · have hle : q + 1 ≤ j := by omega
      have hsub : q + (j - (q + 1)) = j - 1 := by omega
      simp [hlt, heq, hle, hsub]

/-- `pairOffset` as an arithmetic expression. -/
theorem pairOffset_eq (item q : Nat) :
    pairOffset item q = 2 ^ (q + 1) * (item / 2 ^ q) + item % 2 ^ q := by
  have hlow : item % 2 ^ q < 2 ^ (q + 1) :=
    Nat.lt_of_lt_of_le (Nat.mod_lt _ (Nat.two_pow_pos q))
      (Nat.pow_le_pow_right (by omega) (by omega))
  rw [pairOffset, low_eq, ← Nat.shiftLeft_add_eq_or_of_lt hlow, Nat.shiftLeft_eq,
    Nat.shiftRight_eq_div_pow, Nat.mul_comm]

/-- `pairOffset` adds the upper part of the item once more. -/
theorem pairOffset_eq_add (item q : Nat) :
    pairOffset item q = item + 2 ^ q * (item / 2 ^ q) := by
  have hsplit : 2 ^ q * (item / 2 ^ q) + item % 2 ^ q = item := Nat.div_add_mod item (2 ^ q)
  have hdouble : 2 ^ (q + 1) * (item / 2 ^ q) = 2 * (2 ^ q * (item / 2 ^ q)) := by
    rw [Nat.pow_succ, Nat.mul_comm (2 ^ q) 2, Nat.mul_assoc]
  rw [pairOffset_eq, hdouble]
  omega

theorem pairOffset_lt {item m : Nat} (h : item < 2 ^ m) (q : Nat) :
    pairOffset item q < 2 ^ (m + 1) := by
  have hle : 2 ^ q * (item / 2 ^ q) ≤ item := Nat.mul_div_le item (2 ^ q)
  rw [pairOffset_eq_add, Nat.pow_succ]
  omega

theorem le_pairOffset (item q : Nat) : item ≤ pairOffset item q := by
  rw [pairOffset_eq_add]
  exact Nat.le_add_right _ _

theorem pairOffset_mono (q : Nat) {item item' : Nat} (h : item ≤ item') :
    pairOffset item q ≤ pairOffset item' q := by
  rw [pairOffset_eq_add, pairOffset_eq_add]
  exact Nat.add_le_add h (Nat.mul_le_mul_left _ (Nat.div_le_div_right h))

/-- `pairOffset` is injective in the item. -/
theorem pairOffset_injective (q : Nat) : Function.Injective (pairOffset · q) := by
  intro i j h
  apply Nat.eq_of_testBit_eq
  intro p
  have hbit : ∀ k, (pairOffset i q).testBit k = (pairOffset j q).testBit k := by
    intro k
    exact congrArg (Nat.testBit · k) h
  simp only [testBit_pairOffset] at hbit
  by_cases hp : p < q
  · simpa [hp] using hbit p
  · have hge : ¬ p + 1 < q := by omega
    have hne : ¬ p + 1 = q := by omega
    simpa [hge, hne] using hbit (p + 1)

/-- `spread` is injective in the item. -/
theorem spread_injective (qs : List Nat) : Function.Injective (spread qs) := by
  induction qs with
  | nil => exact fun _ _ h => h
  | cons q rest ih =>
      intro i j h
      exact pairOffset_injective q (ih h)

/-- `spread` inserts one bit per operand. -/
theorem spread_lt (qs : List Nat) {item m : Nat} (h : item < 2 ^ m) :
    spread qs item < 2 ^ (m + qs.length) := by
  induction qs generalizing item m with
  | nil => simpa [spread] using h
  | cons q rest ih =>
      have hrest : spread rest (pairOffset item q) < 2 ^ (m + 1 + rest.length) :=
        ih (pairOffset_lt h q)
      have hlen : m + (q :: rest).length = m + 1 + rest.length := by
        simp only [List.length_cons]
        omega
      rw [hlen]
      exact hrest

/-- `spread` keeps the bits below all operands. -/
theorem testBit_spread_of_lt {qs : List Nat} {j : Nat} (h : ∀ q ∈ qs, j < q) (item : Nat) :
    (spread qs item).testBit j = item.testBit j := by
  induction qs generalizing item with
  | nil => rfl
  | cons q rest ih =>
      have hq : j < q := h q List.mem_cons_self
      rw [spread, ih (fun q' hq' => h q' (List.mem_cons_of_mem _ hq')), testBit_pairOffset,
        if_pos hq]

/-- `spread` inserts zeros at the operands. -/
theorem testBit_spread_of_mem {qs : List Nat} (hqs : qs.Pairwise (· < ·)) {q : Nat} (h : q ∈ qs)
    (item : Nat) : (spread qs item).testBit q = false := by
  induction qs generalizing item with
  | nil => cases h
  | cons q' rest ih =>
      have hcons := List.pairwise_cons.1 hqs
      rcases List.mem_cons.1 h with rfl | hrest
      · rw [spread, testBit_spread_of_lt hcons.1, testBit_pairOffset]
        simp
      · exact ih hcons.2 hrest _

/-- A rising list below `s` leaves room for its tail. -/
theorem head_add_length_lt {q s : Nat} {rest : List Nat} (hqs : (q :: rest).Pairwise (· < ·))
    (hs : ∀ p ∈ q :: rest, p < s) : q + rest.length < s := by
  induction rest generalizing q with
  | nil => simpa using hs q List.mem_cons_self
  | cons q' rest ih =>
      have hcons := List.pairwise_cons.1 hqs
      have hlt : q < q' := hcons.1 q' List.mem_cons_self
      have hrest : q' + rest.length < s := ih hcons.2 fun p hp => hs p (List.mem_cons_of_mem _ hp)
      simp only [List.length_cons]
      omega

theorem pairOffset_div {q s : Nat} (h : q ≤ s) (item : Nat) :
    pairOffset item q / 2 ^ (s + 1) = item / 2 ^ s := by
  apply Nat.eq_of_testBit_eq
  intro j
  rw [Nat.testBit_div_two_pow, Nat.testBit_div_two_pow, testBit_pairOffset]
  have hge : ¬ j + (s + 1) < q := by omega
  have hne : ¬ j + (s + 1) = q := by omega
  have hsub : j + (s + 1) - 1 = j + s := by omega
  rw [if_neg hge, if_neg hne, hsub]

/-- Operands below `s` shift the bits above by their number. -/
theorem spread_div {qs : List Nat} {s : Nat} (hqs : qs.Pairwise (· < ·)) (hs : ∀ q ∈ qs, q < s)
    (item : Nat) : spread qs item / 2 ^ s = item / 2 ^ (s - qs.length) := by
  induction qs generalizing item with
  | nil => rfl
  | cons q rest ih =>
      have hroom : q + rest.length < s := head_add_length_lt hqs hs
      have hrest : spread rest (pairOffset item q) / 2 ^ s =
          pairOffset item q / 2 ^ (s - rest.length) :=
        ih (List.pairwise_cons.1 hqs).2 (fun p hp => hs p (List.mem_cons_of_mem _ hp)) _
      have hpred : s - rest.length = s - (rest.length + 1) + 1 := by omega
      rw [spread, hrest, hpred, pairOffset_div (by omega), List.length_cons]

/-! ## Offsets of the workers -/

/-- `quadBase` is `spread` over two operands. -/
theorem quadBase_eq_spread {lo hi : Nat} (h : lo < hi) (item : Nat) :
    quadBase item lo hi = spread [lo, hi] item := by
  apply Nat.eq_of_testBit_eq
  intro j
  have hfirst : lo < j → lo + (j - (lo + 1)) = j - 1 := by omega
  have hlast : hi < j → hi - 1 + (j - (hi + 1)) = j - 1 - 1 := by omega
  simp only [spread, testBit_pairOffset, quadBase, low_eq, Nat.testBit_or, Nat.testBit_mod_two_pow,
    Nat.testBit_shiftLeft, Nat.testBit_shiftRight]
  -- One case for each stretch of the index, and one for each bit put in.
  rcases Nat.lt_trichotomy j lo with h1 | rfl | h1
  · grind
  · grind
  · rcases Nat.lt_trichotomy j hi with h2 | rfl | h2
    · rw [hfirst h1]
      grind
    · grind
    · rw [hlast h2]
      grind

/-- `octetBase` is `spread` over three operands. -/
theorem octetBase_eq_spread {a b c : Nat} (hab : a < b) (hbc : b < c) (item : Nat) :
    octetBase item a b c = spread [a, b, c] item := by
  apply Nat.eq_of_testBit_eq
  intro j
  have hfirst : a < j → a + (j - (a + 1)) = j - 1 := by omega
  have hsecond : b < j → b - 1 + (j - (b + 1)) = j - 1 - 1 := by omega
  have hlast : c < j → c - 2 + (j - (c + 1)) = j - 1 - 1 - 1 := by omega
  simp only [spread, testBit_pairOffset, octetBase, low_eq, Nat.testBit_or, Nat.testBit_mod_two_pow,
    Nat.testBit_shiftLeft, Nat.testBit_shiftRight]
  -- Bit `j` lies below, on or between the operands; each operand passed shifts it by one.
  rcases Nat.lt_trichotomy j a with h1 | rfl | h1
  · grind
  · grind
  · rcases Nat.lt_trichotomy j b with h2 | rfl | h2
    · rw [hfirst h1]
      grind
    · grind
    · rcases Nat.lt_trichotomy j c with h3 | rfl | h3
      · rw [hsecond h2]
        grind
      · grind
      · rw [hlast h3]
        grind

def rising : List Nat → List Nat
  | [q1, q2] => [(sort2 q1 q2).1, (sort2 q1 q2).2]
  | [q1, q2, q3] => [(sort3 q1 q2 q3).1, (sort3 q1 q2 q3).2.1, (sort3 q1 q2 q3).2.2]
  | qs => qs

/-- The members of a work item: operand bits written into the spread item. -/
def group (qs : List Nat) (item : Nat) : List Nat :=
  (List.range (2 ^ qs.length)).map (place qs (spread (rising qs) item))

theorem length_rising (qs : List Nat) : (rising qs).length = qs.length := by
  unfold rising
  split <;> rfl

/-- `rising` has the same elements. -/
theorem mem_rising {qs : List Nat} (hlen : qs.length ≤ 3) {q : Nat} : q ∈ rising qs ↔ q ∈ qs := by
  match qs, hlen with
  | [], _ => rfl
  | [_], _ => rfl
  | [q1, q2], _ => simp [rising, sort2]; grind
  | [q1, q2, q3], _ => simp [rising, sort3, sort2]; grind

/-- `rising` of distinct operands is strictly increasing. -/
theorem pairwise_rising {qs : List Nat} (hlen : qs.length ≤ 3) (h : qs.Nodup) :
    (rising qs).Pairwise (· < ·) := by
  match qs, hlen with
  | [], _ => exact List.Pairwise.nil
  | [q], _ => exact List.pairwise_singleton _ q
  | [q1, q2], _ => simp [rising, sort2] at h ⊢; grind
  | [q1, q2, q3], _ => simp [rising, sort3, sort2] at h ⊢; grind

/-- The base of a group is clear at the operands. -/
theorem testBit_base {qs : List Nat} (hlen : qs.length ≤ 3) (h : qs.Nodup) {q : Nat} (hq : q ∈ qs)
    (item : Nat) : (spread (rising qs) item).testBit q = false :=
  testBit_spread_of_mem (pairwise_rising hlen h) ((mem_rising hlen).2 hq) item

/-! ## Members of a group -/

theorem or_eq_setBit (index q : Nat) : index ||| 1 <<< q = setBit index q true := by
  apply Nat.eq_of_testBit_eq
  intro j
  rw [Nat.testBit_or, testBit_one_shiftLeft, testBit_setBit]
  by_cases h : j = q
  · simp [h]
  · have hne : ¬ q = j := fun e => h e.symm
    simp [h, hne]

theorem setBit_false {index q : Nat} (h : index.testBit q = false) :
    setBit index q false = index := by
  rw [setBit, if_pos h]

/-- Setting a clear bit conditionally is `setBit`. -/
theorem ite_or_eq_setBit {index q : Nat} (h : index.testBit q = false) (b : Bool) :
    (if b then index ||| 1 <<< q else index) = setBit index q b := by
  cases b with
  | false => simp [setBit_false h]
  | true => simp [or_eq_setBit]

theorem setBit_comm {q q' : Nat} (h : q ≠ q') (index : Nat) (b b' : Bool) :
    setBit (setBit index q b) q' b' = setBit (setBit index q' b') q b := by
  apply Nat.eq_of_testBit_eq
  intro j
  simp only [testBit_setBit]
  by_cases hq : j = q
  · rw [if_pos hq, if_pos hq, if_neg (fun e => h (hq.symm.trans e))]
  · rw [if_neg hq, if_neg hq]

/-- `pairMembers` enumerates a group of one operand. -/
theorem pairMembers_eq_group (item q : Nat) :
    pairMembers (pairOffset item q) q = group [q] item := by
  have hzero : (pairOffset item q).testBit q = false := by
    rw [testBit_pairOffset]
    simp
  simp [pairMembers, group, rising, spread, place, List.range_succ, or_eq_setBit,
    setBit_false hzero]

/-- `quadMembers` enumerates a group of two operands. -/
theorem quadMembers_eq_group {q1 q2 : Nat} (h : [q1, q2].Nodup) (item : Nat) :
    quadMembers item q1 q2 = group [q1, q2] item := by
  have hne : q1 ≠ q2 := by simpa using h
  have hbase : quadBase item (sort2 q1 q2).1 (sort2 q1 q2).2 = spread (rising [q1, q2]) item := by
    have hrise := pairwise_rising (by simp) h
    exact quadBase_eq_spread (by simpa [rising] using hrise) item
  have hz1 := testBit_base (by simp) h (List.mem_cons_self) item
  have hz2 := testBit_base (by simp) h (List.mem_cons_of_mem _ List.mem_cons_self) item
  simp only [quadMembers, hbase, group]
  generalize spread (rising [q1, q2]) item = base at hz1 hz2
  have hz : (setBit base q2 true).testBit q1 = false := by
    rw [testBit_setBit, if_neg hne, hz1]
  have hb1 : Nat.testBit 1 1 = false := by decide
  have hb2 : Nat.testBit 2 1 = true := by decide
  have hb3 : Nat.testBit 3 1 = true := by decide
  simp [place, List.range_succ, or_eq_setBit, setBit_false hz1, setBit_false hz2, setBit_false hz,
    setBit_comm hne, hb1, hb2, hb3]

/-- `octetMembers` enumerates a group of three operands. -/
theorem octetMembers_eq_group {q1 q2 q3 : Nat} (h : [q1, q2, q3].Nodup) (item : Nat) :
    octetMembers item q1 q2 q3 = group [q1, q2, q3] item := by
  have hne : q1 ≠ q2 ∧ q1 ≠ q3 ∧ q2 ≠ q3 := by
    simp only [List.nodup_cons, List.mem_cons, List.not_mem_nil, or_false, not_or] at h
    exact ⟨h.1.1, h.1.2, h.2.1⟩
  rcases hne with ⟨h12, h13, h23⟩
  have hbase : octetBase item (sort3 q1 q2 q3).1 (sort3 q1 q2 q3).2.1 (sort3 q1 q2 q3).2.2 =
      spread (rising [q1, q2, q3]) item := by
    have hrise := pairwise_rising (by simp) h
    simp only [rising, List.pairwise_cons, List.mem_cons, List.not_mem_nil, or_false] at hrise
    exact octetBase_eq_spread (hrise.1 _ (Or.inl rfl)) (hrise.2.1 _ rfl) item
  have hz1 := testBit_base (by simp) h (q := q1) (by simp) item
  have hz2 := testBit_base (by simp) h (q := q2) (by simp) item
  have hz3 := testBit_base (by simp) h (q := q3) (by simp) item
  simp only [octetMembers, hbase, group]
  generalize spread (rising [q1, q2, q3]) item = base at hz1 hz2 hz3
  apply List.map_congr_left
  intro i _
  -- Setting the bit of one operand leaves those of the others clear.
  have hz2' : (setBit base q1 (i.testBit 2)).testBit q2 = false := by
    rw [testBit_setBit, if_neg h12.symm, hz2]
  have hz3' : (setBit (setBit base q1 (i.testBit 2)) q2 (i.testBit 1)).testBit q3 = false := by
    rw [testBit_setBit, if_neg h23.symm, testBit_setBit, if_neg h13.symm, hz3]
  rw [ite_or_eq_setBit hz1, ite_or_eq_setBit hz2', ite_or_eq_setBit hz3']
  -- `place` sets the last operand first, so the three have to change places.
  simp only [place, List.length_cons, List.length_nil]
  calc
    setBit (setBit (setBit base q1 (i.testBit 2)) q2 (i.testBit 1)) q3 (i.testBit 0)
        = setBit (setBit (setBit base q2 (i.testBit 1)) q1 (i.testBit 2)) q3 (i.testBit 0) := by
          rw [setBit_comm h12]
    _ = setBit (setBit (setBit base q2 (i.testBit 1)) q3 (i.testBit 0)) q1 (i.testBit 2) := by
          rw [setBit_comm h13]
    _ = setBit (setBit (setBit base q3 (i.testBit 0)) q2 (i.testBit 1)) q1 (i.testBit 2) := by
          rw [setBit_comm h23]

/-! ## Stepping from pair to pair -/

/-- `nextPairOffset` leads to the pair of the next item. -/
theorem nextPairOffset_pairOffset (item q : Nat) :
    nextPairOffset (pairOffset item q) (1 <<< q) = pairOffset (item + 1) q := by
  have hpos : 0 < 2 ^ q := Nat.two_pow_pos q
  have hsplit : 2 ^ q * (item / 2 ^ q) + item % 2 ^ q = item := Nat.div_add_mod item (2 ^ q)
  have hlt : item % 2 ^ q < 2 ^ q := Nat.mod_lt _ hpos
  have hbit : ((pairOffset item q + 1) &&& 1 <<< q = 0) ↔
      (pairOffset item q + 1).testBit q = false := by
    rw [Nat.one_shiftLeft, Nat.and_two_pow]
    cases (pairOffset item q + 1).testBit q <;> simp
  have hsucc : pairOffset item q + 1 = 2 ^ (q + 1) * (item / 2 ^ q) + (item % 2 ^ q + 1) := by
    rw [pairOffset_eq]
    omega
  by_cases hroom : item % 2 ^ q + 1 < 2 ^ q
  · -- The next item differs from this one below the operand only.
    have hzero : (pairOffset item q + 1).testBit q = false := by
      rw [hsucc, Nat.testBit_two_pow_mul_add _ (Nat.lt_of_lt_of_le hroom
        (Nat.pow_le_pow_right (by omega) (by omega))), if_pos (by omega)]
      exact Nat.testBit_lt_two_pow hroom
    have hdiv : (item + 1) / 2 ^ q = item / 2 ^ q := by
      rw [Nat.div_eq_iff hpos]
      constructor
      · rw [Nat.mul_comm]; omega
      · rw [Nat.mul_comm]; omega
    rw [nextPairOffset, if_pos (hbit.2 hzero), pairOffset_eq_add, pairOffset_eq_add, hdiv]
    omega
  · -- The low bits are used up: the step lands on the operand bit and goes past it.
    have hfull : item % 2 ^ q + 1 = 2 ^ q := by omega
    have hone : (pairOffset item q + 1).testBit q = true := by
      rw [hsucc, hfull, Nat.testBit_two_pow_mul_add _ (Nat.pow_lt_pow_right (by omega) (by omega)),
        if_pos (by omega), Nat.testBit_two_pow_self]
    have hdiv : (item + 1) / 2 ^ q = item / 2 ^ q + 1 := by
      have hnext : item + 1 = 2 ^ q * (item / 2 ^ q + 1) := by
        rw [Nat.mul_add, Nat.mul_one]
        omega
      rw [hnext, Nat.mul_div_cancel_left _ hpos]
    have hskip : ¬ (pairOffset item q + 1) &&& 1 <<< q = 0 := by
      rw [hbit, hone]
      simp
    rw [nextPairOffset, if_neg hskip, pairOffset_eq_add, pairOffset_eq_add, hdiv, Nat.one_shiftLeft,
      Nat.mul_add, Nat.mul_one]
    omega

/-- A walk visits the pairs of consecutive items. -/
theorem pairWalk_eq_map (q count item : Nat) :
    pairWalk (1 <<< q) count (pairOffset item q) =
      (List.range' item count).map (pairOffset · q) := by
  induction count generalizing item with
  | zero => rfl
  | succ count ih =>
      rw [pairWalk, nextPairOffset_pairOffset, ih, List.range'_succ, List.map_cons]

end BasisIndex
end ShotSim
