import Mathlib.Data.Set.Function
import ShotSim.Proofs.Partition

/-!
# Addressing — from work items to basis indices and back

A worker turns a work item and a local index into a basis index.  Nothing is lost on the way: the
operand bits of the index spell the local index, and what is left when they are taken out is the
item.

* `members`, `member` — the offsets of a group as the workers compute them, for one to three
  operands;
* `gather`, `deleteBits` — a number read off some of the bits of an index;
* `gather_spread` — the bits between the zeros that were put in are those of the item;
* `addressing_bijective` — items and local indices are just another way to name the basis indices.
-/

namespace ShotSim
namespace BasisIndex

/-! ## Groups as the workers compute them -/

/-- The offsets of the group of a work item by local index, first operand most significant. -/
def members : List Nat → Nat → List Nat
  | [q], item => pairMembers (pairOffset item q) q
  | [q1, q2], item => quadMembers item q1 q2
  | [q1, q2, q3], item => octetMembers item q1 q2 q3
  | _, _ => []

def member (qs : List Nat) (item l : Nat) : Nat := (members qs item).getD l 0

/-- `members` of distinct operands is the group enumerated by local index. -/
theorem members_eq_group {qs : List Nat} (hpos : 0 < qs.length) (hlen : qs.length ≤ 3)
    (hqs : qs.Nodup) (item : Nat) : members qs item = group qs item := by
  match qs, hpos, hlen with
  | [q], _, _ => exact pairMembers_eq_group item q
  | [q1, q2], _, _ => exact quadMembers_eq_group hqs item
  | [q1, q2, q3], _, _ => exact octetMembers_eq_group hqs item

/-- Member `l` is the spread item with the bits of `l` written at the operands. -/
theorem member_eq_place {qs : List Nat} (hpos : 0 < qs.length) (hlen : qs.length ≤ 3)
    (hqs : qs.Nodup) (item : Nat) {l : Nat} (hl : l < 2 ^ qs.length) :
    member qs item l = place qs (spread (rising qs) item) l := by
  rw [member, members_eq_group hpos hlen hqs, group, List.getD_eq_getElem?_getD, List.getElem?_map,
    List.getElem?_range hl]
  rfl

/-! ## Bits taken out of an index -/

/-- The bits of `index` at the given positions read as a number, first position least
significant. -/
def gather : List Nat → Nat → Nat
  | [], _ => 0
  | p :: rest, index => (index.testBit p).toNat + 2 * gather rest index

/-- An index of `n` bits with the operand bits deleted. -/
def deleteBits (n : Nat) (qs : List Nat) (index : Nat) : Nat :=
  gather ((List.range n).filter (· ∉ qs)) index

/-- `gather` over appended positions adds the two parts with their weights. -/
theorem gather_append (ps ps' : List Nat) (index : Nat) :
    gather (ps ++ ps') index = gather ps index + 2 ^ ps.length * gather ps' index := by
  induction ps with
  | nil => simp [gather]
  | cons p rest ih =>
      rw [List.cons_append, gather, ih, gather, List.length_cons, Nat.pow_succ]
      ring

/-- Gathering the lowest `n` bits is taking the remainder mod `2 ^ n`. -/
theorem gather_range (k index : Nat) : gather (List.range k) index = index % 2 ^ k := by
  induction k with
  | zero => simp [gather, Nat.mod_one]
  | succ k ih =>
      rw [List.range_succ, gather_append, ih, List.length_range, Nat.mod_pow_succ, gather, gather,
        Nat.toNat_testBit, Nat.mul_zero, Nat.add_zero]

/-- `gather` depends only on the bits at its positions. -/
theorem gather_congr {ps : List Nat} {i j : Nat} (h : ∀ p ∈ ps, i.testBit p = j.testBit p) :
    gather ps i = gather ps j := by
  induction ps with
  | nil => rfl
  | cons p rest ih =>
      rw [List.forall_mem_cons] at h
      rw [gather, gather, h.1, ih h.2]

/-- The positions below `n` outside a rising list, split at the head of the list. -/
theorem filter_range_of_rising {q n : Nat} {rest : List Nat} (hrest : ∀ p ∈ rest, q < p)
    (hq : q < n) :
    ∃ above : List Nat, (List.range n).filter (· ∉ rest) = List.range q ++ q :: above ∧
      (List.range n).filter (· ∉ q :: rest) = List.range q ++ above := by
  have hsplit : List.range n = List.range q ++ q :: List.range' (q + 1) (n - q - 1) := by
    rw [List.range_eq_range', List.range_eq_range', ← List.range'_succ]
    have happend := @List.range'_append_1 0 q (n - q - 1 + 1)
    rw [Nat.zero_add] at happend
    rw [happend]
    congr 1
    omega
  -- Below the head nothing is filtered out, with or without it.
  have hbelow : ∀ ps : List Nat, (∀ p ∈ ps, q ≤ p) →
      (List.range q).filter (· ∉ ps) = List.range q := by
    intro ps hps
    rw [List.filter_eq_self]
    intro p hp
    have hlt := List.mem_range.1 hp
    exact decide_eq_true fun hmem => absurd (hps p hmem) (by omega)
  have hq' : q ∉ rest := fun hmem => Nat.lt_irrefl q (hrest q hmem)
  refine ⟨(List.range' (q + 1) (n - q - 1)).filter (· ∉ rest), ?_, ?_⟩
  · rw [hsplit, List.filter_append, hbelow rest fun p hp => (hrest p hp).le,
      List.filter_cons_of_pos (by simpa using hq')]
  · rw [hsplit, List.filter_append, hbelow (q :: rest) (by
      simpa using fun p hp => (hrest p hp).le), List.filter_cons_of_neg (by simp)]
    -- Above the head, `q` itself is not there to be filtered.
    congr 1
    apply List.filter_congr
    intro p hp
    have hne : p ≠ q := by
      have hle := (List.mem_range'_1.1 hp).1
      omega
    simp [hne]

/-- `gather` at the complementary positions inverts `spread`. -/
theorem gather_spread {qs : List Nat} {n : Nat} (hqs : qs.Pairwise (· < ·)) (hn : ∀ q ∈ qs, q < n)
    {item : Nat} (hitem : item < 2 ^ (n - qs.length)) :
    gather ((List.range n).filter (· ∉ qs)) (spread qs item) = item := by
  induction qs generalizing item with
  | nil =>
      have hall : (List.range n).filter (· ∉ []) = List.range n := by
        simp
      rw [hall, gather_range, spread]
      exact Nat.mod_eq_of_lt hitem
  | cons q rest ih =>
      have hcons := List.pairwise_cons.1 hqs
      have hlast : q + rest.length < n := head_add_length_lt hqs hn
      have hpred : n - rest.length = n - (q :: rest).length + 1 := by
        rw [List.length_cons]
        omega
      -- Without the first zero the later ones are put into the item that holds it.
      have hwide : gather ((List.range n).filter (· ∉ rest)) (spread (q :: rest) item) =
          pairOffset item q := by
        apply ih hcons.2 fun p hp => hn p (List.mem_cons_of_mem _ hp)
        rw [hpred]
        exact pairOffset_lt hitem q
      obtain ⟨above, hkept, hkept'⟩ := filter_range_of_rising hcons.1 (hn q List.mem_cons_self)
      have hzero : (spread (q :: rest) item).testBit q = false :=
        testBit_spread_of_mem hqs List.mem_cons_self item
      rw [hkept, gather_append, gather_range, List.length_range, gather, hzero, Bool.toNat_false,
        Nat.zero_add, ← Nat.mul_assoc, ← Nat.pow_succ, pairOffset_eq, Nat.add_comm] at hwide
      rw [hkept', gather_append, gather_range, List.length_range]
      -- Both sides of `hwide` are a low part below the zero and a high part above it.
      have hpos : 0 < 2 ^ (q + 1) := Nat.two_pow_pos _
      have hsmall : ∀ x, x % 2 ^ q < 2 ^ (q + 1) := by
        intro x
        exact Nat.lt_of_lt_of_le (Nat.mod_lt _ (Nat.two_pow_pos q))
          (Nat.pow_le_pow_right (by omega) (by omega))
      have hhigh := congrArg (· / 2 ^ (q + 1)) hwide
      have hlow := congrArg (· % 2 ^ (q + 1)) hwide
      simp only [Nat.mul_add_div hpos, Nat.div_eq_of_lt (hsmall _), Nat.add_zero, Nat.mul_add_mod,
        Nat.mod_eq_of_lt (hsmall _)] at hhigh hlow
      rw [hhigh, hlow]
      exact Nat.mod_add_div item (2 ^ q)

/-- Deleting the operand bits of a member returns its work item. -/
theorem deleteBits_place {qs : List Nat} (hlen : qs.length ≤ 3) (hqs : qs.Nodup) {n : Nat}
    (hn : ∀ q ∈ qs, q < n) {item : Nat} (hitem : item < 2 ^ (n - qs.length)) (value : Nat) :
    deleteBits n qs (place qs (spread (rising qs) item) value) = item := by
  have hsame : (List.range n).filter (· ∉ qs) = (List.range n).filter (· ∉ rising qs) := by
    apply List.filter_congr
    intro p _
    simp only [mem_rising hlen]
  have hbits : gather ((List.range n).filter (· ∉ qs)) (place qs (spread (rising qs) item) value) =
      gather ((List.range n).filter (· ∉ qs)) (spread (rising qs) item) := by
    apply gather_congr
    intro p hp
    exact testBit_place_of_notMem _ _ (of_decide_eq_true (List.mem_filter.1 hp).2)
  rw [deleteBits, hbits, hsame]
  apply gather_spread (pairwise_rising hlen hqs) fun q hq => hn q ((mem_rising hlen).1 hq)
  rw [length_rising]
  exact hitem

/-! ## Operand order -/

/-- Operand `j` receives bit `j` of the value, counted from the most significant one. -/
theorem testBit_place_operand {qs : List Nat} (hqs : qs.Nodup) (index value : Nat) {j q : Nat}
    (hj : qs[j]? = some q) :
    (place qs index value).testBit q = value.testBit (qs.length - 1 - j) := by
  induction qs generalizing j with
  | nil => cases hj
  | cons first rest ih =>
      rw [place, testBit_setBit, List.length_cons, Nat.add_sub_cancel]
      cases j with
      | zero =>
          obtain rfl : first = q := Option.some.inj hj
          rw [if_pos rfl, Nat.sub_zero]
      | succ j =>
          have hrest : rest[j]? = some q := hj
          have hne : q ≠ first := by
            rintro rfl
            exact (List.nodup_cons.1 hqs).1 (List.mem_of_getElem? hrest)
          rw [if_neg hne, ih (List.nodup_cons.1 hqs).2 hrest]
          congr 1
          omega

/-! ## The bijection -/

/-- Work items and local indices are in bijection with the basis indices below `2 ^ n`, for distinct
operands in any order. The operand bits of a member form its local index, first operand most
significant, and the remaining bits form its work item. -/
theorem addressing_bijective {n : Nat} {qs : List Nat} (hpos : 0 < qs.length) (hlen : qs.length ≤ 3)
    (hqs : qs.Nodup) (hn : ∀ q ∈ qs, q < n) :
    (∀ item, (members qs item).length = 2 ^ qs.length) ∧
    Set.BijOn (fun p : Nat × Nat => member qs p.1 p.2)
      {p | p.1 < 2 ^ (n - qs.length) ∧ p.2 < 2 ^ qs.length} {i | i < 2 ^ n} ∧
    (∀ item l, l < 2 ^ qs.length → ∀ j q, qs[j]? = some q →
      (member qs item l).testBit q = l.testBit (qs.length - 1 - j)) ∧
    ∀ item l, item < 2 ^ (n - qs.length) → l < 2 ^ qs.length →
      deleteBits n qs (member qs item l) = item := by
  have hitem : ∀ item l, item < 2 ^ (n - qs.length) → l < 2 ^ qs.length →
      deleteBits n qs (member qs item l) = item := by
    intro item l hitem hl
    rw [member_eq_place hpos hlen hqs item hl]
    exact deleteBits_place hlen hqs hn hitem l
  have hlocal : ∀ item l, l < 2 ^ qs.length → localIndex qs (member qs item l) = l := by
    intro item l hl
    rw [member_eq_place hpos hlen hqs item hl, localIndex_place hqs, Nat.mod_eq_of_lt hl]
  refine ⟨?_, ⟨?_, ?_, ?_⟩, ?_, hitem⟩
  · intro item
    rw [members_eq_group hpos hlen hqs, length_group]
  · rintro ⟨item, l⟩ ⟨hi, hl⟩
    have hmem : place qs (spread (rising qs) item) l ∈ group qs item :=
      List.mem_map_of_mem (List.mem_range.2 hl)
    change member qs item l < 2 ^ n
    rw [member_eq_place hpos hlen hqs item hl]
    exact group_lt hn (length_le_of_forall_lt hqs hn) hi hmem
  · -- Item and local index can be read off the member.
    rintro ⟨item, l⟩ ⟨hi, hl⟩ ⟨item', l'⟩ ⟨hi', hl'⟩ heq
    dsimp only at hi hl hi' hl' heq
    have hitems : item = item' := by rw [← hitem item l hi hl, heq, hitem item' l' hi' hl']
    have hlocals : l = l' := by rw [← hlocal item l hl, heq, hlocal item' l' hl']
    rw [hitems, hlocals]
  · -- The groups of all items cover the indices.
    intro i hi
    have hall := (perm_flatten_map_group hlen hqs hn).mem_iff.2 (List.mem_range.2 hi)
    obtain ⟨g, hg, hig⟩ := List.mem_flatten.1 hall
    obtain ⟨item, hitem, rfl⟩ := List.mem_map.1 hg
    obtain ⟨l, hl, rfl⟩ := List.mem_map.1 hig
    exact ⟨(item, l), ⟨List.mem_range.1 hitem, List.mem_range.1 hl⟩,
      member_eq_place hpos hlen hqs item (List.mem_range.1 hl)⟩
  · intro item l hl j q hj
    rw [member_eq_place hpos hlen hqs item hl]
    exact testBit_place_operand hqs _ l hj

/-- Three operands of the largest circuit in no order: both ends of the index, and one next to an
end. -/
theorem addressing_bijective_ends :
    [0, 26, 25].Nodup ∧
      Set.BijOn (fun p : Nat × Nat => octetMembers p.1 0 26 25 |>.getD p.2 0)
        {p | p.1 < 2 ^ 24 ∧ p.2 < 2 ^ 3} {i | i < 2 ^ 27} ∧
      deleteBits 27 [0, 26, 25] ((octetMembers 5 0 26 25).getD 6 0) = 5 := by
  have haddress :=
    @addressing_bijective 27 [0, 26, 25] (by decide) (by decide) (by decide) (by decide)
  exact ⟨by decide, haddress.2.1, haddress.2.2.2 5 6 (by decide) (by decide)⟩

end BasisIndex
end ShotSim
