import Mathlib.Data.List.Basic
import ShotSim.Fault
import ShotSim.Proofs.Partition

/-!
# Guarded indices — arithmetic that stops at the first breach

Indices are computed with words: 32 bits for qubits, workers and steps, 64 bits for amplitudes.  On
words a difference can fall below zero, a sum can be too large, a shift can be too far and loses
what it moves out, and an index can lie outside its array.  A guarded computation checks all of this
where it happens and stops at the first breach.  Here the indices of a step are computed in this
way, and where the qubits are distinct and small enough, nothing is ever stopped and the indices are
those that are computed without any check.

* `Breach`, `Guarded`, `demand` — what can go wrong, and computations that find out;
* `sub`, `fit`, `shl`, `shr`, `read`, `write`, `slice` — the checked operations;
* `quadBase_eq`, `octetBase_eq`, `pairOffset_eq`, `pairWalk_eq` — groups of amplitudes;
* `groups_eq` — all groups that a worker visits.
-/

namespace ShotSim

/-- Breaches of word and array bounds. -/
inductive Breach
  | index (size index : Nat)
  | range (size start stop : Nat)
  /-- A copy between stretches of different lengths. -/
  | lengths (left right : Nat)
  | subtraction (left right : Nat)
  | overflow (bits value : Nat)
  | shift (bits amount : Nat)
  /-- An array is to be cut into pieces of size zero. -/
  | pieces
  | fault (cause : Fault)
  deriving DecidableEq, Repr

/-- A computation that stops at the first breach. -/
abbrev Guarded (α : Type) := Except Breach α

def wordBits : Nat := 32

def indexBits : Nat := 64

namespace Guarded

/-- A guarded value that is there is passed on. -/
theorem ok_bind {α β : Type} (a : α) (f : α → Guarded β) : (Except.ok a >>= f) = f a := rfl

/-- Succeeds if `p` holds and stops with `breach` otherwise. -/
def demand (p : Prop) [Decidable p] (breach : Breach) : Guarded PUnit :=
  if p then .ok ⟨⟩ else .error breach

/-- A demand that holds is no breach. -/
theorem demand_of {p : Prop} [Decidable p] (h : p) (breach : Breach) : demand p breach = .ok ⟨⟩ :=
  if_pos h

/-! ## Words -/

def sub (a b : Nat) : Guarded Nat := do
  demand (b ≤ a) (.subtraction a b)
  return a - b

/-- Checks that a sum or product fits a word. -/
def fit (bits n : Nat) : Guarded Nat := do
  demand (n < 2 ^ bits) (.overflow bits n)
  return n

/-- A left shift by less than the word size. Overflowing bits are dropped. -/
def shl (bits n amount : Nat) : Guarded Nat := do
  demand (amount < bits) (.shift bits amount)
  return (n <<< amount) % 2 ^ bits

def shr (bits n amount : Nat) : Guarded Nat := do
  demand (amount < bits) (.shift bits amount)
  return n >>> amount

theorem sub_of_le {a b : Nat} (h : b ≤ a) : sub a b = .ok (a - b) := by
  rw [sub, demand_of h, ok_bind]
  rfl

theorem fit_of_lt {bits n : Nat} (h : n < 2 ^ bits) : fit bits n = .ok n := by
  rw [fit, demand_of h, ok_bind]
  rfl

/-- A shift without overflow is no breach. -/
theorem shl_of_lt {bits n amount : Nat} (hamount : amount < bits) (h : n <<< amount < 2 ^ bits) :
    shl bits n amount = .ok (n <<< amount) := by
  rw [shl, demand_of hamount, ok_bind, Nat.mod_eq_of_lt h]
  rfl

theorem shr_of_lt {bits n amount : Nat} (h : amount < bits) :
    shr bits n amount = .ok (n >>> amount) := by
  rw [shr, demand_of h, ok_bind]
  rfl

/-- A mask of one bit within a word is no breach. -/
theorem shl_one {bits q : Nat} (h : q < bits) : shl bits 1 q = .ok (1 <<< q) := by
  apply shl_of_lt h
  rw [Nat.one_shiftLeft]
  exact Nat.pow_lt_pow_right (by omega) h

/-! ## Arrays -/

section Arrays

variable {α : Type}

def read (xs : Array α) (i : Nat) : Guarded α :=
  match xs[i]? with
  | some x => .ok x
  | none => .error (.index xs.size i)

def write (xs : Array α) (i : Nat) (x : α) : Guarded (Array α) := do
  demand (i < xs.size) (.index xs.size i)
  return xs.setIfInBounds i x

def slice (xs : Array α) (start stop : Nat) : Guarded (Array α) := do
  demand (start ≤ stop ∧ stop ≤ xs.size) (.range xs.size start stop)
  return xs.extract start stop

theorem read_of_some {xs : Array α} {i : Nat} {x : α} (h : xs[i]? = some x) :
    read xs i = .ok x := by
  rw [read, h]

theorem write_of_lt {xs : Array α} {i : Nat} (h : i < xs.size) (x : α) :
    write xs i x = .ok (xs.setIfInBounds i x) := by
  rw [write, demand_of h, ok_bind]
  rfl

/-- A slice within bounds is no breach. -/
theorem slice_of_le {xs : Array α} {start stop : Nat} (hstart : start ≤ stop)
    (hstop : stop ≤ xs.size) : slice xs start stop = .ok (xs.extract start stop) := by
  rw [slice, demand_of ⟨hstart, hstop⟩, ok_bind]
  rfl

end Arrays

/-! ## Loops -/

section Loops

variable {α β : Type}

/-- A guarded `mapM` without breaches is the plain `map`. -/
theorem mapM_eq {f : α → Guarded β} {g : α → β} {xs : List α} (h : ∀ x ∈ xs, f x = .ok (g x)) :
    xs.mapM f = .ok (xs.map g) := by
  induction xs with
  | nil => rfl
  | cons x rest ih =>
      have hrest := ih fun y hy => h y (List.mem_cons_of_mem _ hy)
      rw [List.mapM_cons, h x List.mem_cons_self, ok_bind, hrest, ok_bind]
      rfl

/-- A guarded `mapM` over elements and indices without breaches is the plain `map`. -/
theorem mapM_zipIdx_eq {f : α × Nat → Guarded β} {xs : List α} {ys : List β} {k : Nat}
    (hlength : ys.length = xs.length)
    (h : ∀ i x y, xs[i]? = some x → ys[i]? = some y → f (x, k + i) = .ok y) :
    (xs.zipIdx k).mapM f = .ok ys := by
  induction xs generalizing ys k with
  | nil =>
      rw [List.length_eq_zero_iff.1 hlength]
      rfl
  | cons x rest ih =>
      obtain ⟨y, ys, rfl⟩ := List.exists_cons_of_length_eq_add_one hlength
      have hfirst : f (x, k) = .ok y := h 0 x y rfl rfl
      have hrest : (rest.zipIdx (k + 1)).mapM f = .ok ys := by
        apply ih (Nat.succ.inj hlength)
        intro i x' y' hx hy
        rw [Nat.add_assoc, Nat.add_comm 1]
        exact h (i + 1) x' y' hx hy
      rw [List.zipIdx_cons, List.mapM_cons, hfirst, ok_bind, hrest, ok_bind]
      rfl

theorem forM_eq {f : α → Guarded PUnit} {xs : List α} (h : ∀ x ∈ xs, f x = .ok ⟨⟩) :
    xs.forM f = .ok ⟨⟩ := by
  induction xs with
  | nil => rfl
  | cons x rest ih =>
      have hstep : (x :: rest).forM f = f x >>= fun _ => rest.forM f := rfl
      rw [hstep, h x List.mem_cons_self, ok_bind]
      exact ih fun y hy => h y (List.mem_cons_of_mem _ hy)

/-- A guarded fold without breaches is the plain fold. -/
theorem foldlM_eq {f : β → α → Guarded β} {g : β → α → β} {xs : List α}
    (h : ∀ acc, ∀ x ∈ xs, f acc x = .ok (g acc x)) (acc : β) :
    xs.foldlM f acc = .ok (xs.foldl g acc) := by
  induction xs generalizing acc with
  | nil => rfl
  | cons x rest ih =>
      rw [List.foldlM_cons, h acc x List.mem_cons_self, ok_bind, List.foldl_cons]
      exact ih (fun acc y hy => h acc y (List.mem_cons_of_mem _ hy)) _

theorem allM_eq {f : α → Guarded Bool} {g : α → Bool} {xs : List α}
    (h : ∀ x ∈ xs, f x = .ok (g x)) : xs.allM f = .ok (xs.all g) := by
  induction xs with
  | nil => rfl
  | cons x rest ih =>
      have hstep : (x :: rest).allM f = f x >>= fun b =>
          match b with
          | true => rest.allM f
          | false => pure false := rfl
      rw [hstep, h x List.mem_cons_self, ok_bind, List.all_cons]
      cases g x with
      | true => exact ih fun y hy => h y (List.mem_cons_of_mem _ hy)
      | false => rfl

theorem anyM_eq {f : α → Guarded Bool} {g : α → Bool} {xs : List α}
    (h : ∀ x ∈ xs, f x = .ok (g x)) : xs.anyM f = .ok (xs.any g) := by
  induction xs with
  | nil => rfl
  | cons x rest ih =>
      have hstep : (x :: rest).anyM f = f x >>= fun b =>
          match b with
          | true => pure true
          | false => rest.anyM f := rfl
      rw [hstep, h x List.mem_cons_self, ok_bind, List.any_cons]
      cases g x with
      | true => rfl
      | false => exact ih fun y hy => h y (List.mem_cons_of_mem _ hy)

end Loops

/-! ## Groups of amplitudes -/

def low (n bits : Nat) : Guarded Nat := do
  let ones ← sub (← shl indexBits 1 bits) 1
  return n &&& ones

def pairOffset (item qubit : Nat) : Guarded Nat := do
  let above ← shr indexBits item qubit
  let moved ← shl indexBits above (← fit wordBits (qubit + 1))
  return moved ||| (← low item qubit)

def nextPairOffset (offset stride : Nat) : Guarded Nat := do
  let next ← fit indexBits (offset + 1)
  if next &&& stride = 0 then return next else fit indexBits (next + stride)

/-- The walk also computes the offset past its last pair. -/
def pairWalk (stride : Nat) : Nat → Nat → Guarded (List Nat)
  | 0, _ => return []
  | n + 1, offset => do
    let next ← nextPairOffset offset stride
    return offset :: (← pairWalk stride n next)

def quadBase (item lo hi : Nat) : Guarded Nat := do
  let below ← low item lo
  let between ← low (← shr indexBits item lo) (← sub (← sub hi lo) 1)
  let above ← shr indexBits item (← sub hi 1)
  let first ← shl indexBits between (← fit wordBits (lo + 1))
  let second ← shl indexBits above (← fit wordBits (hi + 1))
  return below ||| first ||| second

def octetBase (item a b c : Nat) : Guarded Nat := do
  let below ← low item a
  let first ← low (← shr indexBits item a) (← sub (← sub b a) 1)
  let second ← low (← shr indexBits item (← sub b 1)) (← sub (← sub c b) 1)
  let above ← shr indexBits item (← sub c 2)
  let one ← shl indexBits first (← fit wordBits (a + 1))
  let two ← shl indexBits second (← fit wordBits (b + 1))
  let three ← shl indexBits above (← fit wordBits (c + 1))
  return below ||| one ||| two ||| three

def quadMembers (item q1 q2 : Nat) : Guarded (List Nat) := do
  let (lo, hi) := BasisIndex.sort2 q1 q2
  let base ← quadBase item lo hi
  let mask1 ← shl indexBits 1 q1
  let mask2 ← shl indexBits 1 q2
  return [base, base ||| mask2, base ||| mask1, base ||| mask1 ||| mask2]

def octetMembers (item q1 q2 q3 : Nat) : Guarded (List Nat) := do
  let (a, b, c) := BasisIndex.sort3 q1 q2 q3
  let base ← octetBase item a b c
  let mask1 ← shl indexBits 1 q1
  let mask2 ← shl indexBits 1 q2
  let mask3 ← shl indexBits 1 q3
  return (List.range 8).map fun i =>
    let o1 := if i.testBit 2 then base ||| mask1 else base
    let o2 := if i.testBit 1 then o1 ||| mask2 else o1
    if i.testBit 0 then o2 ||| mask3 else o2

def workerItems (worker count : Nat) : Guarded (List Nat) := do
  let start ← fit indexBits (worker * count)
  let stop ← fit indexBits ((worker + 1) * count)
  return List.range' start (stop - start)

def groups (mode : Mode) (q1 q2 q3 entriesPerThread worker : Nat) : Guarded (List (List Nat)) :=
  match mode with
  | .gate1 => do
    let stride ← shl indexBits 1 q1
    let items ← workerItems worker (entriesPerThread / 2)
    let offset ← pairOffset (worker * (entriesPerThread / 2)) q1
    let offsets ← pairWalk stride items.length offset
    return offsets.map fun offset => [offset, offset ||| stride]
  | .gate2 => do
    let items ← workerItems worker (entriesPerThread / 4)
    items.mapM fun item => quadMembers item q1 q2
  | .gate3 => do
    let items ← workerItems worker (entriesPerThread / 8)
    items.mapM fun item => octetMembers item q1 q2 q3
  | _ => do
    let items ← workerItems worker entriesPerThread
    return items.map fun index => [index]

theorem low_eq {bits : Nat} (h : bits < indexBits) (n : Nat) :
    low n bits = .ok (BasisIndex.low n bits) := by
  have hpos : 1 ≤ 1 <<< bits := by
    rw [Nat.one_shiftLeft]
    exact Nat.one_le_two_pow
  rw [low, shl_one h, ok_bind, sub_of_le hpos, ok_bind, Nat.one_shiftLeft,
    Nat.and_two_pow_sub_one_eq_mod]
  rfl

/-- Bits put back `d` places higher grow by at most `2 ^ d`. -/
theorem shiftLeft_shiftRight_le (n k d : Nat) : (n >>> k) <<< (k + d) ≤ n * 2 ^ d := by
  rw [Nat.shiftLeft_eq, Nat.shiftRight_eq_div_pow, Nat.pow_add, ← Nat.mul_assoc]
  exact Nat.mul_le_mul_right _ (Nat.div_mul_le_self _ _)

theorem low_shiftLeft_lt (n bits amount : Nat) :
    BasisIndex.low n bits <<< amount < 2 ^ (bits + amount) :=
  Nat.shiftLeft_lt (Nat.mod_lt _ (Nat.two_pow_pos _))

section Positions

variable {item : Nat} (hitem : item < 2 ^ wordBits)

include hitem

/-- The bits above the last operand still fit after zeros have been inserted. -/
theorem shl_above {k d : Nat} (hd : d ≤ 3) (hk : k + d < indexBits) :
    shl indexBits (item >>> k) (k + d) = .ok ((item >>> k) <<< (k + d)) := by
  apply shl_of_lt hk
  have hgrow := shiftLeft_shiftRight_le item k d
  have hfactor : item * 2 ^ d ≤ item * 2 ^ 3 :=
    Nat.mul_le_mul_left _ (Nat.pow_le_pow_right (by omega) hd)
  simp only [wordBits, indexBits] at *
  omega

omit hitem in
/-- The bits between two operands still fit after zeros have been inserted. -/
theorem shl_between {n bits amount : Nat} (hamount : amount < indexBits)
    (h : bits + amount ≤ indexBits) :
    shl indexBits (BasisIndex.low n bits) amount = .ok (BasisIndex.low n bits <<< amount) :=
  shl_of_lt hamount (Nat.lt_of_lt_of_le (low_shiftLeft_lt n bits amount)
    (Nat.pow_le_pow_right (by omega) h))

omit hitem in
theorem fit_succ {q : Nat} (hq : q < wordBits) : fit wordBits (q + 1) = .ok (q + 1) := by
  apply fit_of_lt
  have hword : wordBits < 2 ^ wordBits := by decide
  omega

/-- `quadBase` of ordered operands is within words. -/
theorem quadBase_eq {lo hi : Nat} (hlo : lo < hi) (hhi : hi < wordBits) :
    quadBase item lo hi = .ok (BasisIndex.quadBase item lo hi) := by
  have hword : hi + 1 < indexBits := by
    simp only [wordBits, indexBits] at *
    omega
  -- The bits from `hi - 1` on move up by two, past both operands.
  have habove := shl_above hitem (k := hi - 1) (d := 2) (by omega) (by omega)
  rw [show hi - 1 + 2 = hi + 1 by omega] at habove
  rw [quadBase, low_eq (by omega), ok_bind, shr_of_lt (by omega), ok_bind,
    sub_of_le (by omega), ok_bind, sub_of_le (by omega), ok_bind, low_eq (by omega), ok_bind,
    sub_of_le (by omega), ok_bind, shr_of_lt (by omega), ok_bind, fit_succ (by omega), ok_bind,
    shl_between (by omega) (by omega), ok_bind, fit_succ hhi, ok_bind, habove, ok_bind]
  rfl

/-- Two operands on the same qubit leave no room between them. -/
example : quadBase 0 3 3 = .error (.subtraction 0 1) := by decide

/-- `octetBase` of ordered operands is within words. -/
theorem octetBase_eq {a b c : Nat} (hab : a < b) (hbc : b < c) (hc : c < wordBits) :
    octetBase item a b c = .ok (BasisIndex.octetBase item a b c) := by
  have hword : c + 1 < indexBits := by
    simp only [wordBits, indexBits] at *
    omega
  have habove := shl_above hitem (k := c - 2) (d := 3) (by omega) (by omega)
  rw [show c - 2 + 3 = c + 1 by omega] at habove
  rw [octetBase, low_eq (by omega), ok_bind, shr_of_lt (by omega), ok_bind,
    sub_of_le (by omega), ok_bind, sub_of_le (by omega), ok_bind, low_eq (by omega), ok_bind,
    sub_of_le (by omega), ok_bind, shr_of_lt (by omega), ok_bind, sub_of_le (by omega), ok_bind,
    sub_of_le (by omega), ok_bind, low_eq (by omega), ok_bind, sub_of_le (by omega), ok_bind,
    shr_of_lt (by omega), ok_bind, fit_succ (by omega), ok_bind, shl_between (by omega) (by omega),
    ok_bind, fit_succ (by omega), ok_bind, shl_between (by omega) (by omega), ok_bind, fit_succ hc,
    ok_bind, habove, ok_bind]
  rfl

/-- `quadMembers` of distinct operands is within words. -/
theorem quadMembers_eq {q1 q2 : Nat} (hne : q1 ≠ q2) (h1 : q1 < wordBits) (h2 : q2 < wordBits) :
    quadMembers item q1 q2 = .ok (BasisIndex.quadMembers item q1 q2) := by
  have hbits : wordBits ≤ indexBits := by decide
  have hsorted : quadBase item (BasisIndex.sort2 q1 q2).1 (BasisIndex.sort2 q1 q2).2 =
      .ok (BasisIndex.quadBase item (BasisIndex.sort2 q1 q2).1 (BasisIndex.sort2 q1 q2).2) := by
    unfold BasisIndex.sort2
    split
    · exact quadBase_eq hitem (by assumption) h2
    · exact quadBase_eq hitem (by omega) h1
  rw [quadMembers]
  dsimp only
  rw [hsorted, ok_bind, shl_one (by omega), ok_bind, shl_one (by omega), ok_bind]
  rfl

/-- `octetMembers` of distinct operands is within words. -/
theorem octetMembers_eq {q1 q2 q3 : Nat} (hnodup : [q1, q2, q3].Nodup) (h1 : q1 < wordBits)
    (h2 : q2 < wordBits) (h3 : q3 < wordBits) :
    octetMembers item q1 q2 q3 = .ok (BasisIndex.octetMembers item q1 q2 q3) := by
  have hbits : wordBits ≤ indexBits := by decide
  obtain ⟨⟨h12, h13⟩, h23⟩ : (q1 ≠ q2 ∧ q1 ≠ q3) ∧ q2 ≠ q3 := by simpa using hnodup
  have hsorted : ∀ a b c, BasisIndex.sort3 q1 q2 q3 = (a, b, c) →
      octetBase item a b c = .ok (BasisIndex.octetBase item a b c) := by
    intro a b c habc
    -- Each order of three distinct operands is sorted into a rising one.
    have hrising : a < b ∧ b < c ∧ c < wordBits := by
      simp only [BasisIndex.sort3, BasisIndex.sort2] at habc
      split at habc <;> split at habc <;> (try split at habc) <;> cases habc <;> omega
    exact octetBase_eq hitem hrising.1 hrising.2.1 hrising.2.2
  rw [octetMembers, BasisIndex.octetMembers]
  rcases hrank : BasisIndex.sort3 q1 q2 q3 with ⟨a, b, c⟩
  dsimp only
  rw [hsorted a b c hrank, ok_bind, shl_one (by omega), ok_bind, shl_one (by omega), ok_bind,
    shl_one (by omega), ok_bind]
  rfl

end Positions

/-- Numbering the items of a worker is within words if their end is. -/
theorem workerItems_eq {worker count : Nat} (h : (worker + 1) * count < 2 ^ indexBits) :
    workerItems worker count = .ok (BasisIndex.workerItems worker count) := by
  have hnext : (worker + 1) * count = worker * count + count := Nat.succ_mul _ _
  rw [workerItems, fit_of_lt (by omega), ok_bind, fit_of_lt h, ok_bind, hnext,
    Nat.add_sub_cancel_left]
  rfl

/-! ## Pairs -/

/-- `pairOffset` is within words if its result is. -/
theorem pairOffset_eq {item q : Nat} (hq : q + 1 < indexBits)
    (h : BasisIndex.pairOffset item q < 2 ^ indexBits) :
    pairOffset item q = .ok (BasisIndex.pairOffset item q) := by
  have hmoved : (item >>> q) <<< (q + 1) < 2 ^ indexBits := Nat.lt_of_le_of_lt Nat.left_le_or h
  have hword : q + 1 < 2 ^ wordBits := Nat.lt_trans hq (by decide)
  rw [pairOffset, shr_of_lt (by omega), ok_bind, fit_of_lt hword, ok_bind,
    shl_of_lt hq hmoved, ok_bind, low_eq (by omega), ok_bind]
  rfl

/-- `nextPairOffset` is within words if its result is. -/
theorem nextPairOffset_eq {item q : Nat} (h : BasisIndex.pairOffset (item + 1) q < 2 ^ indexBits) :
    nextPairOffset (BasisIndex.pairOffset item q) (1 <<< q) =
      .ok (BasisIndex.pairOffset (item + 1) q) := by
  rw [← BasisIndex.nextPairOffset_pairOffset, BasisIndex.nextPairOffset] at h ⊢
  rw [nextPairOffset]
  -- Of the two sums the second is the larger one, and it is computed only if it is the answer.
  split_ifs at h ⊢ with hclear
  · rw [fit_of_lt h, ok_bind, if_pos hclear]
    rfl
  · rw [fit_of_lt (Nat.lt_of_le_of_lt (Nat.le_add_right _ _) h), ok_bind, if_neg hclear,
      fit_of_lt h]

/-- A walk over pairs is within words if the offset past the last pair is. -/
theorem pairWalk_eq {q item count : Nat}
    (h : BasisIndex.pairOffset (item + count) q < 2 ^ indexBits) :
    pairWalk (1 <<< q) count (BasisIndex.pairOffset item q) =
      .ok (BasisIndex.pairWalk (1 <<< q) count (BasisIndex.pairOffset item q)) := by
  induction count generalizing item with
  | zero => rfl
  | succ count ih =>
      have hlast : BasisIndex.pairOffset (item + 1 + count) q < 2 ^ indexBits := by
        rwa [Nat.add_assoc, Nat.add_comm 1]
      have hnext : BasisIndex.pairOffset (item + 1) q < 2 ^ indexBits :=
        Nat.lt_of_le_of_lt (BasisIndex.pairOffset_mono q (Nat.le_add_right _ _)) hlast
      rw [pairWalk, nextPairOffset_eq hnext, ok_bind, ih hlast, ok_bind, BasisIndex.pairWalk,
        BasisIndex.nextPairOffset_pairOffset]
      rfl

theorem groups_gate1_eq {q : Nat} (hq : q + 1 < indexBits) (q2 q3 : Nat)
    {entriesPerThread worker : Nat}
    (h : BasisIndex.pairOffset ((worker + 1) * (entriesPerThread / 2)) q < 2 ^ indexBits) :
    groups .gate1 q q2 q3 entriesPerThread worker =
      .ok (ShotSim.groups .gate1 q q2 q3 entriesPerThread worker) := by
  have hitems : (worker + 1) * (entriesPerThread / 2) < 2 ^ indexBits :=
    Nat.lt_of_le_of_lt (BasisIndex.le_pairOffset _ q) h
  have hcount : (BasisIndex.workerItems worker (entriesPerThread / 2)).length =
      entriesPerThread / 2 :=
    List.length_range'
  rw [Nat.succ_mul] at h
  have hfirst : BasisIndex.pairOffset (worker * (entriesPerThread / 2)) q < 2 ^ indexBits :=
    Nat.lt_of_le_of_lt (BasisIndex.pairOffset_mono q (Nat.le_add_right _ _)) h
  rw [groups, shl_one (by omega), ok_bind, workerItems_eq hitems, ok_bind,
    pairOffset_eq hq hfirst, ok_bind, hcount, pairWalk_eq h, ok_bind]
  rfl

/-! ## Groups of a worker -/

/-- The groups of a worker over distinct qubits are enumerated without a breach. -/
theorem groups_eq {R : Type} {mode : Mode} {op : Op R} (hnodup : (mode.operands op).Nodup)
    (hlt : ∀ q ∈ mode.operands op, q < wordBits) {entriesPerThread worker : Nat}
    (h : (worker + 1) * entriesPerThread ≤ 2 ^ wordBits) :
    groups mode op.q1 op.q2 op.q3 entriesPerThread worker =
      .ok (ShotSim.groups mode op.q1 op.q2 op.q3 entriesPerThread worker) := by
  have hbits : 2 ^ wordBits < 2 ^ indexBits := by decide
  have hdiv : ∀ k, (worker + 1) * (entriesPerThread / k) ≤ 2 ^ wordBits := by
    intro k
    exact (Nat.mul_le_mul_left _ (Nat.div_le_self _ _)).trans h
  have hitems : ∀ k, workerItems worker (entriesPerThread / k) =
      .ok (BasisIndex.workerItems worker (entriesPerThread / k)) := by
    intro k
    exact workerItems_eq (Nat.lt_of_le_of_lt (hdiv k) hbits)
  have hitem : ∀ k, ∀ item ∈ BasisIndex.workerItems worker (entriesPerThread / k),
      item < 2 ^ wordBits := by
    intro k item hmem
    have hrange := (List.mem_range'_1.1 hmem).2
    have hnext := hdiv k
    rw [Nat.succ_mul] at hnext
    omega
  cases mode with
  | resetAll | extract | scaleOnly =>
      have hall := hitems 1
      rw [Nat.div_one] at hall
      simp only [groups, hall, ok_bind]
      rfl
  | gate1 =>
      have hq : op.q1 < wordBits := hlt op.q1 (by simp [Mode.operands, Mode.arity])
      have hindex : op.q1 + 1 < indexBits := by
        simp only [wordBits, indexBits] at *
        omega
      -- An offset has one bit more than its item.
      have hlast : (worker + 1) * (entriesPerThread / 2) < 2 ^ (wordBits + 1) :=
        Nat.lt_of_le_of_lt (hdiv 2) (by decide)
      exact groups_gate1_eq hindex op.q2 op.q3
        (Nat.lt_trans (BasisIndex.pairOffset_lt hlast op.q1) (by decide))
  | gate2 =>
      obtain ⟨hne, h1, h2⟩ : op.q1 ≠ op.q2 ∧ op.q1 < wordBits ∧ op.q2 < wordBits := by
        simp only [Mode.operands, Mode.arity] at hnodup hlt
        exact ⟨by simpa using hnodup, hlt _ (by simp), hlt _ (by simp)⟩
      rw [groups, hitems 4, ok_bind]
      exact mapM_eq fun item hmem => quadMembers_eq (hitem 4 item hmem) hne h1 h2
  | gate3 =>
      simp only [Mode.operands, Mode.arity] at hnodup hlt
      rw [groups, hitems 8, ok_bind]
      exact mapM_eq fun item hmem => octetMembers_eq (hitem 8 item hmem) hnodup (hlt _ (by simp))
        (hlt _ (by simp)) (hlt _ (by simp))

end Guarded

end ShotSim
