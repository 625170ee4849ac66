import Mathlib.Algebra.BigOperators.Group.List.Basic
import Mathlib.Algebra.Order.BigOperators.Group.List
import Mathlib.Algebra.Order.Monoid.Defs
import Mathlib.Algebra.Ring.Basic
import ShotSim.Scalar

/-!
# Scalar laws — exact arithmetic

`Scalar R` comes without laws, since single precision has few of them.  Statements about exact
arithmetic assume one of the structures below, and each of them is an algebraic structure of the
library.

* `Scalar.AddsExactly`, `addCommMonoid` — sums in any order, with `sum_eq_sum` to the sum of a list;
* `Scalar.RingLaws`, `commRing` — a commutative ring;
* `Scalar.OrderLaws`, `linearOrder`, `isOrderedAddMonoid` — a linearly ordered one;
* `Scalar.GateLaws` — a ring with the constants of the gates.
-/

namespace ShotSim

variable {R : Type} [Scalar R]

namespace Scalar

/-! ## Sums -/

/-- Addition is associative and commutative. -/
structure AddsExactly (R : Type) [Scalar R] : Prop where
  zero_add : ∀ a : R, 0 + a = a
  add_comm : ∀ a b : R, a + b = b + a
  add_assoc : ∀ a b c : R, a + b + c = a + (b + c)

namespace AddsExactly

variable (h : AddsExactly R)

@[reducible] def addCommMonoid (h : AddsExactly R) : AddCommMonoid R where
  add_assoc := h.add_assoc
  zero_add := h.zero_add
  add_zero a := (h.add_comm a 0).trans (h.zero_add a)
  add_comm := h.add_comm
  nsmul := nsmulRec

include h

/-- Under exact addition `Scalar.sum` is `List.sum`. -/
theorem sum_eq_sum (xs : List R) : Scalar.sum xs = xs.sum := by
  let _ := h.addCommMonoid
  exact List.sum_eq_foldl.symm

/-- A sum of sums is a sum over the `flatMap`. -/
theorem sum_flatMap {α : Type} (f : α → List R) (as : List α) :
    Scalar.sum (as.map fun a => Scalar.sum (f a)) = Scalar.sum (as.flatMap f) := by
  let _ := h.addCommMonoid
  simp only [h.sum_eq_sum, List.flatMap_def, List.sum_flatten, List.map_map]
  rfl

/-- Under exact addition sums are invariant under permutation. -/
theorem sum_perm {xs ys : List R} (hperm : xs.Perm ys) : Scalar.sum xs = Scalar.sum ys := by
  let _ := h.addCommMonoid
  rw [h.sum_eq_sum, h.sum_eq_sum, hperm.sum_eq]

/-- A sum over a disjoint union splits. -/
theorem sum_filter_or {α : Type} {p q : α → Bool} (hapart : ∀ a, p a = true → q a = false)
    (f : α → R) (as : List α) :
    Scalar.sum ((as.filter fun a => p a || q a).map f) =
      Scalar.sum ((as.filter p).map f) + Scalar.sum ((as.filter q).map f) := by
  let _ := h.addCommMonoid
  have hparts : (as.filter p ++ as.filter q).Perm (as.filter fun a => p a || q a) := by
    have hsplit := List.filter_append_perm p (as.filter fun a => p a || q a)
    have hleft : (as.filter fun a => p a || q a).filter p = as.filter p := by
      rw [List.filter_filter]
      exact List.filter_congr fun a _ => by cases p a <;> simp
    have hright : (as.filter fun a => p a || q a).filter (fun a => !p a) = as.filter q := by
      rw [List.filter_filter]
      refine List.filter_congr fun a _ => ?_
      cases hp : p a with
      | false => simp
      | true => simp [hapart a hp]
    rwa [hleft, hright] at hsplit
  rw [← h.sum_perm (hparts.map f), List.map_append, h.sum_eq_sum, h.sum_eq_sum, h.sum_eq_sum,
    List.sum_append]

end AddsExactly

/-! ## Rings -/

/-- The scalars are a commutative ring. -/
structure RingLaws (R : Type) [Scalar R] : Prop extends AddsExactly R where
  neg_add_cancel : ∀ a : R, -a + a = 0
  sub_eq_add_neg : ∀ a b : R, a - b = a + -b
  one_mul : ∀ a : R, 1 * a = a
  mul_comm : ∀ a b : R, a * b = b * a
  mul_assoc : ∀ a b c : R, a * b * c = a * (b * c)
  mul_add : ∀ a b c : R, a * (b + c) = a * b + a * c

namespace RingLaws

variable (h : RingLaws R)

include h

theorem mul_one (a : R) : a * 1 = a := (h.mul_comm a 1).trans (h.one_mul a)

theorem mul_zero (a : R) : a * 0 = 0 := by
  have htwice : a * 0 + a * 0 = a * 0 := by rw [← h.mul_add, h.zero_add]
  calc a * 0 = 0 + a * 0 := (h.zero_add _).symm
    _ = -(a * 0) + a * 0 + a * 0 := by rw [h.neg_add_cancel]
    _ = -(a * 0) + a * 0 := by rw [h.add_assoc, htwice]
    _ = 0 := h.neg_add_cancel _

omit h in
@[reducible] def commRing (h : RingLaws R) : CommRing R where
  __ := h.addCommMonoid
  neg_add_cancel := h.neg_add_cancel
  sub_eq_add_neg := h.sub_eq_add_neg
  zsmul := zsmulRec
  one_mul := h.one_mul
  mul_one := h.mul_one
  mul_comm := h.mul_comm
  mul_assoc := h.mul_assoc
  left_distrib := h.mul_add
  right_distrib a b c := by rw [h.mul_comm, h.mul_add, h.mul_comm c a, h.mul_comm c b]
  zero_mul a := (h.mul_comm 0 a).trans (h.mul_zero a)
  mul_zero := h.mul_zero

end RingLaws

/-! ## Order -/

/-- The scalars are an ordered commutative ring, with the comparisons of `Scalar`. -/
structure OrderLaws (R : Type) [Scalar R] : Prop extends RingLaws R where
  eq_of_beq : ∀ {a b : R}, (a == b) = true → a = b
  le_total : ∀ a b : R, Scalar.le a b = true ∨ Scalar.le b a = true
  le_antisymm : ∀ {a b : R}, Scalar.le a b = true → Scalar.le b a = true → a = b
  le_trans : ∀ {a b c : R}, Scalar.le a b = true → Scalar.le b c = true → Scalar.le a c = true
  lt_iff : ∀ {a b : R}, Scalar.lt a b = true ↔ ¬Scalar.le b a = true
  add_le_add_left : ∀ {a b : R}, Scalar.le a b = true → ∀ c, Scalar.le (c + a) (c + b) = true
  zero_le_one : Scalar.le (0 : R) 1 = true

namespace OrderLaws

/-- The linear order with `≤`, `<` and `min` those of `Scalar`. -/
@[reducible] def linearOrder (h : OrderLaws R) : LinearOrder R where
  le a b := Scalar.le a b = true
  lt a b := Scalar.lt a b = true
  le_refl a := (h.le_total a a).elim id id
  le_trans _ _ _ := h.le_trans
  lt_iff_le_not_ge a b :=
    ⟨fun hlt => ⟨(h.le_total a b).resolve_right (h.lt_iff.1 hlt), h.lt_iff.1 hlt⟩,
      fun hlt => h.lt_iff.2 hlt.2⟩
  le_antisymm _ _ := h.le_antisymm
  le_total := h.le_total
  min := Scalar.min
  min_def a b := by
    have hrefl : Scalar.le a a = true := (h.le_total a a).elim id id
    by_cases hle : Scalar.le a b = true
    · rw [Scalar.min, if_neg fun hlt => h.lt_iff.1 hlt hle, if_pos hrefl, if_pos hle]
    · rw [Scalar.min, if_pos (h.lt_iff.2 hle), if_neg hle]
  toDecidableLE _ _ := inferInstanceAs (Decidable (_ = true))
  toDecidableLT _ _ := inferInstanceAs (Decidable (_ = true))

/-- Scalars with `OrderLaws` are an ordered additive monoid. -/
theorem isOrderedAddMonoid (h : OrderLaws R) :
    letI := h.commRing
    letI := h.linearOrder
    IsOrderedAddMonoid R :=
  letI := h.commRing
  letI := h.linearOrder
  { add_le_add_left := fun a b hab c => by
      rw [h.add_comm a c, h.add_comm b c]
      exact h.add_le_add_left hab c }

end OrderLaws

/-! ## Gate constants -/

/-- The scalars are a commutative ring in which the gate constants satisfy their defining
equations. -/
structure GateLaws (R : Type) [Scalar R] : Prop extends RingLaws R where
  half_add_half : (GateConstants.half : R) + GateConstants.half = 1
  invSqrtTwo_mul_self :
    (GateConstants.invSqrtTwo : R) * GateConstants.invSqrtTwo = GateConstants.half
  sin_add_cos : ∀ x : R, Scalar.sin x * Scalar.sin x + Scalar.cos x * Scalar.cos x = 1

end Scalar

end ShotSim
