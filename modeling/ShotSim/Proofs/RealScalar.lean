import Mathlib.Analysis.SpecialFunctions.Trigonometric.Basic
import ShotSim.Proofs.ScalarLaws

/-!
# Real scalars

The real numbers as scalars.  Nothing is rounded and every number is finite; the tolerances
`normTolerance` and `epsilon` are `10⁻⁵` and `2⁻²³`, as in single precision.

* `ringLaws_real`, `orderLaws_real`, `gateLaws_real` — the laws of exact arithmetic.
-/

namespace ShotSim

/-- Exact real arithmetic. -/
noncomputable instance : Scalar ℝ where
  half := 1 / 2
  invSqrtTwo := 1 / √2
  ofNat n := n
  normTolerance := 1 / 100000
  epsilon := 1 / 2 ^ 23
  sqrt := Real.sqrt
  sin := Real.sin
  cos := Real.cos
  exp := Real.exp
  abs x := |x|
  lt a b := decide (a < b)
  le a b := decide (a ≤ b)
  isFinite _ := true

/-- Addition of reals is exact. -/
theorem addsExactly_real : Scalar.AddsExactly ℝ := ⟨zero_add, add_comm, add_assoc⟩

/-- The reals satisfy the ring laws. -/
theorem ringLaws_real : Scalar.RingLaws ℝ where
  toAddsExactly := addsExactly_real
  neg_add_cancel := neg_add_cancel
  sub_eq_add_neg := sub_eq_add_neg
  one_mul := one_mul
  mul_comm := mul_comm
  mul_assoc := mul_assoc
  mul_add := mul_add

/-- The reals satisfy the order laws. -/
theorem orderLaws_real : Scalar.OrderLaws ℝ where
  toRingLaws := ringLaws_real
  eq_of_beq := fun {_ _} h => of_decide_eq_true h
  le_total a b := by simpa [Scalar.le] using le_total a b
  le_antisymm := fun {_ _} h h' => le_antisymm (of_decide_eq_true h) (of_decide_eq_true h')
  le_trans := fun {_ _ _} h h' =>
    decide_eq_true (le_trans (of_decide_eq_true h) (of_decide_eq_true h'))
  lt_iff := by simp [Scalar.lt, Scalar.le]
  add_le_add_left := fun {_ _} h c => decide_eq_true (add_le_add_right (of_decide_eq_true h) c)
  zero_le_one := decide_eq_true zero_le_one

/-- The reals satisfy the trigonometric laws of the gates. -/
theorem gateLaws_real : Scalar.GateLaws ℝ where
  toRingLaws := ringLaws_real
  half_add_half := add_halves 1
  invSqrtTwo_mul_self := by
    change 1 / √2 * (1 / √2) = (1 / 2 : ℝ)
    rw [div_mul_div_comm, Real.mul_self_sqrt (by norm_num), one_mul]
  sin_add_cos x := by
    have hcircle := Real.sin_sq_add_cos_sq x
    rwa [pow_two, pow_two] at hcircle

end ShotSim
