import ShotSim.Cplx
import ShotSim.Proofs.SignedZero

/-!
# Null numbers — zeros and what is not a number

An amplitude that ought to vanish is a zero of some sign, or it is not a number once an infinite
factor has met it.  Such values absorb every factor, add up to such values and are never reported.

* `Scalar.Null` — zero or not a number;
* `Scalar.NullLaws` — what sums, products and comparisons make of such values;
* `Single.null_iff` — what they are in single precision, which has all of these laws;
* `Cplx.Null` — amplitudes with both parts null.
-/

namespace ShotSim

namespace Scalar

variable {R : Type} [Scalar R]

def Null (x : R) : Prop := (x == 0) = true ∨ isNaN x = true

instance (x : R) : Decidable (Null x) := inferInstanceAs (Decidable (_ ∨ _))

end Scalar

/-- Null values absorb factors, are closed under addition and exceed no nonnegative threshold. -/
class Scalar.NullLaws (R : Type) [Scalar R] : Prop where
  null_zero : Null (0 : R)
  null_mul_left : ∀ {x : R} (y : R), Null x → Null (x * y)
  null_mul_right : ∀ (x : R) {y : R}, Null y → Null (x * y)
  null_add : ∀ {x y : R}, Null x → Null y → Null (x + y)
  null_sub : ∀ {x y : R}, Null x → Null y → Null (x - y)
  not_above : ∀ {x t : R}, Null x → Scalar.le 0 t = true → Scalar.lt t x = false

/-! ## Single precision -/

open Float.Model Float.Model.UnpackedFloat

def IsNull : UnpackedFloat → Prop
  | .notANumber | .zero _ => True
  | .infinity _ | .finite _ _ _ _ => False

/-- Packing keeps zeros and NaNs. -/
theorem isNull_unpack_pack {u : UnpackedFloat} (h : IsNull u) :
    IsNull (UnpackedFloat.unpack .binary32 (pack .binary32 u)) := by
  cases u with
  | notANumber => exact trivial
  | zero s => cases s <;> exact trivial
  | infinity s => exact h.elim
  | finite s m e hm => exact h.elim

/-- A null factor makes a null product. -/
theorem isNull_mul_left {spec : Format} {u : UnpackedFloat} (v : UnpackedFloat) (h : IsNull u) :
    IsNull (UnpackedFloat.mul spec u v) := by
  cases u with
  | notANumber => exact trivial
  | zero s => cases v <;> exact trivial
  | infinity s => exact h.elim
  | finite s m e hm => exact h.elim

theorem isNull_mul_right {spec : Format} (u : UnpackedFloat) {v : UnpackedFloat} (h : IsNull v) :
    IsNull (UnpackedFloat.mul spec u v) := by
  cases v with
  | notANumber => cases u <;> exact trivial
  | zero s => cases u <;> exact trivial
  | infinity s => exact h.elim
  | finite s m e hm => exact h.elim

/-- A sum of nulls is null. -/
theorem isNull_add {spec : Format} {u v : UnpackedFloat} (hu : IsNull u) (hv : IsNull v) :
    IsNull (UnpackedFloat.add spec u v) := by
  cases u with
  | notANumber => exact trivial
  | zero s =>
      cases v with
      | notANumber => exact trivial
      | zero t => cases s <;> cases t <;> exact trivial
      | infinity t => exact hv.elim
      | finite t m e hm => exact hv.elim
  | infinity s => exact hu.elim
  | finite s m e hm => exact hu.elim

theorem isNull_sub {spec : Format} {u v : UnpackedFloat} (hu : IsNull u) (hv : IsNull v) :
    IsNull (UnpackedFloat.sub spec u v) := by
  cases u with
  | notANumber => exact trivial
  | zero s =>
      cases v with
      | notANumber => exact trivial
      | zero t => cases s <;> cases t <;> exact trivial
      | infinity t => exact hv.elim
      | finite t m e hm => exact hv.elim
  | infinity s => exact hu.elim
  | finite s m e hm => exact hu.elim

/-- No number of at least zero compares below a null. -/
theorem compare_ne_lt_of_isNull {u t : UnpackedFloat} (hu : IsNull u)
    (ht : ((UnpackedFloat.zero .positive).compare t).any (·.isLE) = true) :
    t.compare u ≠ some .lt := by
  cases u with
  | notANumber => cases t with
    -- Nothing compares with what is not a number.
    | infinity s => cases s <;> exact nofun
    | finite s m e hm => cases s <;> exact nofun
    | _ => exact nofun
  | zero sign =>
      cases t with
      | notANumber => exact nofun
      | zero s => exact nofun
      | infinity s =>
          cases s with
          | positive => exact nofun
          | negative => cases ht
      | finite s m e hm =>
          cases s with
          | positive => exact nofun
          | negative => cases ht
  | infinity s => exact hu.elim
  | finite s m e hm => exact hu.elim

namespace Single

/-- A number equal to itself is not a NaN. -/
theorem not_isNaN_of_compare {x : Float32} (h : (value x).compare (value x) = some .eq) :
    Scalar.isNaN x = false := by
  have hle : Scalar.le x x = true := le_iff.2 (by rw [h]; rfl)
  rw [Scalar.isNaN, hle]
  rfl

/-- `Null` in terms of the unpacked value. -/
theorem null_iff {x : Float32} : Scalar.Null x ↔ IsNull (value x) := by
  have hzero : (x == 0) = true ↔ (value x).compare (.zero .positive) = some .eq := beq_iff
  unfold Scalar.Null
  rw [hzero]
  cases hx : value x with
  | notANumber =>
      have hle : Scalar.le x x = false := by
        rw [← Bool.not_eq_true, le_iff, hx]
        exact nofun
      simp [Scalar.isNaN, hle, IsNull]
  | zero s => simp [IsNull, UnpackedFloat.compare]
  | infinity s =>
      have hnum := not_isNaN_of_compare (x := x) (by rw [hx]; cases s <;> rfl)
      cases s <;> simp [hnum, IsNull, UnpackedFloat.compare]
  | finite s m e hm =>
      have hnum := not_isNaN_of_compare (x := x) (by
        rw [hx]
        cases s <;> simp [UnpackedFloat.compare])
      cases s <;> simp [hnum, IsNull, UnpackedFloat.compare]

instance : Scalar.NullLaws Float32 where
  null_zero := null_iff.2 trivial
  null_mul_left y hx := null_iff.2 (isNull_unpack_pack (isNull_mul_left (value y) (null_iff.1 hx)))
  null_mul_right x _ hy :=
    null_iff.2 (isNull_unpack_pack (isNull_mul_right (value x) (null_iff.1 hy)))
  null_add hx hy := null_iff.2 (isNull_unpack_pack (isNull_add (null_iff.1 hx) (null_iff.1 hy)))
  null_sub hx hy := null_iff.2 (isNull_unpack_pack (isNull_sub (null_iff.1 hx) (null_iff.1 hy)))
  not_above hx ht := by
    rw [← Bool.not_eq_true, lt_iff]
    exact compare_ne_lt_of_isNull (null_iff.1 hx) (le_iff.1 ht)

end Single

/-! ## Amplitudes -/

namespace Cplx

variable {R : Type} [Scalar R]

def Null (a : Cplx R) : Prop := Scalar.Null a.re ∧ Scalar.Null a.im

instance (a : Cplx R) : Decidable a.Null := inferInstanceAs (Decidable (_ ∧ _))

variable [Scalar.NullLaws R]

open Scalar.NullLaws

theorem null_zero : (0 : Cplx R).Null :=
  ⟨Scalar.NullLaws.null_zero, Scalar.NullLaws.null_zero⟩

theorem Null.add {a b : Cplx R} (ha : a.Null) (hb : b.Null) : (a + b).Null :=
  ⟨null_add ha.1 hb.1, null_add ha.2 hb.2⟩

/-- A null factor makes a null product. -/
theorem Null.mul_left {a : Cplx R} (ha : a.Null) (b : Cplx R) : (a * b).Null :=
  ⟨null_sub (null_mul_left _ ha.1) (null_mul_left _ ha.2),
    null_add (null_mul_left _ ha.1) (null_mul_left _ ha.2)⟩

theorem Null.mul_right (a : Cplx R) {b : Cplx R} (hb : b.Null) : (a * b).Null :=
  ⟨null_sub (null_mul_right _ hb.1) (null_mul_right _ hb.2),
    null_add (null_mul_right _ hb.2) (null_mul_right _ hb.1)⟩

theorem Null.scale {a : Cplx R} (ha : a.Null) (r : R) : (a.scale r).Null :=
  ⟨null_mul_left r ha.1, null_mul_left r ha.2⟩

/-- A null amplitude has a null probability. -/
theorem Null.normSqr {a : Cplx R} (ha : a.Null) : Scalar.Null a.normSqr :=
  null_add (null_mul_left _ ha.1) (null_mul_left _ ha.2)

end Cplx

end ShotSim
