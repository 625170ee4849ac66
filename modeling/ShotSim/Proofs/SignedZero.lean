import Mathlib
import ShotSim.Scalar

/-!
# Signed zeros — numbers that compare as equal

Two single precision numbers that compare as equal are the same, or both are zeros.  A sum that
begins with zero and takes no negative number never shows the sign of a zero.

* `eq_or_zeros_of_compare`, `unpack_injective` — what comparing as equal says about the bits;
* `Plus`, `plus_add`, `add_zero_eq` — numbers without a minus sign, and sums of them;
* `Scalar.EqualUpToZeros` — the laws that follow, and that single precision has them.
-/

namespace ShotSim

open Float.Model Float.Model.UnpackedFloat

/-! ## Unpacked numbers -/

def Plus : UnpackedFloat → Prop
  | .notANumber => True
  | .infinity s | .zero s | .finite s _ _ _ => s = .positive

def Zeros (u v : UnpackedFloat) : Prop := ∃ s t, u = .zero s ∧ v = .zero t

theorem eq_of_compare_then {e e' : Int} {m m' : Nat}
    (h : (compare e e').then (compare m m') = .eq) : e = e' ∧ m = m' := by
  rw [Ordering.then_eq_eq] at h
  exact ⟨Int.compare_eq_eq.1 h.1, Nat.compare_eq_eq.1 h.2⟩

/-- Unpacked numbers that compare equal are equal, or both zeros. -/
theorem eq_or_zeros_of_compare {u v : UnpackedFloat} (h : u.compare v = some .eq) :
    u = v ∨ Zeros u v := by
  cases u with
  | notANumber => cases h
  | infinity s =>
      left
      cases v with
      | infinity t => cases s <;> cases t <;> first | rfl | cases h
      | _ => cases s <;> cases h
  | zero s =>
      cases v with
      | zero t => exact Or.inr ⟨s, t, rfl, rfl⟩
      | notANumber => cases h
      | infinity t => cases t <;> cases h
      | finite t => cases t <;> cases h
  | finite s m e hm =>
      left
      cases v with
      | notANumber => cases s <;> cases h
      | infinity t => cases s <;> cases t <;> cases h
      | zero t => cases s <;> cases h
      | finite t m' e' hm' =>
          -- Of one sign, and then the comparison goes by exponent and mantissa.
          have hparts : s = t ∧ (compare e e').then (compare m m') = .eq := by
            cases s <;> cases t
            · exact ⟨rfl, Ordering.swap_eq_eq.1 (Option.some.inj h)⟩
            · cases h
            · cases h
            · exact ⟨rfl, Option.some.inj h⟩
          obtain ⟨rfl, hcompare⟩ := hparts
          obtain ⟨rfl, rfl⟩ := eq_of_compare_then hcompare
          rfl

/-! ## Bit patterns -/

section Packing

variable {spec : Format}

theorem unpackSign_packComponents (s : Sign) (e : BitVec spec.exponentBits)
    (m : BitVec spec.mantissaBitsWithoutImplicit) :
    unpackSign (packComponents spec s e m) = s.toBitVec := by
  apply BitVec.eq_of_getLsbD_eq
  intro i hi
  have hzero : i = 0 := Nat.lt_one_iff.1 hi
  subst hzero
  simp [unpackSign, packComponents, BitVec.getLsbD_append, -BitVec.getLsbD_eq_getElem]

theorem toBitVec_ofBitVec (b : BitVec 1) : (Sign.ofBitVec b).toBitVec = b := by
  revert b
  decide

/-- A bit pattern is packed from its own components. -/
theorem packComponents_unpack (b : BitVec spec.numBits) :
    packComponents spec (Sign.ofBitVec (unpackSign b)) (unpackExponent b) (unpackMantissa b) =
      b := by
  have hm := spec.hm
  have he := spec.he
  apply BitVec.eq_of_getLsbD_eq
  intro i hi
  rw [packComponents, toBitVec_ofBitVec, BitVec.getLsbD_append, BitVec.getLsbD_append]
  simp only [unpackMantissa, unpackExponent, unpackSign, BitVec.getLsbD_cast,
    BitVec.getLsbD_extractLsb]
  have hi' : i < 1 + spec.exponentBits + spec.mantissaBitsWithoutImplicit := hi
  -- Every bit comes from one of the three parts, and stands there at its own place.
  split
  · rw [decide_eq_true (by omega), Bool.true_and, Nat.zero_add]
  · split
    · rw [decide_eq_true (by omega), Bool.true_and, Nat.add_sub_of_le (by omega)]
    · rw [decide_eq_true (by omega), Bool.true_and, Nat.sub_sub, Nat.add_sub_of_le (by omega)]

theorem append_one_toNat {n : Nat} (m : BitVec n) : (1#1 ++ m).toNat = 2 ^ n + m.toNat := by
  rw [BitVec.toNat_append, ← Nat.shiftLeft_add_eq_or_of_lt m.isLt, Nat.shiftLeft_eq]
  simp

/-- `unpack` is injective outside NaNs. -/
theorem unpack_injective {a b : BitVec spec.numBits} (h : unpack spec a = unpack spec b)
    (hnum : unpack spec a ≠ .notANumber) : a = b := by
  suffices hparts : Sign.ofBitVec (unpackSign a) = Sign.ofBitVec (unpackSign b) ∧
      unpackExponent a = unpackExponent b ∧ unpackMantissa a = unpackMantissa b by
    rw [← packComponents_unpack a, ← packComponents_unpack b, hparts.1, hparts.2.1, hparts.2.2]
  have hlt := (unpackMantissa a).isLt
  have hlt' := (unpackMantissa b).isLt
  unfold UnpackedFloat.unpack at h hnum
  dsimp only at h hnum
  split_ifs at h hnum <;> first | exact absurd rfl hnum | cases h | skip
  · -- Two infinities.
    rename_i he hm he' hm'
    exact ⟨infinity.inj h, by rw [he, he'], by rw [hm, hm']⟩
  · -- Two zeros.
    rename_i he hm _ he' hm'
    exact ⟨zero.inj h, by rw [he, he'], by rw [hm, hm']⟩
  · -- Two numbers without the implicit bit.
    rename_i he _ _ he' _
    rcases finite.inj h with ⟨hsign, hmantissa, _⟩
    exact ⟨hsign, by rw [he, he'], BitVec.eq_of_toNat_eq hmantissa⟩
  · rcases finite.inj h with ⟨_, hmantissa, _⟩
    rw [append_one_toNat] at hmantissa
    omega
  · rcases finite.inj h with ⟨_, hmantissa, _⟩
    rw [append_one_toNat] at hmantissa
    omega
  · -- Two numbers with the implicit bit.
    rcases finite.inj h with ⟨hsign, hmantissa, hexponent⟩
    rw [append_one_toNat, append_one_toNat] at hmantissa
    exact ⟨hsign, BitVec.eq_of_toNat_eq (by omega), BitVec.eq_of_toNat_eq (by omega)⟩

/-- Packing preserves `Plus`. -/
theorem plus_unpack_pack {u : UnpackedFloat} (h : Plus u) :
    Plus (UnpackedFloat.unpack spec (pack spec u)) := by
  -- Whatever becomes of exponent and mantissa, the sign bit is packed as it is.
  have hsign : unpackSign (pack spec u) = Sign.positive.toBitVec := by
    fun_cases pack spec u with
    | case1 => exact unpackSign_packComponents _ _ _
    | case2 s | case3 s =>
        obtain rfl : s = .positive := h
        exact unpackSign_packComponents _ _ _
    | _ =>
        obtain rfl : _ = Sign.positive := h
        exact unpackSign_packComponents _ _ _
  unfold UnpackedFloat.unpack
  dsimp only
  rw [hsign]
  split_ifs <;> first | exact rfl | exact trivial

end Packing

/-! ## Sums -/

/-- Rounding a positive mantissa preserves the sign. -/
theorem plus_roundWithAccuracy (spec : Format) (m : Nat) (e : Int) (accuracy : Accuracy) :
    Plus (roundWithAccuracy spec .positive m e accuracy) := by
  unfold roundWithAccuracy
  dsimp only
  split <;> rfl

theorem plus_normalize (spec : Format) {mantissa : Int} (h : 0 ≤ mantissa) (e : Int) :
    Plus (UnpackedFloat.normalize spec mantissa e .positive) := by
  unfold UnpackedFloat.normalize
  split
  · rename_i hneg
    exact absurd (Int.compare_eq_lt.1 hneg) (Int.not_lt.2 h)
  · rfl
  · exact plus_roundWithAccuracy spec _ _ _

/-- `Plus` is closed under addition and under adding a zero. -/
theorem plus_add {spec : Format} {u v : UnpackedFloat} (hu : Plus u)
    (hv : Plus v ∨ ∃ s, v = .zero s) : Plus (UnpackedFloat.add spec u v) := by
  rcases hv with hv | ⟨t, rfl⟩
  · cases u with
    | notANumber => exact trivial
    | infinity s =>
        obtain rfl : s = .positive := hu
        cases v with
        | notANumber => exact trivial
        | infinity t =>
            obtain rfl : t = .positive := hv
            rfl
        | _ => rfl
    | zero s =>
        obtain rfl : s = .positive := hu
        cases v with
        | zero t =>
            obtain rfl : t = .positive := hv
            rfl
        | _ => exact hv
    | finite s m e hm =>
        obtain rfl : s = .positive := hu
        cases v with
        | finite t m' e' hm' =>
            -- Both mantissas count upwards, and so does their sum.
            obtain rfl : t = .positive := hv
            exact plus_normalize spec
              (Int.add_nonneg (Int.natCast_nonneg _) (Int.natCast_nonneg _)) _
        | notANumber => exact trivial
        | infinity => exact hv
        | zero => rfl
  · cases u with
    | notANumber => exact trivial
    | zero s =>
        obtain rfl : s = .positive := hu
        cases t <;> rfl
    | _ => exact hu

/-- The sign of a zero is irrelevant in a sum with a `Plus` number. -/
theorem add_zero_eq {spec : Format} {u : UnpackedFloat} (hu : Plus u) (s t : Sign) :
    UnpackedFloat.add spec u (.zero s) = UnpackedFloat.add spec u (.zero t) := by
  cases u with
  | notANumber => rfl
  | infinity => rfl
  | finite => rfl
  | zero sign =>
      obtain rfl : sign = .positive := hu
      cases s <;> cases t <;> rfl

/-! ## Scalars -/

/-- Numbers that compare equal differ at most in the sign of a zero, which sums of nonnegative
numbers ignore. -/
class Scalar.EqualUpToZeros (R : Type) [Scalar R] : Prop where
  eq_of_pos : ∀ {x y : R}, (x == y) = true → Scalar.lt 0 x = true → x = y
  pos_congr : ∀ {x y : R}, (x == y) = true → Scalar.lt 0 x = Scalar.lt 0 y
  zero_congr : ∀ {x y : R}, (x == y) = true → (x == 0) = (y == 0)
  nonneg_congr : ∀ {x y : R}, (x == y) = true → Scalar.le 0 x = Scalar.le 0 y
  sum_congr : ∀ {xs ys : List R}, List.Forall₂ (fun x y => (x == y) = true) xs ys →
    (∀ x ∈ xs, Scalar.le 0 x = true) → Scalar.sum xs = Scalar.sum ys

/-! ## Single precision -/

namespace Single

def value (x : Float32) : UnpackedFloat := x.toModel.unpack

/-- Equality of single precision numbers in terms of unpacked values. -/
theorem beq_iff {x y : Float32} : (x == y) = true ↔ (value x).compare (value y) = some .eq := by
  have hmodel : (x == y) = ((value x).compare (value y) == some .eq) := rfl
  rw [hmodel, beq_iff_eq]

theorem lt_iff {x y : Float32} : Scalar.lt x y = true ↔ (value x).compare (value y) = some .lt := by
  have hmodel : Scalar.lt x y = true ↔ x.toModel < y.toModel :=
    decide_eq_true_iff.trans decide_eq_true_iff
  exact hmodel.trans beq_iff_eq

theorem le_iff {x y : Float32} :
    Scalar.le x y = true ↔ ((value x).compare (value y)).any (·.isLE) = true := by
  have hmodel : Scalar.le x y = true ↔ x.toModel ≤ y.toModel :=
    decide_eq_true_iff.trans decide_eq_true_iff
  exact hmodel

/-- Numbers with equal values are equal, NaNs excepted. -/
theorem eq_of_value_eq {x y : Float32} (h : value x = value y) (hnum : value x ≠ .notANumber) :
    x = y := by
  have hbits : x.toModel.toBits.toBitVec = y.toModel.toBits.toBitVec := unpack_injective h hnum
  obtain ⟨⟨bits, _⟩⟩ := x
  obtain ⟨⟨bits', _⟩⟩ := y
  obtain rfl : bits = bits' := UInt32.toBitVec_inj.1 hbits
  rfl

/-- Single precision numbers that compare equal are equal, or both zeros. -/
theorem eq_or_zeros_of_beq {x y : Float32} (h : (x == y) = true) :
    x = y ∨ Zeros (value x) (value y) := by
  have hcompare := beq_iff.1 h
  rcases eq_or_zeros_of_compare hcompare with heq | hzeros
  · left
    apply eq_of_value_eq heq
    intro hnan
    rw [hnan] at hcompare
    cases hcompare
  · exact Or.inr hzeros

/-- Comparison with zero ignores the sign of a zero. -/
theorem compare_zero_congr {x y : Float32} (h : (x == y) = true) :
    (value 0).compare (value x) = (value 0).compare (value y) ∧
      (value x).compare (value 0) = (value y).compare (value 0) := by
  rcases eq_or_zeros_of_beq h with rfl | ⟨s, t, hx, hy⟩
  · exact ⟨rfl, rfl⟩
  · rw [hx, hy]
    exact ⟨rfl, rfl⟩

theorem plus_or_zero_of_nonneg {x : Float32} (h : Scalar.le 0 x = true) :
    Plus (value x) ∨ ∃ s, value x = .zero s := by
  have hcompare : ((UnpackedFloat.zero .positive).compare (value x)).any (·.isLE) = true :=
    le_iff.1 h
  cases hvalue : value x with
  | notANumber => exact Or.inl trivial
  | zero s => exact Or.inr ⟨s, rfl⟩
  | infinity s =>
      rw [hvalue] at hcompare
      cases s with
      | positive => exact Or.inl rfl
      | negative => cases hcompare
  | finite s m e hm =>
      rw [hvalue] at hcompare
      cases s with
      | positive => exact Or.inl rfl
      | negative => cases hcompare

/-- Adding a nonnegative number preserves `Plus`. -/
theorem plus_value_add {acc x : Float32} (hacc : Plus (value acc)) (hx : Scalar.le 0 x = true) :
    Plus (value (acc + x)) :=
  plus_unpack_pack (plus_add hacc (plus_or_zero_of_nonneg hx))

/-- Adding numbers that compare equal gives the same sum. -/
theorem add_congr {acc x y : Float32} (hacc : Plus (value acc)) (h : (x == y) = true) :
    acc + x = acc + y := by
  rcases eq_or_zeros_of_beq h with rfl | ⟨s, t, hx, hy⟩
  · rfl
  · have hadd : UnpackedFloat.add .binary32 (value acc) (value x) =
        UnpackedFloat.add .binary32 (value acc) (value y) := by
      rw [hx, hy]
      exact add_zero_eq hacc s t
    exact congrArg (fun u => Float32.ofModel (.pack u)) hadd

/-- Sums over lists that compare equal coincide. -/
theorem foldl_add_congr {xs ys : List Float32}
    (h : List.Forall₂ (fun x y : Float32 => (x == y) = true) xs ys)
    (hnonneg : ∀ x ∈ xs, Scalar.le 0 x = true) {acc : Float32} (hacc : Plus (value acc)) :
    xs.foldl (· + ·) acc = ys.foldl (· + ·) acc := by
  -- The running sum never has a minus sign, so it cannot show the sign of a zero.
  induction h generalizing acc with
  | nil => rfl
  | cons hxy _ ih =>
      rw [List.forall_mem_cons] at hnonneg
      rw [List.foldl_cons, List.foldl_cons, ← add_congr hacc hxy]
      exact ih hnonneg.2 (plus_value_add hacc hnonneg.1)

instance : Scalar.EqualUpToZeros Float32 where
  eq_of_pos {x y} h hpos := by
    rcases eq_or_zeros_of_beq h with heq | ⟨s, _, hx, _⟩
    · exact heq
    · have hcompare := lt_iff.1 hpos
      rw [hx] at hcompare
      cases hcompare
  pos_congr h :=
    Bool.eq_iff_iff.2 (lt_iff.trans (by rw [(compare_zero_congr h).1]; exact lt_iff.symm))
  zero_congr h :=
    Bool.eq_iff_iff.2 (beq_iff.trans (by rw [(compare_zero_congr h).2]; exact beq_iff.symm))
  nonneg_congr h :=
    Bool.eq_iff_iff.2 (le_iff.trans (by rw [(compare_zero_congr h).1]; exact le_iff.symm))
  sum_congr h hnonneg := foldl_add_congr h hnonneg rfl

end Single

end ShotSim
