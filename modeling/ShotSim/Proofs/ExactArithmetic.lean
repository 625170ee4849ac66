import ShotSim.Rng
import ShotSim.Proofs.NullNumbers

/-!
# Exact arithmetic — where rounding changes nothing

Probabilities are sums of rounded squares, and still some facts about them hold to the last bit: a
zero adds nothing, and a sum taken twice divides to one.

* `pack_unpack`, `unpack_pack_of_full` — bits and the numbers they stand for;
* `roundWithAccuracy_of_target` — a mantissa that fits is kept;
* `Scalar.Weight` — what sums of squares can be;
* `Scalar.ExactLaws` — the laws that hold exactly, and that single precision has them;
* `Single.mul_one` — a factor of one changes no number at all;
* `Single.fraction_compare` — the fractions that are drawn lie from zero up and below one.
-/

namespace ShotSim

open Float.Model Float.Model.UnpackedFloat

/-! ## Bit patterns -/

theorem log2_add_of_lt {n k : Nat} (h : n < 2 ^ k) : (2 ^ k + n).log2 = k := by
  rw [Nat.log2_eq_iff (by have := Nat.two_pow_pos k; omega), Nat.pow_succ]
  omega

/-- A left shift raises `log2` by the shift. -/
theorem log2_shiftLeft {n : Nat} (h : n ≠ 0) (k : Nat) : (n <<< k).log2 = n.log2 + k := by
  obtain ⟨hge, hlt⟩ := (Nat.log2_eq_iff h).1 rfl
  have hne : n <<< k ≠ 0 := by simpa using h
  rw [Nat.log2_eq_iff hne, Nat.shiftLeft_eq, Nat.add_right_comm, Nat.pow_add, Nat.pow_add]
  exact ⟨Nat.mul_le_mul_right _ hge, Nat.mul_lt_mul_of_pos_right hlt (Nat.two_pow_pos k)⟩

/-- `pack` inverts `unpack` on valid bit patterns. -/
theorem pack_unpack {b : BitVec Format.binary32.numBits} (h : Format.binary32.Valid b) :
    pack .binary32 (UnpackedFloat.unpack .binary32 b) = b := by
  have hmantissa := (unpackMantissa b).isLt
  have hexponent := (unpackExponent b).isLt
  have hparts := packComponents_unpack b
  have hbias : Format.binary32.exponentBias = 127 := rfl
  unfold UnpackedFloat.unpack
  dsimp only
  split_ifs with hall hzero hnone hempty
  · rw [hall, hzero] at hparts
    exact hparts
  · exact (h.eq_packedNaN hall hzero).symm
  · rw [hnone, hempty] at hparts
    exact hparts
  · -- Without the implicit bit.
    have hpos : (unpackMantissa b).toNat ≠ 0 := fun h0 => hempty (BitVec.eq_of_toNat_eq h0)
    have hlog : (unpackMantissa b).toNat.log2 < 23 := (Nat.log2_lt hpos).2 hmantissa
    rw [hnone] at hparts
    unfold UnpackedFloat.pack
    dsimp only
    rw [if_neg (by rw [hnone, hbias]; decide), if_neg (by simp [Format.mantissaBits]; omega),
      BitVec.ofNat_toNat, BitVec.setWidth_eq]
    exact hparts
  · -- With the implicit bit, which packing drops again.
    have hbelow : (unpackExponent b).toNat ≠ 255 := fun hmax => hall (BitVec.eq_of_toNat_eq hmax)
    have hbiased : ((unpackExponent b).toNat - (Format.binary32.exponentBias +
        Format.binary32.mantissaBitsWithoutImplicit : Int) + Format.binary32.exponentBias +
        Format.binary32.mantissaBitsWithoutImplicit).toNat = (unpackExponent b).toNat := by omega
    have hlog : (1#1 ++ unpackMantissa b).toNat.log2 = 23 := by
      rw [append_one_toNat]
      exact log2_add_of_lt hmantissa
    have hdrop : BitVec.ofNat 23 (1#1 ++ unpackMantissa b).toNat = unpackMantissa b := by
      apply BitVec.eq_of_toNat_eq
      rw [append_one_toNat, BitVec.toNat_ofNat, Nat.add_mod_left, Nat.mod_eq_of_lt hmantissa]
    unfold UnpackedFloat.pack
    dsimp only
    rw [hbiased, if_neg (by have : (unpackExponent b).toNat < 256 := hexponent; simp; omega),
      if_pos (by rw [hlog]; rfl), hdrop, BitVec.ofNat_toNat, BitVec.setWidth_eq]
    exact hparts

/-- `unpack` inverts `pack` on full mantissas with an exponent in range. -/
theorem unpack_pack_of_full (s : Sign) {m : Nat} {e : Int} (hm : 0 < m) (hfull : m.log2 = 23)
    (hlow : -149 ≤ e) (hhigh : e ≤ 104) :
    UnpackedFloat.unpack .binary32 (pack .binary32 (.finite s m e hm)) = .finite s m e hm := by
  have hbias : (Format.binary32.exponentBias : Int) = 127 := rfl
  -- The biased exponent is that of a normal number, neither 0 nor all ones.
  obtain ⟨biased, hbiased, hone, hfits⟩ : ∃ biased : Nat, e = biased - 150 ∧ 0 < biased ∧
      biased < 255 :=
    ⟨(e + 150).toNat, by omega, by omega, by omega⟩
  subst hbiased
  have hback : ((biased : Int) - 150 + Format.binary32.exponentBias +
      Format.binary32.mantissaBitsWithoutImplicit).toNat = biased := by
    rw [hbias]
    simp
    omega
  have hrange := (Nat.log2_eq_iff hm.ne').1 hfull
  -- The leading bit of a full mantissa is implicit.
  have hpacked : pack .binary32 (.finite s m (biased - 150) hm) =
      packComponents .binary32 s (BitVec.ofNat 8 biased) (BitVec.ofNat 23 m) := by
    unfold UnpackedFloat.pack
    dsimp only
    rw [hback, if_neg (by simp; omega), if_pos (by rw [hfull]; rfl)]
  have hexponent : (BitVec.ofNat 8 biased).toNat = biased := Nat.mod_eq_of_lt (by omega)
  have hmantissa : (1#1 ++ BitVec.ofNat 23 m).toNat = m := by
    rw [append_one_toNat, BitVec.toNat_ofNat]
    omega
  have hnotInfinite : BitVec.ofNat 8 biased ≠ -1#8 := by
    intro h
    have hmax : biased = 255 := hexponent.symm.trans (congrArg BitVec.toNat h)
    omega
  have hnotSmall : BitVec.ofNat 8 biased ≠ 0#8 := by
    intro h
    have hnone : biased = 0 := hexponent.symm.trans (congrArg BitVec.toNat h)
    omega
  have hsign : Sign.ofBitVec s.toBitVec = s := by cases s <;> rfl
  rw [hpacked]
  unfold UnpackedFloat.unpack
  simp only [unpackMantissa_packComponents, unpackExponent_packComponents,
    unpackSign_packComponents, if_neg hnotInfinite, if_neg hnotSmall, hsign, hmantissa, hexponent,
    hbias]
  congr 1

/-! ## Rounding and operations -/

/-- Shifting trailing zeros out of a mantissa is exact. -/
theorem shiftLeft_shiftRight (m k : Nat) :
    (⟨m <<< k, false, false⟩ : ExtendedMantissa) >>> k = ⟨m, false, false⟩ := by
  induction k generalizing m with
  | zero => rfl
  | succ k ih =>
      have hshift : m <<< (k + 1) = (2 * m) <<< k := by
        rw [Nat.shiftLeft_eq, Nat.shiftLeft_eq, Nat.pow_succ]
        ring
      have hlast : (⟨m <<< (k + 1), false, false⟩ : ExtendedMantissa) >>> (k + 1) =
          ((⟨m <<< (k + 1), false, false⟩ : ExtendedMantissa) >>> k).shiftRightOne := rfl
      rw [hlast, hshift, ih, ExtendedMantissa.shiftRightOne]
      simp

/-- The target exponent of `binary32`. -/
theorem targetExponent_binary32 (total : Int) :
    Format.binary32.targetExponent total = max (total - 24) (-149) := rfl

/-- A mantissa already at its target exponent is not rounded. -/
theorem roundWithAccuracy_of_target (s : Sign) {m : Nat} (hm : 0 < m) (k : Nat) {e : Int}
    (hexponent : Format.binary32.targetExponent (totalExponent m (e + k)) = e + k) :
    roundWithAccuracy .binary32 s (m <<< k) e .exact = .finite s m (e + k) hm := by
  have hshift : ∀ (j : Nat) (e' : Int), e' + j = e + k →
      shiftToTargetExponent .binary32 (m <<< j) e' .exact = (⟨m, false, false⟩, e + k) := by
    intro j e' hsum
    have htotal : totalExponent (m <<< j) e' = totalExponent m (e + k) := by
      rw [totalExponent, totalExponent, log2_shiftLeft hm.ne']
      omega
    have hcount : (e + (k : Int) - e').toNat = j := by omega
    rw [shiftToTargetExponent, htotal, hexponent]
    unfold shiftToExponent
    dsimp only
    rw [hcount, hsum]
    exact congrArg (·, e + (k : Int)) (shiftLeft_shiftRight m j)
  -- Nothing is left to shift the second time.
  have hagain : shiftToTargetExponent .binary32 m (e + k) .exact = (⟨m, false, false⟩, e + k) := by
    simpa using hshift 0 (e + k) (by omega)
  have hrounded : (⟨m, false, false⟩ : ExtendedMantissa).roundedMantissa = m := rfl
  unfold roundWithAccuracy
  simp only [hshift k e rfl, hrounded, hagain]
  rw [dif_neg hm.ne']

/-- A full mantissa followed by zeros is not rounded. -/
theorem roundWithAccuracy_of_full (s : Sign) {m : Nat} (hm : 0 < m) (hfull : m.log2 = 23) (k : Nat)
    {e : Int} (hlow : -149 ≤ e + k) :
    roundWithAccuracy .binary32 s (m <<< k) e .exact = .finite s m (e + k) hm := by
  apply roundWithAccuracy_of_target s hm k
  rw [targetExponent_binary32, totalExponent, hfull]
  omega

/-- An unpacked number is at the target exponent of its format. -/
theorem targetExponent_unpack {b : BitVec Format.binary32.numBits} {s : Sign} {m : Nat} {e : Int}
    {hm : 0 < m} (h : UnpackedFloat.unpack .binary32 b = .finite s m e hm) :
    Format.binary32.targetExponent (totalExponent m e) = e := by
  have hmantissa := (unpackMantissa b).isLt
  have hbias : Format.binary32.exponentBias = 127 := rfl
  rw [targetExponent_binary32, totalExponent]
  unfold UnpackedFloat.unpack at h
  dsimp only at h
  split_ifs at h with hall hzero hnone hempty
  · -- Without the implicit bit.
    obtain ⟨_, rfl, rfl⟩ := UnpackedFloat.finite.inj h
    have hpos : (unpackMantissa b).toNat ≠ 0 := fun h0 => hempty (BitVec.eq_of_toNat_eq h0)
    have hlog : (unpackMantissa b).toNat.log2 < 23 := (Nat.log2_lt hpos).2 hmantissa
    rw [hnone, hbias]
    simp
    omega
  · obtain ⟨_, rfl, rfl⟩ := UnpackedFloat.finite.inj h
    have hlog : (1#1 ++ unpackMantissa b).toNat.log2 = 23 := by
      rw [append_one_toNat]
      exact log2_add_of_lt hmantissa
    have hsmall : 0 < (unpackExponent b).toNat := by
      apply Nat.pos_of_ne_zero
      intro h0
      exact hnone (BitVec.eq_of_toNat_eq h0)
    rw [hlog, hbias]
    simp
    omega

/-- A square is never negative. -/
theorem plus_mul_self (spec : Format) (u : UnpackedFloat) : Plus (UnpackedFloat.mul spec u u) := by
  have hsign : ∀ s : Sign, s * s = .positive := by
    intro s
    cases s <;> rfl
  cases u with
  | notANumber => exact trivial
  | infinity s => exact hsign s
  | zero s => exact hsign s
  | finite s m e hm =>
      have hmul : UnpackedFloat.mul spec (.finite s m e hm) (.finite s m e hm) =
          roundWithAccuracy spec (s * s) (m * m) (e + e) .exact := rfl
      rw [hmul, hsign]
      exact plus_roundWithAccuracy spec _ _ _

theorem add_zero_of_plus (spec : Format) {u : UnpackedFloat} (h : Plus u) :
    UnpackedFloat.add spec u (.zero .positive) = u ∧
      UnpackedFloat.add spec (.zero .positive) u = u := by
  cases u with
  | zero s =>
      obtain rfl : s = .positive := h
      exact ⟨rfl, rfl⟩
  | notANumber | infinity s | finite s m e hm => exact ⟨rfl, rfl⟩

/-- A finite number minus itself is positive zero. -/
theorem sub_self_of_finite (spec : Format) (s : Sign) {m : Nat} (e : Int) (hm : 0 < m) :
    UnpackedFloat.sub spec (.finite s m e hm) (.finite s m e hm) = .zero .positive := by
  simp [UnpackedFloat.sub, UnpackedFloat.normalize]

/-- A finite number divided by itself is one: the quotient of the mantissas is a power of two. -/
theorem div_self_of_finite {m : Nat} (e : Int) (hm : 0 < m) :
    UnpackedFloat.div .binary32 (.finite .positive m e hm) (.finite .positive m e hm) =
      .finite .positive (2 ^ 23) (-23) (by decide) := by
  have hcore : divCore .binary32 m e m e = ((2 ^ 23) <<< 1, -24, .exact) := by
    have htarget :
        min (e - e) (Format.binary32.targetExponent (totalExponent m e - totalExponent m e)) =
        -24 := by
      rw [Int.sub_self, Int.sub_self]
      rfl
    unfold divCore
    dsimp only
    rw [htarget, Int.sub_self]
    have hdiv : m <<< (0 - -24 : Int).toNat / m = (2 ^ 23) <<< 1 := by
      rw [Nat.shiftLeft_eq, Nat.mul_div_cancel_left _ hm]
      rfl
    have hmod : m <<< (0 - -24 : Int).toNat % m = 0 := by
      rw [Nat.shiftLeft_eq]
      exact Nat.mul_mod_right _ _
    rw [hdiv, hmod]
    rfl
  have hround : UnpackedFloat.div .binary32 (.finite .positive m e hm) (.finite .positive m e hm) =
      roundWithAccuracy .binary32 .positive (divCore .binary32 m e m e).1
        (divCore .binary32 m e m e).2.1
        (divCore .binary32 m e m e).2.2 := rfl
  rw [hround, hcore]
  exact roundWithAccuracy_of_full .positive (Nat.two_pow_pos 23) Nat.log2_two_pow 1 (by decide)

/-! ## Scalars -/

namespace Scalar

variable {R : Type} [Scalar R]

/-- Zero, squares and sums of weights. -/
inductive Weight : R → Prop
  | zero : Weight 0
  | square (x : R) : Weight (x * x)
  | add {x y : R} (hx : Weight x) (hy : Weight y) : Weight (x + y)

theorem weight_foldl {xs : List R} (h : ∀ x ∈ xs, Weight x) {acc : R} (hacc : Weight acc) :
    Weight (xs.foldl (· + ·) acc) := by
  induction xs generalizing acc with
  | nil => exact hacc
  | cons x rest ih =>
      rw [List.forall_mem_cons] at h
      exact ih h.2 (hacc.add h.1)

/-- A sum of weights is a weight. -/
theorem weight_sum {xs : List R} (h : ∀ x ∈ xs, Weight x) : Weight (sum xs) := weight_foldl h .zero

/-- Finite and above zero. -/
def Positive (x : R) : Prop := lt 0 x = true ∧ isFinite x = true

end Scalar

/-- `normSqr` is a weight. -/
theorem Cplx.weight_normSqr {R : Type} [Scalar R] (a : Cplx R) : Scalar.Weight a.normSqr :=
  .add (.square a.re) (.square a.im)

/-- Cases in which arithmetic is exact: adding zero to a weight, a number against itself, and the
drawn fractions, which lie in `[0, 1)`. -/
class Scalar.ExactLaws (R : Type) [Scalar R] : Prop where
  finite_zero : isFinite (0 : R) = true
  square_eq_zero : ∀ {x : R}, Null x → isFinite x = true → x * x = 0
  add_zero : ∀ {x : R}, Weight x → x + 0 = x
  zero_add : ∀ {x : R}, Weight x → 0 + x = x
  sub_zero : ∀ {x : R}, Positive x → x - 0 = x
  sub_self : ∀ {x : R}, Positive x → x - x = 0
  zero_div : ∀ {x : R}, Positive x → 0 / x = 0
  div_self : ∀ {x : R}, Positive x → x / x = 1
  max_zero : ∀ {x : R}, Positive x → Scalar.max x 0 = x
  max_zero_zero : Scalar.max (0 : R) 0 = 0
  clamp_zero : Scalar.clamp (0 : R) 0 1 = 0
  clamp_one : Scalar.clamp (1 : R) 0 1 = 1
  fraction_not_lt_zero : ∀ g : Rng, lt (g.fraction : R) 0 = false
  fraction_lt_one : ∀ g : Rng, lt (g.fraction : R) 1 = true

/-! ## Single precision -/

namespace Single

theorem ofModel_pack_value (x : Float32) : Float32.ofModel (.pack (value x)) = x := by
  obtain ⟨⟨bits, hvalid⟩⟩ := x
  have hbits : pack .binary32 (UnpackedFloat.unpack .binary32 bits.toBitVec) = bits.toBitVec :=
    pack_unpack hvalid
  simp [value, Float32.Model.pack, Float32.Model.unpack, hbits]

theorem plus_of_weight {x : Float32} (h : Scalar.Weight x) : Plus (value x) := by
  induction h with
  | zero => rfl
  | square x => exact plus_unpack_pack (plus_mul_self .binary32 (value x))
  | add _ _ hx hy => exact plus_unpack_pack (plus_add hx (Or.inl hy))

/-- A positive number unpacks to a finite positive one. -/
theorem value_of_positive {x : Float32} (h : Scalar.Positive x) :
    ∃ m e hm, value x = .finite .positive m e hm := by
  obtain ⟨hpos, hfinite⟩ := h
  have hcompare : (UnpackedFloat.zero .positive).compare (value x) = some .lt := lt_iff.1 hpos
  have hfin : (value x).isFinite = true := hfinite
  cases hx : value x with
  | notANumber =>
      rw [hx] at hcompare
      cases hcompare
  | zero s =>
      rw [hx] at hcompare
      cases hcompare
  | infinity s =>
      rw [hx] at hfin
      cases hfin
  | finite s m e hm =>
      rw [hx] at hcompare
      cases s with
      | positive => exact ⟨m, e, hm, rfl⟩
      | negative => cases hcompare

/-- A finite null number unpacks to a zero. -/
theorem value_of_null {x : Float32} (hnull : Scalar.Null x) (hfinite : Scalar.isFinite x = true) :
    ∃ s, value x = .zero s := by
  have hvalue := null_iff.1 hnull
  have hfin : (value x).isFinite = true := hfinite
  cases hx : value x with
  | zero s => exact ⟨s, rfl⟩
  | notANumber =>
      rw [hx] at hfin
      cases hfin
  | infinity s =>
      rw [hx] at hfin
      cases hfin
  | finite s m e hm =>
      rw [hx] at hvalue
      exact hvalue.elim

/-- Multiplication by one is exact. -/
theorem mul_one (x : Float32) : x * 1 = x := by
  have hmodel : x * 1 = Float32.ofModel (.pack (UnpackedFloat.mul .binary32 (value x)
      (.finite .positive (2 ^ 23) (-23) (by decide)))) := rfl
  have hmul : UnpackedFloat.mul .binary32 (value x) (.finite .positive (2 ^ 23) (-23) (by decide)) =
      value x := by
    cases hx : value x with
    | notANumber => rfl
    | infinity s => cases s <;> rfl
    | zero s => cases s <;> rfl
    | finite s m e hm =>
        have hsign : s * .positive = s := by cases s <;> rfl
        have hround : UnpackedFloat.mul .binary32 (.finite s m e hm)
            (.finite .positive (2 ^ 23) (-23) (by decide)) =
              roundWithAccuracy .binary32 (s * .positive) (m * 2 ^ 23) (e + -23) .exact := rfl
        have hback : e + -23 + ((23 : Nat) : Int) = e := by omega
        rw [hround, hsign, ← Nat.shiftLeft_eq, roundWithAccuracy_of_target s hm 23]
        · rw [hback]
        · rw [hback]
          exact targetExponent_unpack hx
  rw [hmodel, hmul, ofModel_pack_value]

/-! ### Fractions -/

/-- Multiplication by a power of two shifts the exponent. -/
theorem value_mul_power {x y : Float32} {s : Sign} {m : Nat} {e f : Int} (hm : 0 < m)
    (hfull : m.log2 = 23) (hx : value x = .finite s m e hm)
    (hy : value y = .finite .positive (2 ^ 23) f (by decide)) (hlow : -149 ≤ e + f + 23)
    (hhigh : e + f + 23 ≤ 104) : value (x * y) = .finite s m (e + f + 23) hm := by
  have hsign : s * .positive = s := by cases s <;> rfl
  have hmul : value (x * y) = UnpackedFloat.unpack .binary32
      (pack .binary32 (UnpackedFloat.mul .binary32 (value x) (value y))) := rfl
  have hround :
      UnpackedFloat.mul .binary32 (.finite s m e hm) (.finite .positive (2 ^ 23) f (by decide)) =
      roundWithAccuracy .binary32 (s * .positive) (m * 2 ^ 23) (e + f) .exact := rfl
  rw [hmul, hx, hy, hround, hsign, ← Nat.shiftLeft_eq, roundWithAccuracy_of_full s hm hfull 23 hlow]
  exact unpack_pack_of_full s hm hfull hlow hhigh

/-- The normalized mantissa of a count has 24 bits. -/
theorem log2_full {n : Nat} (hpos : 0 < n) (hlt : n < 2 ^ 24) :
    (n <<< (23 - n.log2)).log2 = 23 := by
  have hlog : n.log2 < 24 := (Nat.log2_lt hpos.ne').2 hlt
  rw [log2_shiftLeft hpos.ne']
  omega

/-- Counts below `2 ^ 24` normalize without rounding. -/
theorem normalize_count {n : Nat} (hpos : 0 < n) (hlt : n < 2 ^ 24) (hm : 0 < n <<< (23 - n.log2)) :
    UnpackedFloat.normalize .binary32 (n : Int) 0 .positive =
      .finite .positive (n <<< (23 - n.log2)) (n.log2 - 23) hm := by
  have hlog : n.log2 < 24 := (Nat.log2_lt hpos.ne').2 hlt
  have hcompare : compare (n : Int) 0 = .gt := Int.compare_eq_gt.2 (by omega)
  have htarget : Format.binary32.targetExponent (totalExponent n 0) = n.log2 - 23 := by
    rw [targetExponent_binary32, totalExponent]
    omega
  have hdecrease :
      decreaseExponent n 0 (n.log2 - 23) = (n <<< (23 - n.log2), (n.log2 : Int) - 23) := by
    have hshift : (0 - ((n.log2 : Int) - 23)).toNat = 23 - n.log2 := by omega
    have hexponent : (0 : Int) - ((23 - n.log2 : Nat) : Int) = n.log2 - 23 := by omega
    unfold decreaseExponent
    dsimp only
    rw [hshift, hexponent]
  unfold UnpackedFloat.normalize
  rw [hcompare]
  dsimp only
  rw [Int.toNat_natCast]
  unfold UnpackedFloat.round
  dsimp only
  rw [htarget, hdecrease]
  simpa using roundWithAccuracy_of_full .positive hm (log2_full hpos hlt) 0 (e :=
    n.log2 - 23) (by omega)

/-- `Scalar.ofNat` is exact below `2 ^ 24`. -/
theorem value_ofNat {n : Nat} (hpos : 0 < n) (hlt : n < 2 ^ 24) (hm : 0 < n <<< (23 - n.log2)) :
    value (Scalar.ofNat n) = .finite .positive (n <<< (23 - n.log2)) (n.log2 - 23) hm := by
  have hlog : n.log2 < 24 := (Nat.log2_lt hpos.ne').2 hlt
  have hfull := log2_full hpos hlt
  by_cases hsmall : n < 2 ^ 23
  · -- A small count is converted as a word and multiplied by one.
    have hword : value n.toUInt64.toFloat32 =
        .finite .positive (n <<< (23 - n.log2)) (n.log2 - 23) hm := by
      have hmodel : value n.toUInt64.toFloat32 = UnpackedFloat.unpack .binary32
          (pack .binary32
            (UnpackedFloat.normalize .binary32 (n.toUInt64.toNat : Int) 0 .positive)) := rfl
      rw [hmodel, UInt64.toNat_ofNat_of_lt' (Nat.lt_trans hsmall (by decide)),
        normalize_count hpos hlt hm]
      exact unpack_pack_of_full .positive hm hfull (by omega) (by omega)
    have hone : value (Float32.exactlyRepresentablePowersOfTen[0]) =
        .finite .positive (2 ^ 23) (-23) (by decide) := rfl
    have hmodel : (Scalar.ofNat n : Float32) =
        n.toUInt64.toFloat32 * Float32.exactlyRepresentablePowersOfTen[0] :=
      dif_pos ⟨hsmall, by decide⟩
    rw [hmodel, value_mul_power hm hfull hword hone (by omega) (by omega)]
    simp
  · -- A larger one fills the mantissa as it stands.
    have hbits : n.log2 = 23 := (Nat.log2_eq_iff hpos.ne').2 ⟨Nat.le_of_not_lt hsmall, hlt⟩
    have hmodel : (Scalar.ofNat n : Float32) = Float32.ofModel (.ofScientific n 0) :=
      dif_neg fun h => hsmall h.1
    have hscientific : UnpackedFloat.ofScientific .binary32 n 0 =
        roundWithAccuracy .binary32 .positive (n <<< 24 * 10 ^ 0) (-24 + 0) .exact := by
      unfold UnpackedFloat.ofScientific
      have hpower : (2 : Int) ^ Format.binary32.exponentBits = 256 := rfl
      rw [dif_neg hpos.ne', if_neg (by decide), if_neg (by omega), if_pos (Int.le_refl 0)]
      rfl
    have hvalue : value (Float32.ofModel (.ofScientific n 0)) = UnpackedFloat.unpack .binary32
        (pack .binary32 (UnpackedFloat.ofScientific .binary32 n 0)) := rfl
    rw [hmodel, hvalue, hscientific, Nat.pow_zero, Nat.mul_one,
      roundWithAccuracy_of_full .positive hpos hbits 24 (by decide),
      unpack_pack_of_full .positive hpos hbits (by decide) (by decide)]
    simp [hbits]

/-- The unit `2 ^ -24` of the drawn fractions. -/
theorem value_unit :
    value (1 / Scalar.ofNat 16777216) = .finite .positive (2 ^ 23) (-47) (by decide) := rfl

/-- Drawn fractions lie in `[0, 1)`. -/
theorem fraction_compare {n : Nat} (hlt : n < 2 ^ 24) :
    (value (Scalar.ofNat n * (1 / Scalar.ofNat 16777216))).compare (value 0) ≠ some .lt ∧
      (value (Scalar.ofNat n * (1 / Scalar.ofNat 16777216))).compare (value 1) = some .lt := by
  have hzero : value (0 : Float32) = .zero .positive := rfl
  have hone : value (1 : Float32) = .finite .positive (2 ^ 23) (-23) (by decide) := rfl
  rcases Nat.eq_zero_or_pos n with rfl | hpos
  · have hnone : value (Scalar.ofNat 0 * (1 / Scalar.ofNat 16777216)) = .zero .positive := rfl
    rw [hnone, hzero, hone]
    refine ⟨fun hless => ?_, rfl⟩
    cases hless
  · have hm : 0 < n <<< (23 - n.log2) := by simpa using hpos
    have hlog : n.log2 < 24 := (Nat.log2_lt hpos.ne').2 hlt
    -- Already the exponent is below that of one.
    have hbelow : compare (n.log2 - 23 + -47 + 23 : Int) (-23) = .lt :=
      Int.compare_eq_lt.2 (by omega)
    rw [value_mul_power hm (log2_full hpos hlt) (value_ofNat hpos hlt hm) value_unit (by omega)
      (by omega), hzero, hone, UnpackedFloat.compare, UnpackedFloat.compare, hbelow]
    refine ⟨fun hless => ?_, rfl⟩
    cases hless

theorem fraction_count_lt (g : Rng) : (g.output >>> 8).toNat < 2 ^ 24 := by
  have hword := g.output.toNat_lt
  rw [UInt32.toNat_shiftRight, Nat.shiftRight_eq_div_pow]
  exact Nat.div_lt_of_lt_mul hword

instance : Scalar.ExactLaws Float32 where
  finite_zero := rfl
  square_eq_zero {x} hnull hfinite := by
    obtain ⟨s, hs⟩ := value_of_null hnull hfinite
    have hmodel :
        x * x = Float32.ofModel (.pack (UnpackedFloat.mul .binary32 (value x) (value x))) := rfl
    rw [hmodel, hs]
    cases s <;> rfl
  add_zero {x} h := by
    have hadd := (add_zero_of_plus .binary32 (plus_of_weight h)).1
    have hmodel :
        x + 0 = Float32.ofModel (.pack (UnpackedFloat.add .binary32 (value x) (.zero .positive))) :=
      rfl
    rw [hmodel, hadd, ofModel_pack_value]
  zero_add {x} h := by
    have hadd := (add_zero_of_plus .binary32 (plus_of_weight h)).2
    have hmodel :
        0 + x = Float32.ofModel (.pack (UnpackedFloat.add .binary32 (.zero .positive) (value x))) :=
      rfl
    rw [hmodel, hadd, ofModel_pack_value]
  sub_zero {x} h := by
    obtain ⟨m, e, hm, hx⟩ := value_of_positive h
    have hmodel :
        x - 0 = Float32.ofModel (.pack (UnpackedFloat.sub .binary32 (value x) (.zero .positive))) :=
      rfl
    have hsub : UnpackedFloat.sub .binary32 (value x) (.zero .positive) = value x := by
      rw [hx]
      rfl
    rw [hmodel, hsub, ofModel_pack_value]
  sub_self {x} h := by
    obtain ⟨m, e, hm, hx⟩ := value_of_positive h
    have hmodel :
        x - x = Float32.ofModel (.pack (UnpackedFloat.sub .binary32 (value x) (value x))) := rfl
    rw [hmodel, hx, sub_self_of_finite]
    rfl
  zero_div {x} h := by
    obtain ⟨m, e, hm, hx⟩ := value_of_positive h
    have hmodel :
        0 / x = Float32.ofModel (.pack (UnpackedFloat.div .binary32 (.zero .positive) (value x))) :=
      rfl
    rw [hmodel, hx]
    rfl
  div_self {x} h := by
    obtain ⟨m, e, hm, hx⟩ := value_of_positive h
    have hmodel :
        x / x = Float32.ofModel (.pack (UnpackedFloat.div .binary32 (value x) (value x))) := rfl
    rw [hmodel, hx, div_self_of_finite]
    rfl
  max_zero {x} h := by
    obtain ⟨m, e, hm, hx⟩ := value_of_positive h
    have hlt : Scalar.lt x 0 = false := by
      rw [← Bool.not_eq_true, lt_iff, hx]
      exact nofun
    have hle : Scalar.le x x = true := by
      rw [le_iff, hx]
      simp [UnpackedFloat.compare]
    rw [Scalar.max, hlt, hle]
    rfl
  max_zero_zero := by decide +kernel
  clamp_zero := by decide +kernel
  clamp_one := by decide +kernel
  fraction_not_lt_zero g := by
    rw [← Bool.not_eq_true, lt_iff]
    exact (fraction_compare (fraction_count_lt g)).1
  fraction_lt_one g := lt_iff.2 (fraction_compare (fraction_count_lt g)).2

end Single

end ShotSim
