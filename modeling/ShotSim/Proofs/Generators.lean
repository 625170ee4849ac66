import Mathlib.Logic.Function.Basic
import ShotSim.Rng

/-!
# Generators — no two shots share one, and none stands still

Seeding and drawing lose no bit of what they are given: the hash of a word can be undone, and so can
a draw.  Two generators that differ at the start therefore differ for good, and the one state that
draws do not leave is never reached from any other.

* `bijective_of_doubling` — a map whose repetition is the map of twice its parameter;
* `Word.xor_shiftRight_bijective`, `Word.xor_shiftLeft_bijective` — a word folded onto itself;
* `laneHash_bijective`, `Rng.step_bijective` — the hash and the draw;
* `Rng.hashes`, `Rng.ofSeed_eq_hashes` — the state that a seed expands to;
* `generators_never_coincide` — the generators of the shots of a run, after any number of draws.
-/

namespace ShotSim

open Function

/-! ## Words folded onto themselves -/

/-- If `f n ∘ f n = f (2 * n)` and `f` is the identity from some parameter on, then `f n` is
bijective. -/
theorem bijective_of_doubling {α : Type} {f : Nat → α → α} (limit : Nat)
    (hdouble : ∀ n x, f n (f n x) = f (2 * n) x) (hlimit : ∀ n x, limit ≤ n → f n x = x) {n : Nat}
    (hn : 0 < n) : Bijective (f n) := by
  -- From the limit downwards: a map is as good as its repetition.
  by_cases hfar : limit ≤ n
  · have hid : f n = id := funext fun x => hlimit n x hfar
    rw [hid]
    exact bijective_id
  · have htwice : f n ∘ f n = f (2 * n) := funext fun x => hdouble n x
    have hnext : Bijective (f (2 * n)) :=
      bijective_of_doubling limit hdouble hlimit (Nat.mul_pos Nat.two_pos hn)
    rw [← htwice] at hnext
    exact ⟨hnext.injective.of_comp, hnext.surjective.of_comp⟩
termination_by limit - n

section Fold

variable {w : Nat}

/-- A right xorshift applied twice is one over twice the distance. -/
theorem xor_shiftRight_twice (n : Nat) (x : BitVec w) :
    (x ^^^ x >>> n) ^^^ (x ^^^ x >>> n) >>> n = x ^^^ x >>> (2 * n) := by
  rw [BitVec.ushiftRight_xor_distrib, ← BitVec.shiftRight_add, ← Nat.two_mul, BitVec.xor_assoc,
    ← BitVec.xor_assoc (x >>> n), BitVec.xor_self, BitVec.zero_xor]

/-- A left xorshift applied twice is one over twice the distance. -/
theorem xor_shiftLeft_twice (n : Nat) (x : BitVec w) :
    (x ^^^ x <<< n) ^^^ (x ^^^ x <<< n) <<< n = x ^^^ x <<< (2 * n) := by
  rw [BitVec.shiftLeft_xor_distrib, ← BitVec.shiftLeft_add, ← Nat.two_mul, BitVec.xor_assoc,
    ← BitVec.xor_assoc (x <<< n), BitVec.xor_self, BitVec.zero_xor]

/-- Right xorshifts of bit vectors are bijective. -/
theorem bijective_xor_shiftRight {n : Nat} (hn : 0 < n) :
    Bijective fun x : BitVec w => x ^^^ x >>> n := by
  refine bijective_of_doubling (f := fun n (x : BitVec w) => x ^^^ x >>> n) w xor_shiftRight_twice
    (fun n x hfar => ?_) hn
  rw [BitVec.ushiftRight_eq_zero hfar, BitVec.xor_zero]

/-- Left xorshifts of bit vectors are bijective. -/
theorem bijective_xor_shiftLeft {n : Nat} (hn : 0 < n) :
    Bijective fun x : BitVec w => x ^^^ x <<< n := by
  refine bijective_of_doubling (f := fun n (x : BitVec w) => x ^^^ x <<< n) w xor_shiftLeft_twice
    (fun n x hfar => ?_) hn
  rw [BitVec.shiftLeft_eq_zero hfar, BitVec.xor_zero]

end Fold

namespace Word

theorem toBitVec_bijective : Bijective UInt32.toBitVec :=
  ⟨fun _ _ h => UInt32.toBitVec_inj.1 h, fun b => ⟨⟨b⟩, rfl⟩⟩

/-- A map of words is bijective if the underlying map of bit vectors is. -/
theorem bijective_of_bits {f : UInt32 → UInt32} {g : BitVec 32 → BitVec 32}
    (h : ∀ x, (f x).toBitVec = g x.toBitVec) (hg : Bijective g) : Bijective f := by
  have hcomp : UInt32.toBitVec ∘ f = g ∘ UInt32.toBitVec := funext h
  refine (Bijective.of_comp_iff' toBitVec_bijective f).1 ?_
  rw [hcomp]
  exact hg.comp toBitVec_bijective

/-- Right xorshifts of words are bijective; the distance is taken mod 32. -/
theorem xor_shiftRight_bijective {k : UInt32} (hk : 0 < (k.toBitVec % 32).toNat) :
    Bijective fun x : UInt32 => x ^^^ x >>> k :=
  bijective_of_bits (fun _ => rfl) (bijective_xor_shiftRight hk)

/-- Left xorshifts of words are bijective. -/
theorem xor_shiftLeft_bijective {k : UInt32} (hk : 0 < (k.toBitVec % 32).toNat) :
    Bijective fun x : UInt32 => x ^^^ x <<< k :=
  bijective_of_bits (fun _ => rfl) (bijective_xor_shiftLeft hk)

/-- Multiplication by an invertible word is bijective. -/
theorem mul_bijective {a b : UInt32} (h : a * b = 1) : Bijective fun x : UInt32 => x * a := by
  have hback : b * a = 1 := (UInt32.mul_comm b a).trans h
  refine bijective_iff_has_inverse.2 ⟨fun x => x * b, fun x => ?_, fun x => ?_⟩
  · exact (UInt32.mul_assoc x a b).trans (by rw [h, UInt32.mul_one])
  · exact (UInt32.mul_assoc x b a).trans (by rw [hback, UInt32.mul_one])

theorem xor_cancel (x y : UInt32) : x ^^^ y ^^^ y = x := by
  rw [UInt32.xor_assoc, UInt32.xor_self, UInt32.xor_zero]

end Word

/-! ## The hash -/

/-- `laneHash` is a bijection of words. -/
theorem laneHash_bijective : Bijective laneHash := by
  have hfirst : Bijective fun x : UInt32 => x * 0x7feb352d :=
    Word.mul_bijective (b := 0x1d69e2a5) (by decide)
  have hsecond : Bijective fun x : UInt32 => x * 0x846ca68b :=
    Word.mul_bijective (b := 0x43021123) (by decide)
  have hfold : Bijective fun x : UInt32 => x ^^^ x >>> 16 :=
    Word.xor_shiftRight_bijective (by decide)
  have hfold' : Bijective fun x : UInt32 => x ^^^ x >>> 15 :=
    Word.xor_shiftRight_bijective (by decide)
  exact hfold.comp (hsecond.comp (hfold'.comp (hfirst.comp hfold)))

/-! ## The draw -/

/-- Rotations by `n` and by `w - n` cancel. -/
theorem rotateLeft_rotateLeft_bits {n : Nat} (hpos : 0 < n) (hlt : n < 32) (x : BitVec 32) :
    (x.rotateLeft n).rotateLeft (32 - n) = x := by
  have hmod : n % 32 = n := Nat.mod_eq_of_lt hlt
  have hrest : (32 - n) % 32 = 32 - n := Nat.mod_eq_of_lt (by omega)
  apply BitVec.eq_of_getLsbD_eq
  intro i hi
  rw [BitVec.getLsbD_rotateLeft, BitVec.getLsbD_rotateLeft, BitVec.getLsbD_rotateLeft, hmod, hrest]
  by_cases hlow : i < 32 - n
  · -- The bit went up, and the second turn brings it back.
    have hup : ¬(32 - (32 - n) + i < n) := by omega
    have hin : 32 - (32 - n) + i < 32 := by omega
    have hback : 32 - (32 - n) + i - n = i := by omega
    simp [hlow, hup, hin, hback]
  · have hdown : i - (32 - n) < n := by omega
    have hback : 32 - n + (i - (32 - n)) = i := by omega
    simp [hlow, hi, hdown, hback]

theorem rotateLeft_11_bijective : Bijective fun x : UInt32 => rotateLeft x 11 := by
  refine Word.bijective_of_bits (g := fun x => x.rotateLeft 11) (fun _ => rfl) ?_
  exact bijective_iff_has_inverse.2 ⟨fun x => x.rotateLeft 21,
    rotateLeft_rotateLeft_bits (by decide) (by decide),
    rotateLeft_rotateLeft_bits (by decide) (by decide)⟩

namespace Rng

theorem step_injective : Injective step := by
  intro g g' h
  obtain ⟨s0, s1, s2, s3⟩ := g
  obtain ⟨t0, t1, t2, t3⟩ := g'
  simp only [step, mk.injEq] at h
  obtain ⟨h0, h1, h2, h3⟩ := h
  -- The last word is a turn, which gives away what was mixed into the first.
  have hmixed : s3 ^^^ s1 = t3 ^^^ t1 := rotateLeft_11_bijective.injective h3
  rw [hmixed] at h0
  obtain rfl : s0 = t0 := (UInt32.xor_left_inj _).1 h0
  -- What the two words in the middle have in common cancels, and leaves a word folded onto itself.
  have hfold : ∀ a b : UInt32, a ^^^ (b ^^^ s0) ^^^ (b ^^^ s0 ^^^ a <<< 9) = a ^^^ a <<< 9 := by
    intro a b
    rw [← UInt32.xor_assoc, Word.xor_cancel]
  have hmiddle : s1 ^^^ s1 <<< 9 = t1 ^^^ t1 <<< 9 := by
    rw [← hfold s1 s2, ← hfold t1 t2, h1, h2]
  obtain rfl : s1 = t1 := (Word.xor_shiftLeft_bijective (by decide)).injective hmiddle
  obtain rfl : s2 = t2 := (UInt32.xor_left_inj _).1 ((UInt32.xor_right_inj _).1 h1)
  obtain rfl : s3 = t3 := (UInt32.xor_left_inj _).1 hmixed
  rfl

theorem step_surjective : Surjective step := by
  rintro ⟨a, b, c, d⟩
  obtain ⟨mixed, hmixed⟩ := rotateLeft_11_bijective.surjective d
  obtain ⟨s1, hs1⟩ := (Word.xor_shiftLeft_bijective (k := 9) (by decide)).surjective (b ^^^ c)
  dsimp only at hmixed hs1
  have hs1' : b ^^^ s1 ^^^ s1 <<< 9 = c := by
    rw [UInt32.xor_assoc, hs1, ← UInt32.xor_assoc, UInt32.xor_self, UInt32.zero_xor]
  refine ⟨⟨a ^^^ mixed, s1, b ^^^ s1 ^^^ (a ^^^ mixed), mixed ^^^ s1⟩, ?_⟩
  simp only [step, Word.xor_cancel, hmixed, hs1', mk.injEq, and_true, true_and]
  rw [UInt32.xor_comm, Word.xor_cancel]

/-- The state update of a draw is a bijection. -/
theorem step_bijective : Bijective step := ⟨step_injective, step_surjective⟩

/-- Any number of draws is injective in the state. -/
theorem advance_injective (n : Nat) : Injective fun g : Rng => g.advance n := by
  induction n with
  | zero => exact fun _ _ h => h
  | succ n ih => exact ih.comp step_injective

/-- The all-zero state is a fixed point. -/
theorem advance_zero (n : Nat) : zero.advance n = zero := by
  induction n with
  | zero => rfl
  | succ n ih => exact ih

/-! ## Seeding -/

def hashes (seed : UInt32) : Rng :=
  ⟨laneHash (seed + seedStride), laneHash (seed + seedStride + seedStride),
    laneHash (seed + seedStride + seedStride + seedStride),
    laneHash (seed + seedStride + seedStride + seedStride + seedStride)⟩

/-- The four hashes of a seed are not all zero. -/
theorem hashes_ne_zero (seed : UInt32) : hashes seed ≠ zero := by
  intro h
  have hsame : laneHash (seed + seedStride) = laneHash (seed + seedStride + seedStride) := by
    rw [show laneHash (seed + seedStride) = 0 from congrArg s0 h,
      show laneHash (seed + seedStride + seedStride) = 0 from congrArg s1 h]
  have hstride : seed + seedStride + 0 = seed + seedStride + seedStride := by
    rw [UInt32.add_zero]
    exact laneHash_bijective.injective hsame
  exact absurd ((UInt32.add_right_inj _).1 hstride) (by decide)

/-- `ofSeed` never takes its fallback branch. -/
theorem ofSeed_eq_hashes (seed : UInt32) : ofSeed seed = hashes seed := if_neg (hashes_ne_zero seed)

/-- Distinct seeds expand to distinct states. -/
theorem ofSeed_injective : Injective ofSeed := by
  intro seed seed' h
  rw [ofSeed_eq_hashes, ofSeed_eq_hashes] at h
  have hfirst : laneHash (seed + seedStride) = laneHash (seed' + seedStride) := congrArg s0 h
  exact (UInt32.add_left_inj _).1 (laneHash_bijective.injective hfirst)

end Rng

/-- The lane hash and the state update of a draw are bijections, and the all-zero state is a fixed
point. Hence no seed expands to the all-zero state and the fallback state is never used, no
generator reaches the all-zero state, and generators of different shot ids under one seed, or of one
id under different seeds, are in different states after every number of draws. -/
theorem generators_never_coincide :
    Bijective laneHash ∧ Bijective Rng.step ∧ Rng.zero.step = Rng.zero ∧
      (∀ seed, Rng.hashes seed ≠ Rng.zero ∧ Rng.ofSeed seed = Rng.hashes seed) ∧
      (∀ seed id n, (Rng.ofShot seed id).advance n ≠ Rng.zero) ∧
      (∀ seed n, Injective fun id => (Rng.ofShot seed id).advance n) ∧
      ∀ id n, Injective fun seed => (Rng.ofShot seed id).advance n := by
  refine ⟨laneHash_bijective, Rng.step_bijective, rfl,
    fun seed => ⟨Rng.hashes_ne_zero seed, Rng.ofSeed_eq_hashes seed⟩, ?_, ?_, ?_⟩
  · intro seed id n h
    rw [← Rng.advance_zero n] at h
    have hstart : Rng.ofShot seed id = Rng.zero := Rng.advance_injective n h
    rw [Rng.ofShot, Rng.ofSeed_eq_hashes] at hstart
    exact Rng.hashes_ne_zero _ hstart
  · intro seed n
    have hword : Injective fun id => seed ^^^ laneHash id := fun _ _ h =>
      laneHash_bijective.injective ((UInt32.xor_right_inj seed).1 h)
    exact (Rng.advance_injective n).comp (Rng.ofSeed_injective.comp hword)
  · intro id n
    have hword : Injective fun seed => seed ^^^ laneHash id :=
      fun _ _ h => (UInt32.xor_left_inj _).1 h
    exact (Rng.advance_injective n).comp (Rng.ofSeed_injective.comp hword)

end ShotSim
