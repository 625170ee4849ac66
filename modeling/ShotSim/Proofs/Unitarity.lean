import Mathlib.Algebra.BigOperators.Ring.Finset
import Mathlib.Tactic.IntervalCases
import Mathlib.Tactic.LinearCombination
import ShotSim.Proofs.QubitMaps
import ShotSim.Proofs.RealScalar

/-!
# Unitarity — gates that keep the norm

A gate neither makes nor destroys probability.  Each shape of operator has a reason of its own for
it: an exchange only moves amplitudes, a diagonal gate turns each of them by itself, a dense one is
a matrix whose adjoint undoes it.  A step rescales the amplitudes first and then treats them group
by group, so where nothing is rounded the rescale is all that the norm of a block sees of it.

* `squaredNorm`, `gram`, `Unitary` — squared norms, and matrices whose adjoint is their inverse;
* `Operator.Isometric` and `isometric_swap`, `isometric_diagonal`, `isometric_dense` — one for each
  shape;
* `Op.IsUnitary`, `Op.IsUnitary.isometric` — the gates, as they are made, and their operators;
* `squaredNorm_blockAfter` — a block cut into groups;
* `unitary_step_preserves_norm` — a step with such a gate.
-/

namespace ShotSim

open BasisIndex

variable {R : Type} [Scalar R]

/-! ## Conjugates -/

namespace Cplx

def conj (a : Cplx R) : Cplx R := ⟨a.re, -a.im⟩

section Parts

variable (a : Cplx R) (x : R)

@[simp] theorem conj_re : a.conj.re = a.re := rfl

@[simp] theorem conj_im : a.conj.im = -a.im := rfl

@[simp] theorem ofReal_re : (ofReal x).re = x := rfl

@[simp] theorem ofReal_im : (ofReal x).im = 0 := rfl

@[simp] theorem ofImag_re : (ofImag x).re = 0 := rfl

@[simp] theorem ofImag_im : (ofImag x).im = x := rfl

end Parts

def conjHom (h : Scalar.RingLaws R) : letI := commRing h; Cplx R →+* Cplx R :=
  letI := h.commRing
  letI := commRing h
  { toFun := conj
    map_one' := ext rfl neg_zero
    map_mul' := fun a b => by
      apply ext <;> simp only [mul_re, mul_im, conj_re, conj_im] <;> ring
    map_zero' := ext rfl neg_zero
    map_add' := fun _ _ => ext rfl (neg_add ..) }

def ofRealHom (h : Scalar.RingLaws R) : letI := h.commRing; letI := commRing h; R →+ Cplx R :=
  letI := h.commRing
  letI := commRing h
  { toFun := ofReal
    map_zero' := rfl
    map_add' := fun _ _ => ext rfl (add_zero (0 : R)).symm }

section Ring

variable (h : Scalar.RingLaws R)

include h

/-- `normSqr` is multiplicative. -/
theorem normSqr_mul (a b : Cplx R) : (a * b).normSqr = a.normSqr * b.normSqr := by
  let _ := h.commRing
  simp only [normSqr, mul_re, mul_im]
  ring

/-- Scaling by `r` multiplies `normSqr` by `r * r`. -/
theorem normSqr_scale (a : Cplx R) (r : R) : (a.scale r).normSqr = a.normSqr * (r * r) := by
  let _ := h.commRing
  simp only [normSqr, scale]
  ring

/-- `a.conj * a` is the squared norm. -/
theorem conj_mul_self (a : Cplx R) : a.conj * a = ofReal a.normSqr := by
  let _ := h.commRing
  apply ext
  · simp only [mul_re, conj_re, conj_im, ofReal_re, normSqr]
    ring
  · simp only [mul_im, conj_re, conj_im, ofReal_im]
    ring

end Ring

/-- The matrix with diagonal `a` and off-diagonal `b` is unitary. -/
structure Rotates (a b : Cplx R) : Prop where
  norm : a.normSqr + b.normSqr = 1
  orthogonal : a.re * b.re + a.im * b.im = 0

theorem Rotates.symm (h : Scalar.RingLaws R) {a b : Cplx R} (hab : a.Rotates b) : b.Rotates a where
  norm := (h.add_comm ..).trans hab.norm
  orthogonal := by rw [h.mul_comm b.re, h.mul_comm b.im, hab.orthogonal]

/-- A rotation of a pair preserves its squared norm. -/
theorem Rotates.normSqr_add (h : Scalar.RingLaws R) {a b : Cplx R} (hab : a.Rotates b)
    (x y : Cplx R) : (a * x + b * y).normSqr + (b * x + a * y).normSqr = x.normSqr + y.normSqr := by
  let _ := h.commRing
  have hnorm := hab.norm
  simp only [normSqr, add_re, add_im, mul_re, mul_im] at hnorm ⊢
  linear_combination (x.re * x.re + x.im * x.im + (y.re * y.re + y.im * y.im)) * hnorm +
    4 * (x.re * y.re + x.im * y.im) * hab.orthogonal

end Cplx

/-! ## Squared norms -/

def squaredNorm (amps : List (Cplx R)) : R := Scalar.sum (amps.map Cplx.normSqr)

theorem map_getD_range {α : Type} (xs : List α) (d : α) :
    (List.range xs.length).map (xs.getD · d) = xs := by
  apply List.ext_getElem
  · simp
  · intro i hi hi'
    simp [hi']

theorem squaredNorm_eq_range (amps : List (Cplx R)) :
    squaredNorm amps =
      Scalar.sum ((List.range amps.length).map fun i => (amps.getD i 0).normSqr) := by
  conv_lhs => rw [squaredNorm, ← map_getD_range amps 0, List.map_map]
  rfl

section Norm

variable (h : Scalar.RingLaws R)

include h

theorem sum_map_mul {α : Type} (f : α → R) (r : R) (xs : List α) :
    Scalar.sum (xs.map fun x => f x * r) = Scalar.sum (xs.map f) * r := by
  let _ := h.commRing
  rw [h.sum_eq_sum, h.sum_eq_sum]
  exact List.sum_map_mul_right ..

/-- Scaling by `r` multiplies the squared norm by `r * r`. -/
theorem squaredNorm_scale (amps : List (Cplx R)) (r : R) :
    squaredNorm (amps.map (·.scale r)) = squaredNorm amps * (r * r) := by
  rw [squaredNorm, squaredNorm, ← sum_map_mul h, List.map_map]
  congr 1
  apply List.map_congr_left
  intro a _
  exact Cplx.normSqr_scale h a r

theorem squaredNorm_eq_sum (amps : List (Cplx R)) :
    squaredNorm amps = ((List.range amps.length).map fun i => (amps.getD i 0).normSqr).sum := by
  rw [← h.sum_eq_sum, squaredNorm_eq_range]

/-- The squared norm is the inner product of the amplitudes with themselves. -/
theorem ofReal_squaredNorm (amps : List (Cplx R)) :
    Cplx.ofReal (squaredNorm amps) =
      ((List.range amps.length).map fun i => (amps.getD i 0).conj * amps.getD i 0).sum := by
  let _ := h.commRing
  let _ := Cplx.commRing h
  have hreal :=
    map_list_sum (Cplx.ofRealHom h) ((List.range amps.length).map fun i => (amps.getD i 0).normSqr)
  rw [List.map_map] at hreal
  rw [squaredNorm_eq_sum h]
  refine hreal.trans ?_
  congr 1
  apply List.map_congr_left
  intro i _
  exact (Cplx.conj_mul_self h _).symm

end Norm

/-! ## Matrices -/

/-- Entry `(j, k)` of the adjoint of a matrix times the matrix, entries row by row. -/
def gram (dim : Nat) (m : Nat → Cplx R) (j k : Nat) : Cplx R :=
  ((List.range dim).map fun i => (m (i * dim + j)).conj * m (i * dim + k)).sum

def Unitary (dim : Nat) (m : Nat → Cplx R) : Prop :=
  ∀ j < dim, ∀ k < dim, gram dim m j k = if j = k then 1 else 0

theorem index_lt_square {dim row col : Nat} (hrow : row < dim) (hcol : col < dim) :
    row * dim + col < dim * dim :=
  calc row * dim + col < row * dim + dim := Nat.add_lt_add_left hcol _
    _ = (row + 1) * dim := (Nat.succ_mul ..).symm
    _ ≤ dim * dim := Nat.mul_le_mul_right _ hrow

/-- `Unitary` depends on the first `dim * dim` entries only. -/
theorem Unitary.congr {dim : Nat} {m m' : Nat → Cplx R} (hm : Unitary dim m)
    (hsame : ∀ i < dim * dim, m' i = m i) : Unitary dim m' := by
  intro j hj k hk
  rw [← hm j hj k hk, gram, gram]
  congr 1
  apply List.map_congr_left
  intro i hi
  have hi : i < dim := List.mem_range.1 hi
  rw [hsame _ (index_lt_square hi hj), hsame _ (index_lt_square hi hk)]

/-- `Unitary` is unchanged by padding. -/
theorem Unitary.take {dim : Nat} {entries : List (Cplx R)}
    (hentries : Unitary dim (entries.getD · 0)) :
    Unitary dim ((entries.take (dim * dim)).getD · 0) := by
  apply hentries.congr
  intro i hi
  rw [List.getD_eq_getElem?_getD, List.getD_eq_getElem?_getD, List.getElem?_take_of_lt hi]

/-- Two orthonormal columns are unitary. -/
theorem unitary_two (h : Scalar.RingLaws R) {a b c d : Cplx R} (hfirst : a.normSqr + c.normSqr = 1)
    (hsecond : b.normSqr + d.normSqr = 1) (hcross : a.conj * b + c.conj * d = 0) :
    Unitary 2 ([a, b, c, d].getD · 0) := by
  let _ := h.commRing
  let _ := Cplx.commRing h
  have hself : ∀ v w : Cplx R, v.normSqr + w.normSqr = 1 → v.conj * v + (w.conj * w + 0) = 1 := by
    intro v w hunit
    rw [Cplx.conj_mul_self h, Cplx.conj_mul_self h, add_zero]
    exact Cplx.ext hunit (add_zero (0 : R))
  -- In the other order the product of the two columns is the conjugate of what it was.
  have hback : b.conj * a + d.conj * c = 0 := by
    have hre := congrArg Cplx.re hcross
    have him := congrArg Cplx.im hcross
    apply Cplx.ext
    · simp only [Cplx.add_re, Cplx.mul_re, Cplx.conj_re, Cplx.conj_im, Cplx.zero_re] at hre ⊢
      linear_combination hre
    · simp only [Cplx.add_im, Cplx.mul_im, Cplx.conj_re, Cplx.conj_im, Cplx.zero_im] at him ⊢
      linear_combination -him
  intro j hj k hk
  match j, hj, k, hk with
  | 0, _, 0, _ => exact hself a c hfirst
  | 0, _, 1, _ => exact (congrArg (a.conj * b + ·) (add_zero (c.conj * d))).trans hcross
  | 1, _, 0, _ => exact (congrArg (b.conj * a + ·) (add_zero (d.conj * c))).trans hback
  | 1, _, 1, _ => exact hself b d hsecond

open Finset in
/-- A matrix inverted by its adjoint preserves inner products. -/
theorem sum_conj_mul_of_gram {A : Type} [CommRing A] (conj : A →+* A) {n : Nat} {m : Nat → Nat → A}
    (hm : ∀ j < n, ∀ k < n, ∑ i ∈ range n, conj (m i j) * m i k = if j = k then 1 else 0)
    (a : Nat → A) :
    ∑ i ∈ range n, conj (∑ j ∈ range n, m i j * a j) * ∑ k ∈ range n, m i k * a k =
      ∑ j ∈ range n, conj (a j) * a j := by
  calc ∑ i ∈ range n, conj (∑ j ∈ range n, m i j * a j) * ∑ k ∈ range n, m i k * a k
      = ∑ i ∈ range n, ∑ j ∈ range n, ∑ k ∈ range n, conj (m i j) * m i k * (conj (a j) * a k) := by
        refine sum_congr rfl fun i _ => ?_
        rw [map_sum, sum_mul_sum]
        refine sum_congr rfl fun j _ => sum_congr rfl fun k _ => ?_
        rw [map_mul]
        ring
    _ = ∑ j ∈ range n, ∑ k ∈ range n,
      (∑ i ∈ range n, conj (m i j) * m i k) * (conj (a j) * a k) := by
        -- The sum over the rows goes inside, where it meets the matrix alone.
        rw [sum_comm]
        refine sum_congr rfl fun j _ => ?_
        rw [sum_comm]
        refine sum_congr rfl fun k _ => ?_
        rw [sum_mul]
    _ = ∑ j ∈ range n, ∑ k ∈ range n, if j = k then conj (a j) * a k else 0 := by
        refine sum_congr rfl fun j hj => sum_congr rfl fun k hk => ?_
        rw [hm j (mem_range.1 hj) k (mem_range.1 hk), ite_mul, one_mul, zero_mul]
    _ = ∑ j ∈ range n, conj (a j) * a j := by
        refine sum_congr rfl fun j hj => ?_
        rw [sum_ite_eq, if_pos hj]

/-! ## Operators -/

namespace Operator

/-- The matrix on groups of four that acts on the outer members by `a` and `b`, on the inner ones by
`c` and `d`. -/
def crossed (a b c d : Cplx R) : List (Cplx R) :=
  [a, 0, 0, b,
   0, c, d, 0,
   0, d, c, 0,
   b, 0, 0, a]

/-- The operator preserves the squared norm of groups of its dimension. -/
def Isometric (op : Operator R) : Prop :=
  ∀ amps : List (Cplx R), amps.length = op.dim → squaredNorm (op.apply amps) = squaredNorm amps

section Shapes

variable (h : Scalar.RingLaws R)

include h

theorem foldl_zipIdx (f : Nat → Cplx R) (amps : List (Cplx R)) (start : Nat) (acc : Cplx R) :
    (amps.zipIdx start).foldl (fun acc (a, col) => acc + f col * a) acc =
      acc + ((List.range amps.length).map fun col => f (start + col) * amps.getD col 0).sum := by
  let _ := Cplx.commRing h
  induction amps generalizing start acc with
  | nil => exact (add_zero acc).symm
  | cons a rest ih =>
      -- The first column goes into the accumulator, and the others are counted from the next place
      -- on.
      rw [List.zipIdx_cons, List.foldl_cons, ih, List.length_cons, List.range_succ_eq_map,
        List.map_cons, List.sum_cons, add_assoc, List.map_map]
      congr 3
      apply List.map_congr_left
      intro col _
      simp only [Function.comp_apply, Nat.succ_eq_add_one, Nat.add_right_comm start 1,
        ← Nat.add_assoc]
      rfl

/-- A row of an operator as a sum over columns. -/
theorem row_eq_sum (op : Operator R) (amps : List (Cplx R)) (i : Nat) :
    op.row amps i =
      ((List.range amps.length).map fun col =>
        op.coeffs.get (i * op.dim + col) * amps.getD col 0).sum := by
  let _ := Cplx.commRing h
  rw [row, foldl_zipIdx h (fun col => op.coeffs.get (i * op.dim + col)), zero_add]
  simp only [Nat.zero_add]

/-- A dense operator with a unitary matrix is isometric. -/
theorem isometric_dense {dim : Nat} {c : Coeffs R} (hc : Unitary dim c.get) :
    (⟨dim, .dense, c⟩ : Operator R).Isometric := by
  let _ := Cplx.commRing h
  intro amps hlen
  let op : Operator R := ⟨dim, .dense, c⟩
  have hlen : amps.length = dim := hlen
  have hrow : ∀ i < dim, (op.apply amps).getD i 0 =
      ∑ col ∈ Finset.range dim, c.get (i * dim + col) * amps.getD col 0 := by
    intro i hi
    have happly : (op.apply amps).getD i 0 = op.row amps i := by
      simp [apply, op, hlen, hi]
    rw [happly, row_eq_sum h, hlen]
    rfl
  -- Squared norms are compared as inner products, where conjugation is a map of rings.
  have hcomplex : Cplx.ofReal (squaredNorm (op.apply amps)) = Cplx.ofReal (squaredNorm amps) :=
    calc Cplx.ofReal (squaredNorm (op.apply amps))
        = ∑ i ∈ Finset.range dim, ((op.apply amps).getD i 0).conj * (op.apply amps).getD i 0 := by
          rw [ofReal_squaredNorm h, length_apply, hlen]
          rfl
      _ = ∑ i ∈ Finset.range dim,
            Cplx.conjHom h (∑ j ∈ Finset.range dim, c.get (i * dim + j) * amps.getD j 0) *
              ∑ k ∈ Finset.range dim, c.get (i * dim + k) * amps.getD k 0 := by
          refine Finset.sum_congr rfl fun i hi => ?_
          rw [hrow i (Finset.mem_range.1 hi)]
          rfl
      _ = ∑ j ∈ Finset.range dim, (amps.getD j 0).conj * amps.getD j 0 :=
          sum_conj_mul_of_gram (Cplx.conjHom h) hc fun j => amps.getD j 0
      _ = Cplx.ofReal (squaredNorm amps) := by
          rw [ofReal_squaredNorm h, hlen]
          rfl
  exact congrArg Cplx.re hcomplex

/-- A diagonal operator with entries of norm one is isometric. -/
theorem isometric_diagonal {dim : Nat} {c : Coeffs R}
    (hc : ∀ i < dim, (c.get (i * dim + i)).normSqr = 1) :
    (⟨dim, .diagonal, c⟩ : Operator R).Isometric := by
  intro amps hlen
  have hlen : amps.length = dim := hlen
  rw [squaredNorm_eq_sum h, squaredNorm_eq_sum h, length_apply, hlen]
  congr 1
  apply List.map_congr_left
  intro i hi
  have hi : i < dim := List.mem_range.1 hi
  have happly : ((⟨dim, .diagonal, c⟩ : Operator R).apply amps).getD i 0 =
      amps.getD i 0 * c.get (i * dim + i) := by
    simp [apply, hlen, hi]
  rw [happly, Cplx.normSqr_mul h, hc i hi, h.mul_one]

omit [Scalar R] h in
/-- `exchange` permutes the range. -/
theorem perm_map_exchange {n a b : Nat} (ha : a < n) (hb : b < n) :
    ((List.range n).map (exchange a b)).Perm (List.range n) := by
  have hinvolutive : Function.Involutive (exchange a b) := exchange_exchange a b
  have hlt : ∀ l < n, exchange a b l < n := by
    intro l hl
    unfold exchange
    split_ifs <;> assumption
  rw [List.perm_ext_iff_of_nodup (List.nodup_range.map hinvolutive.injective) List.nodup_range]
  intro l
  rw [List.mem_map, List.mem_range]
  constructor
  · rintro ⟨k, hk, rfl⟩
    exact hlt k (List.mem_range.1 hk)
  · intro hl
    exact ⟨exchange a b l, List.mem_range.2 (hlt l hl), hinvolutive l⟩

/-- A swap operator is isometric. -/
theorem isometric_swap {dim a b : Nat} (ha : a < dim) (hb : b < dim) (c : Coeffs R) :
    (⟨dim, .swap a b, c⟩ : Operator R).Isometric := by
  let _ := h.commRing
  intro amps hlen
  have hlen : amps.length = dim := hlen
  have hmoved : ((List.range dim).map fun i =>
      (((⟨dim, .swap a b, c⟩ : Operator R).apply amps).getD i 0).normSqr) =
        ((List.range dim).map (exchange a b)).map fun i => (amps.getD i 0).normSqr := by
    rw [List.map_map]
    apply List.map_congr_left
    intro i hi
    rw [List.getD_eq_getElem?_getD,
      getElem?_apply_swap rfl (hlen ▸ ha) (hlen ▸ hb) (hlen ▸ List.mem_range.1 hi)]
    rfl
  rw [squaredNorm_eq_sum h, squaredNorm_eq_sum h, length_apply, hlen, hmoved]
  exact ((perm_map_exchange ha hb).map _).sum_eq

/-- `isometric_dense` for a list of entries. -/
theorem isometric_ofList {dim : Nat} {entries : List (Cplx R)} (hdim : dim * dim ≤ coeffCapacity)
    (hentries : Unitary dim (entries.getD · 0)) :
    (⟨dim, .dense, Coeffs.ofList entries⟩ : Operator R).Isometric :=
  isometric_dense h (hentries.congr fun _ hi =>
    Coeffs.get_ofList entries (Nat.lt_of_lt_of_le hi hdim))

/-- `isometric_diagonal` for a list of all entries. -/
theorem isometric_diagonal_ofList {dim : Nat} {entries : List (Cplx R)}
    (hdim : dim * dim ≤ coeffCapacity)
    (hentries : ∀ i < dim, (entries.getD (i * dim + i) 0).normSqr = 1) :
    (⟨dim, .diagonal, Coeffs.ofList entries⟩ : Operator R).Isometric := by
  apply isometric_diagonal h
  intro i hi
  have hplace : i * dim + i < dim * dim := index_lt_square hi hi
  rw [Coeffs.get_ofList _ (Nat.lt_of_lt_of_le hplace hdim)]
  exact hentries i hi

/-- `isometric_diagonal` for a list of the diagonal. -/
theorem isometric_phases {phases : List (Cplx R)} (hphases : ∀ phase ∈ phases, phase.normSqr = 1)
    (hdim : phases.length * phases.length ≤ coeffCapacity) :
    (⟨phases.length, .diagonal, Coeffs.diagonal phases⟩ : Operator R).Isometric := by
  apply isometric_diagonal_ofList h hdim
  intro i hi
  have hplace : i * phases.length + i < phases.length * phases.length := index_lt_square hi hi
  -- Row and column of the place are both `i`.
  have hdiv : (i * phases.length + i) / phases.length = i := by
    rw [Nat.mul_comm, Nat.mul_add_div (by omega), Nat.div_eq_of_lt hi, Nat.add_zero]
  have hmod : (i * phases.length + i) % phases.length = i := by
    rw [Nat.mul_comm, Nat.mul_add_mod, Nat.mod_eq_of_lt hi]
  simp [hplace, hdiv, hmod, hi, hphases]

/-- An operator that rotates two disjoint pairs is isometric. -/
theorem isometric_crossed {a b c d : Cplx R} (houter : a.Rotates b) (hinner : c.Rotates d) :
    (⟨4, .dense, Coeffs.ofList (crossed a b c d)⟩ : Operator R).Isometric := by
  let _ := h.commRing
  let _ := Cplx.commRing h
  have hentry : ∀ i < 16, (Coeffs.ofList (crossed a b c d)).get i = (crossed a b c d).getD i 0 :=
    fun i hi => Coeffs.get_ofList _ (Nat.lt_of_lt_of_le hi (by decide))
  -- From here on only the entries of the table count, not how it is stored.
  generalize Coeffs.ofList (crossed a b c d) = m at hentry ⊢
  intro amps hlen
  match amps, hlen with
  | [x, y, y', x'], _ =>
    have happly : (⟨4, .dense, m⟩ : Operator R).apply [x, y, y', x'] =
        [a * x + b * x', c * y + d * y', d * y + c * y', b * x + a * x'] := by
      rw [apply_dense4]
      simp [List.range_succ, hentry, crossed]
    rw [happly, squaredNorm, squaredNorm, h.sum_eq_sum, h.sum_eq_sum]
    simp only [List.map_cons, List.map_nil, List.sum_cons, List.sum_nil]
    linear_combination houter.normSqr_add h x x' + hinner.normSqr_add h y y'

end Shapes

end Operator

/-! ## Gates -/

/-- The unitary gates as constructed. A gate given by its entries has to have a unitary matrix. -/
inductive Op.IsUnitary : Op R → Prop
  | x (q : Nat) : IsUnitary (.x q)
  | y (q : Nat) : IsUnitary (.y q)
  | z (q : Nat) : IsUnitary (.z q)
  | h (q : Nat) : IsUnitary (.h q)
  | s (q : Nat) : IsUnitary (.s q)
  | sAdj (q : Nat) : IsUnitary (.sAdj q)
  | t (q : Nat) : IsUnitary (.t q)
  | tAdj (q : Nat) : IsUnitary (.tAdj q)
  | sx (q : Nat) : IsUnitary (.sx q)
  | sxAdj (q : Nat) : IsUnitary (.sxAdj q)
  | rx (angle : R) (q : Nat) : IsUnitary (.rx angle q)
  | ry (angle : R) (q : Nat) : IsUnitary (.ry angle q)
  | rz (angle : R) (q : Nat) : IsUnitary (.rz angle q)
  | cx (control target : Nat) : IsUnitary (.cx control target)
  | cz (control target : Nat) : IsUnitary (.cz control target)
  | rxx (angle : R) (q1 q2 : Nat) : IsUnitary (.rxx angle q1 q2)
  | ryy (angle : R) (q1 q2 : Nat) : IsUnitary (.ryy angle q1 q2)
  | rzz (angle : R) (q1 q2 : Nat) : IsUnitary (.rzz angle q1 q2)
  | swap (q1 q2 : Nat) : IsUnitary (.swap q1 q2)
  | ccx (control1 control2 target : Nat) : IsUnitary (.ccx control1 control2 target)
  | matrix (q : Nat) {entries : List (Cplx R)} (hentries : Unitary 2 (entries.getD · 0)) :
      IsUnitary (.matrix q entries)
  | matrix2 (q1 q2 : Nat) {entries : List (Cplx R)} (hentries : Unitary 4 (entries.getD · 0)) :
      IsUnitary (.matrix2 q1 q2 entries)
  | matrix3 (q1 q2 q3 : Nat) {entries : List (Cplx R)} (hentries : Unitary 8 (entries.getD · 0)) :
      IsUnitary (.matrix3 q1 q2 q3 entries)

section Gates

variable (h : Scalar.RingLaws R)

include h

/-- A symmetric rotation of a pair is unitary. -/
theorem unitary_symmetric {a b : Cplx R} (hab : a.Rotates b) :
    Unitary 2 ([a, b, b, a].getD · 0) := by
  let _ := h.commRing
  refine unitary_two h hab.norm ((h.add_comm ..).trans hab.norm) ?_
  have horthogonal := hab.orthogonal
  apply Cplx.ext
  · simp only [Cplx.add_re, Cplx.mul_re, Cplx.conj_re, Cplx.conj_im, Cplx.zero_re]
    linear_combination 2 * horthogonal
  · simp only [Cplx.add_im, Cplx.mul_im, Cplx.conj_re, Cplx.conj_im, Cplx.zero_im]
    ring

/-- A plane rotation of a pair is unitary. -/
theorem unitary_plane {c s : R} (hcircle : s * s + c * c = 1) :
    Unitary 2 ([.ofReal c, .ofReal (-s), .ofReal s, .ofReal c].getD · 0) := by
  let _ := h.commRing
  apply unitary_two h
  · simp only [Cplx.normSqr, Cplx.ofReal_re, Cplx.ofReal_im]
    linear_combination hcircle
  · simp only [Cplx.normSqr, Cplx.ofReal_re, Cplx.ofReal_im]
    linear_combination hcircle
  · apply Cplx.ext <;> simp [mul_comm]

theorem unitary_y : Unitary 2 (([0, .ofImag (-1), .ofImag 1, 0] : List (Cplx R)).getD · 0) := by
  let _ := h.commRing
  apply unitary_two h
  · simp [Cplx.normSqr]
  · simp [Cplx.normSqr]
  · apply Cplx.ext <;> simp

theorem unitary_h {r : R} (hr : r * r + r * r = 1) :
    Unitary 2 ([.ofReal r, .ofReal r, .ofReal r, .ofReal (-r)].getD · 0) := by
  let _ := h.commRing
  apply unitary_two h
  · simp [Cplx.normSqr, hr]
  · simp [Cplx.normSqr, hr]
  · apply Cplx.ext <;> simp

/-- The pair `(c, i s)` with `s² + c² = 1` rotates. -/
theorem rotates_circle {c s : R} (hcircle : s * s + c * c = 1) :
    (Cplx.ofReal c).Rotates (.ofImag s) := by
  let _ := h.commRing
  constructor
  · simp only [Cplx.normSqr, Cplx.ofReal_re, Cplx.ofReal_im, Cplx.ofImag_re, Cplx.ofImag_im]
    linear_combination hcircle
  · simp

/-- The pair of the square root of `X` rotates. -/
theorem rotates_halves {r : R} (hr : r + r = 1) : (⟨r, r⟩ : Cplx R).Rotates ⟨r, -r⟩ := by
  let _ := h.commRing
  constructor
  · simp only [Cplx.normSqr]
    linear_combination (r + r + 1) * hr
  · simp

/-- A phase on one of two amplitudes is isometric. -/
theorem isometric_phase1 {phase : Cplx R} (hphase : phase.normSqr = 1) :
    (⟨2, .diagonal, Coeffs.diagonal [1, phase]⟩ : Operator R).Isometric := by
  let _ := h.commRing
  have hone : (1 : Cplx R).normSqr = 1 := by simp [Cplx.normSqr]
  have hphases : ∀ p ∈ [1, phase], p.normSqr = 1 := by simp [hone, hphase]
  exact Operator.isometric_phases h hphases (show 2 * 2 ≤ coeffCapacity by decide)

end Gates

/-- The operator of a unitary gate is isometric. -/
theorem Op.IsUnitary.isometric {op : Op R} (hop : op.IsUnitary) (h : Scalar.GateLaws R) :
    (Operator.ofGate op.code op).Isometric := by
  let _ := h.commRing
  have hring := h.toRingLaws
  have hroot : (GateConstants.invSqrtTwo : R) * GateConstants.invSqrtTwo +
      GateConstants.invSqrtTwo * GateConstants.invSqrtTwo = 1 := by
    rw [h.invSqrtTwo_mul_self, h.half_add_half]
  -- The same angle the other way round.
  have hback : ∀ x : R, -Scalar.sin x * -Scalar.sin x + Scalar.cos x * Scalar.cos x = 1 := by
    intro x
    rw [neg_mul_neg, h.sin_add_cos]
  have hphase : ∀ x : R, (⟨Scalar.cos x, Scalar.sin x⟩ : Cplx R).normSqr = 1 :=
    fun x => (h.add_comm ..).trans (h.sin_add_cos x)
  have hphase' : ∀ x : R, (⟨Scalar.cos x, -Scalar.sin x⟩ : Cplx R).normSqr = 1 :=
    fun x => (h.add_comm ..).trans (hback x)
  cases hop with
  | x | cx | swap | ccx => exact Operator.isometric_swap hring (by decide) (by decide) _
  | z | s | sAdj => exact isometric_phase1 hring (by simp [Cplx.normSqr])
  | t => exact isometric_phase1 hring hroot
  | tAdj => exact isometric_phase1 hring (by simp [Cplx.normSqr, hroot])
  | cz =>
    have hphases : ∀ p ∈ ([1, 1, 1, .ofReal (-1)] : List (Cplx R)), p.normSqr = 1 := by
      simp [Cplx.normSqr]
    exact Operator.isometric_phases hring hphases (show 4 * 4 ≤ coeffCapacity by decide)
  | rz angle q =>
    -- The matrix is made from the angle, with all its entries; only those on the diagonal are
    -- looked at.
    apply Operator.isometric_diagonal_ofList hring (by decide)
    intro i hi
    interval_cases i
    · exact hphase' _
    · exact hphase _
  | rzz angle q1 q2 =>
    apply Operator.isometric_diagonal_ofList hring (by decide)
    intro i hi
    interval_cases i
    · exact hphase' _
    · exact hphase _
    · exact hphase _
    · exact hphase' _
  | y => exact Operator.isometric_ofList hring (by decide) (unitary_y hring)
  | h => exact Operator.isometric_ofList hring (by decide) (unitary_h hring hroot)
  | sx =>
    have hrotates := rotates_halves hring h.half_add_half
    exact Operator.isometric_ofList hring (by decide) (unitary_symmetric hring hrotates)
  | sxAdj =>
    have hrotates := rotates_halves hring h.half_add_half
    exact Operator.isometric_ofList hring (by decide)
      (unitary_symmetric hring (hrotates.symm hring))
  | rx =>
    exact Operator.isometric_ofList hring (by decide)
      (unitary_symmetric hring (rotates_circle hring (hback _)))
  | ry => exact Operator.isometric_ofList hring (by decide) (unitary_plane hring (h.sin_add_cos _))
  | rxx =>
    exact Operator.isometric_crossed hring (rotates_circle hring (hback _))
      (rotates_circle hring (hback _))
  | ryy =>
    exact Operator.isometric_crossed hring (rotates_circle hring (h.sin_add_cos _))
      (rotates_circle hring (hback _))
  | matrix q hentries => exact Operator.isometric_ofList hring (by decide) hentries.take
  | matrix2 q1 q2 hentries => exact Operator.isometric_ofList hring (by decide) hentries.take
  | matrix3 q1 q2 q3 hentries => exact Operator.isometric_ofList hring (by decide) hentries

namespace Op.IsUnitary

variable {op : Op R} (hop : op.IsUnitary)

include hop

theorem arity_pos : 0 < op.code.arity := by
  cases hop <;> exact Nat.succ_pos _

theorem dim_ofGate : (Operator.ofGate op.code op).dim = 2 ^ op.code.arity := by
  cases hop <;> rfl

variable {s : Shot R} (hselected : s.selected = op.code)

include hselected

theorem arity_mode : s.mode.arity = op.code.arity := by
  rw [Shot.mode, hselected]
  cases hop <;> rfl

theorem operator_eq : s.operator op = .ofGate op.code op := by
  rw [Shot.operator, hselected]
  cases hop <;> rfl

theorem placed {n : Nat} (hdistinct : op.qubits.Nodup) (hrange : ∀ q ∈ op.qubits, q < n) :
    s.Placed op n := by
  have hoperands : s.mode.operands op = op.qubits := by
    rw [Mode.operands, arity_mode hop hselected, qubits]
  exact ⟨hoperands ▸ hdistinct, hoperands ▸ hrange⟩

end Op.IsUnitary

/-! ## Blocks -/

section Placed

variable {job : Job R} {shot : Shot R} {e w : Nat} (ht : job.layout.Tiled e w)
  (hplaced : shot.Placed (job.current shot) job.layout.qubitCount) {block : Array (Cplx R)}
  (hblock : block.size = job.layout.entriesPerShot)

include ht hplaced hblock

/-- The squared norm of a block is the sum over its groups. -/
theorem squaredNorm_eq_sum_groups (h : Scalar.AddsExactly R) :
    squaredNorm block.toList =
      Scalar.sum ((job.shares shot).map fun g => squaredNorm (g.map (block.getD · 0))) := by
  let weight := fun i => (block.getD i 0).normSqr
  calc squaredNorm block.toList
      = Scalar.sum ((List.range job.layout.entriesPerShot).map weight) := by
        rw [squaredNorm_eq_range, Array.length_toList, hblock]
        simp [weight, List.getD_eq_getElem?_getD, Array.getD_eq_getD_getElem?]
    _ = Scalar.sum ((job.shares shot).flatten.map weight) :=
        (h.sum_perm ((perm_flatten_shares ht hplaced).map weight)).symm
    _ = Scalar.sum ((job.shares shot).flatMap fun g => g.map weight) := by
        rw [List.map_flatten, List.flatMap_def]
    _ = Scalar.sum ((job.shares shot).map fun g => squaredNorm (g.map (block.getD · 0))) := by
        rw [← h.sum_flatMap]
        simp only [squaredNorm, List.map_map]
        rfl

/-- A gate maps every group by its operator. -/
theorem map_blockAfter_of_gate (hgate : 0 < shot.mode.arity) {g : List Nat}
    (hg : g ∈ job.shares shot) :
    g.map ((job.blockAfter shot block).getD · 0) =
      (shot.operator (job.current shot)).apply
        ((g.map (block.getD · 0)).map (·.scale shot.renormalize)) := by
  apply List.ext_getElem?
  intro p
  rw [List.getElem?_map]
  cases hp : g[p]? with
  | none =>
    have hend : g.length ≤ p := List.getElem?_eq_none_iff.1 hp
    rw [List.getElem?_eq_none (by simpa [Operator.length_apply] using hend), Option.map_none]
  | some i =>
    have hact := getElem?_act_eq_blockAfter ht hplaced hblock hg hp
    rw [Job.action, Action.ofShot_of_gate hgate, Action.act] at hact
    have hi : i < (job.blockAfter shot block).size := by
      rw [Job.size_blockAfter]
      exact (owns_of_mem_shares ht hplaced hblock i
        (List.mem_flatten.2 ⟨g, hg, List.mem_of_getElem? hp⟩)).2
    rw [Array.getElem?_eq_getElem hi] at hact
    refine Eq.trans ?_ hact.symm
    simp [hi]

/-- An isometric operator changes the squared norm by the rescale factor only. -/
theorem squaredNorm_blockAfter (h : Scalar.RingLaws R) (hgate : 0 < shot.mode.arity)
    (hdim : (shot.operator (job.current shot)).dim = 2 ^ shot.mode.arity)
    (hop : (shot.operator (job.current shot)).Isometric) :
    squaredNorm (job.blockAfter shot block).toList =
      squaredNorm block.toList * (shot.renormalize * shot.renormalize) := by
  have hsize : (job.blockAfter shot block).size = job.layout.entriesPerShot := by
    rw [Job.size_blockAfter, hblock]
  -- Before and after, the norm is added up over the same groups, so one group is enough.
  rw [squaredNorm_eq_sum_groups ht hplaced hblock h.toAddsExactly,
    squaredNorm_eq_sum_groups ht hplaced hsize h.toAddsExactly, ← sum_map_mul h]
  congr 1
  apply List.map_congr_left
  intro g hg
  have hlen : g.length = 2 ^ shot.mode.arity := by
    rcases List.mem_flatMap.1 hg with ⟨workgroup, _, hshare⟩
    rw [Job.share, workgroupGroups_eq_map ht hplaced.nodup] at hshare
    rcases List.mem_map.1 hshare with ⟨item, _, rfl⟩
    rw [length_group, Mode.length_operands]
  let scaled := (g.map (block.getD · 0)).map (·.scale shot.renormalize)
  have hscaled : scaled.length = (shot.operator (job.current shot)).dim := by
    rw [List.length_map, List.length_map, hlen, hdim]
  calc squaredNorm (g.map ((job.blockAfter shot block).getD · 0))
      = squaredNorm ((shot.operator (job.current shot)).apply scaled) := by
        rw [map_blockAfter_of_gate ht hplaced hblock hgate hg]
    _ = squaredNorm scaled := hop scaled hscaled
    _ = squaredNorm (g.map (block.getD · 0)) * (shot.renormalize * shot.renormalize) :=
        squaredNorm_scale h _ _

end Placed

/-! ## Steps -/

/-- A step with a unitary gate on distinct qubits multiplies the squared norm of the block by the
square of the rescale factor, for every block and layout. A factor that compensates the previous
norm therefore leaves a block of norm one. -/
theorem unitary_step_preserves_norm (h : Scalar.GateLaws R) (job : Job R) {n m : Nat}
    (hlayout : job.layout = .ofCircuit n m) (hmin : minQubitsPerWorkgroup ≤ m)
    (hmax : m ≤ maxQubitsPerWorkgroup) {op : Op R} (hop : op.IsUnitary)
    (hdistinct : op.qubits.Nodup) (hrange : ∀ q ∈ op.qubits, q < job.layout.qubitCount)
    (lane : Lane R) (hblock : lane.block.size = job.layout.entriesPerShot)
    (hcurrent : job.current lane.shot = op) (hselected : lane.shot.selected = op.code) :
    let factor := lane.shot.renormalize
    let before := squaredNorm lane.block.toList
    let after := squaredNorm (lane.execute job).block.toList
    (lane.execute job).block.size = job.layout.entriesPerShot ∧ after = before * (factor * factor) ∧
      (factor * factor * before = 1 → after = 1) := by
  intro factor before after
  obtain ⟨e, w, htiled⟩ := Layout.exists_tiled_ofCircuit n hmin hmax
  have ht : job.layout.Tiled e w := hlayout ▸ htiled
  subst hcurrent
  have hplaced := hop.placed hselected hdistinct hrange
  have hexecute := Lane.execute_block ht hplaced hblock
  have hoperator := hop.operator_eq hselected
  have harity := hop.arity_mode hselected
  -- What is left to show of the operator is that it keeps the norm of a group, which is a matter of
  -- the gate.
  have hnorm : after = before * (factor * factor) := by
    refine (congrArg (fun block => squaredNorm block.toList) hexecute).trans ?_
    apply squaredNorm_blockAfter ht hplaced hblock h.toRingLaws
    · rw [harity]
      exact hop.arity_pos
    · rw [hoperator, harity, hop.dim_ofGate]
    · rw [hoperator]
      exact hop.isometric h
  refine ⟨by rw [hexecute, Job.size_blockAfter, hblock], hnorm, ?_⟩
  intro hunit
  rw [hnorm, h.mul_comm, hunit]

noncomputable def rotatingJob : Job ℝ where
  ops := #[.rxx 1 9 0]
  batch := ⟨0, 0, 1, 10, 0⟩
  idle := 0
  layout := .ofCircuit 10 8
  resultCount := 0

noncomputable def rotatingLane : Lane ℝ :=
  { Lane.blank (.ofCircuit 10 8) 0 0 with
    shot := { (0 : Shot ℝ) with selected := .rxx, renormalize := 1 / 32 }
    block := Array.replicate 1024 1 }

/-- A rotation on a block of norm 1024 with factor `1/32` gives norm one. -/
theorem unitary_step_restores_norm :
    squaredNorm rotatingLane.block.toList = 1024 ∧
      squaredNorm (rotatingLane.execute rotatingJob).block.toList = 1 := by
  have hbefore : squaredNorm rotatingLane.block.toList = 1024 := by
    rw [squaredNorm, addsExactly_real.sum_eq_sum, rotatingLane, Array.toList_replicate,
      List.map_replicate, List.sum_replicate]
    norm_num [Cplx.normSqr]
  have hkept := unitary_step_preserves_norm gateLaws_real rotatingJob rfl (by decide) (by decide)
    (.rxx 1 9 0) (by decide) (by decide) rotatingLane (Array.size_replicate ..) rfl rfl
  refine ⟨hbefore, hkept.2.2 ?_⟩
  rw [hbefore]
  norm_num [rotatingLane]

end ShotSim
