import Mathlib.Tactic.Ring
import ShotSim.Proofs.PermutationGates
import ShotSim.Proofs.Repeatability
import ShotSim.Proofs.ScalarLaws

/-!
# Qubit maps — steps on one qubit in exact arithmetic

Gates on one qubit come in shapes of their own, and each shape reads another part of the operation.
Where nothing is rounded they are all the same thing: a matrix that acts on one qubit of the
amplitudes.

* `Cplx.commRing` — the ring of complex numbers over exact scalars;
* `onQubit`, `onQubit_onQubit` — a matrix on one qubit, and one matrix after another;
* `Shows` — the amplitudes that a block holds;
* `Op.IsGate1`, `Op.gate`, `apply_ofGate` — the gates on one qubit and their matrices;
* `shows_execute_of_pair`, `Lane.shows_carryOut` — what a step on one qubit does to a block;
* `shows_execute_of_injected1`, `shows_execute_of_injected2` — steps that a shot makes up by itself.
-/

namespace ShotSim

open BasisIndex

variable {R : Type} [Scalar R]

/-! ## Complex numbers -/

namespace Cplx

omit [Scalar R] in
theorem ext {a b : Cplx R} (hre : a.re = b.re) (him : a.im = b.im) : a = b := by
  cases a
  cases b
  exact congrArg₂ mk hre him

section Parts

variable (a b : Cplx R)

@[simp] theorem zero_re : (0 : Cplx R).re = 0 := rfl

@[simp] theorem zero_im : (0 : Cplx R).im = 0 := rfl

@[simp] theorem one_re : (1 : Cplx R).re = 1 := rfl

@[simp] theorem one_im : (1 : Cplx R).im = 0 := rfl

@[simp] theorem add_re : (a + b).re = a.re + b.re := rfl

@[simp] theorem add_im : (a + b).im = a.im + b.im := rfl

@[simp] theorem mul_re : (a * b).re = a.re * b.re - a.im * b.im := rfl

@[simp] theorem mul_im : (a * b).im = a.re * b.im + a.im * b.re := rfl

end Parts

@[reducible] def commRing (h : Scalar.RingLaws R) : CommRing (Cplx R) :=
  let _ := h.commRing
  { add_assoc := fun a b c => ext (add_assoc ..) (add_assoc ..)
    zero_add := fun a => ext (zero_add _) (zero_add _)
    add_zero := fun a => ext (add_zero _) (add_zero _)
    add_comm := fun a b => ext (add_comm ..) (add_comm ..)
    neg_add_cancel := fun a => ext (neg_add_cancel _) (neg_add_cancel _)
    nsmul := nsmulRec
    zsmul := zsmulRec
    one_mul := fun a => by apply ext <;> simp only [mul_re, mul_im, one_re, one_im] <;> ring
    mul_one := fun a => by apply ext <;> simp only [mul_re, mul_im, one_re, one_im] <;> ring
    mul_comm := fun a b => by apply ext <;> simp only [mul_re, mul_im] <;> ring
    mul_assoc := fun a b c => by apply ext <;> simp only [mul_re, mul_im] <;> ring
    left_distrib :=
      fun a b c => by apply ext <;> simp only [add_re, add_im, mul_re, mul_im] <;> ring
    right_distrib :=
      fun a b c => by apply ext <;> simp only [add_re, add_im, mul_re, mul_im] <;> ring
    zero_mul := fun a => by apply ext <;> simp only [mul_re, mul_im, zero_re, zero_im] <;> ring
    mul_zero := fun a => by apply ext <;> simp only [mul_re, mul_im, zero_re, zero_im] <;> ring }

end Cplx

/-! ## Matrices on a qubit -/

namespace BasisIndex

/-- The second of two writes to a bit overrides the first. -/
theorem setBit_setBit (index q : Nat) (b b' : Bool) :
    setBit (setBit index q b) q b' = setBit index q b' := by
  apply Nat.eq_of_testBit_eq
  intro j
  simp only [testBit_setBit]
  split <;> rfl

theorem setBit_testBit (index q : Nat) : setBit index q (index.testBit q) = index := if_pos rfl

theorem setBit_lt {index q n : Nat} (hindex : index < 2 ^ n) (hq : q < n) (b : Bool) :
    setBit index q b < 2 ^ n := by
  apply Nat.lt_pow_two_of_testBit
  intro j hj
  rw [testBit_setBit, if_neg (by omega)]
  exact Nat.testBit_lt_two_pow (Nat.lt_of_lt_of_le hindex (Nat.pow_le_pow_right (by omega) hj))

end BasisIndex

/-- A matrix, row by row, applied to qubit `q`. -/
def onQubit (g : List (Cplx R)) (q : Nat) (amps : Nat → Cplx R) (i : Nat) : Cplx R :=
  let row := 2 * (i.testBit q).toNat
  g.getD row 0 * amps (setBit i q false) + g.getD (row + 1) 0 * amps (setBit i q true)

/-- `onQubit` depends on the first four entries only. -/
theorem onQubit_congr {g g' : List (Cplx R)} (h : ∀ i < 4, g.getD i 0 = g'.getD i 0) (q : Nat)
    (amps : Nat → Cplx R) : onQubit g q amps = onQubit g' q amps := by
  funext i
  have hrow : (i.testBit q).toNat ≤ 1 := Bool.toNat_le _
  dsimp only [onQubit]
  rw [h _ (by omega), h _ (by omega)]

/-- Matrices on one qubit compose to their product. -/
theorem onQubit_onQubit (h : Scalar.RingLaws R) (g k : List (Cplx R)) (q : Nat)
    (amps : Nat → Cplx R) : onQubit g q (onQubit k q amps) = onQubit (compose1 g k) q amps := by
  let _ := Cplx.commRing h
  funext i
  simp only [onQubit, testBit_setBit, if_true, setBit_setBit, Bool.toNat_false, Bool.toNat_true,
    Nat.mul_zero, Nat.mul_one, Nat.zero_add]
  -- The row of the product is that of the second matrix times the first.
  cases i.testBit q with
  | false =>
      change _ = (g.getD 0 0 * k.getD 0 0 + g.getD 1 0 * k.getD 2 0) * _ +
        (g.getD 0 0 * k.getD 1 0 + g.getD 1 0 * k.getD 3 0) * _
      simp only [Bool.toNat_false, Nat.mul_zero, Nat.zero_add]
      ring
  | true =>
      change _ = (g.getD 2 0 * k.getD 0 0 + g.getD 3 0 * k.getD 2 0) * _ +
        (g.getD 2 0 * k.getD 1 0 + g.getD 3 0 * k.getD 3 0) * _
      simp only [Bool.toNat_true, Nat.mul_one]
      ring

/-- The identity matrix acts as the identity. -/
theorem onQubit_identity (h : Scalar.RingLaws R) (q : Nat) (amps : Nat → Cplx R) :
    onQubit [1, 0, 0, 1] q amps = amps := by
  let _ := Cplx.commRing h
  funext i
  have hself := congrArg amps (setBit_testBit i q)
  unfold onQubit
  cases hbit : i.testBit q with
  | false =>
      rw [hbit] at hself
      change 1 * amps (setBit i q false) + 0 * _ = amps i
      rw [hself]
      ring
  | true =>
      rw [hbit] at hself
      change 0 * _ + 1 * amps (setBit i q true) = amps i
      rw [hself]
      ring

/-- The block has the amplitudes `amps`. -/
structure Shows (block : Array (Cplx R)) (count : Nat) (amps : Nat → Cplx R) : Prop where
  size : block.size = count
  get : ∀ i < count, block[i]? = some (amps i)

namespace Shows

variable {block block' : Array (Cplx R)} {count : Nat} {amps : Nat → Cplx R}

theorem of_size (h : block.size = count) : Shows block count fun i => block.getD i 0 where
  size := h
  get i hi := by simp [h, hi]

theorem getD_eq (h : Shows block count amps) {i : Nat} (hi : i < count) :
    block.getD i 0 = amps i := by
  rw [Array.getD_eq_getD_getElem?, h.get i hi, Option.getD_some]

omit [Scalar R] in
/-- A block is determined by its amplitudes. -/
theorem eq (h : Shows block count amps) (h' : Shows block' count amps) : block = block' := by
  apply Array.ext_getElem?
  intro i
  by_cases hi : i < count
  · rw [h.get i hi, h'.get i hi]
  · rw [Array.getElem?_eq_none (by rw [h.size]; omega),
      Array.getElem?_eq_none (by rw [h'.size]; omega)]

end Shows

/-! ## Steps on one qubit -/

section Steps

variable {job : Job R} {lane : Lane R} {e w : Nat} (ht : job.layout.Tiled e w)
  {amps : Nat → Cplx R} (hshows : Shows lane.block job.layout.entriesPerShot amps)

include ht hshows

/-- A rescale scales every amplitude. -/
theorem shows_execute_of_scaleOnly (hmode : lane.shot.mode = .scaleOnly) :
    Shows (lane.execute job).block job.layout.entriesPerShot
      fun i => (amps i).scale lane.shot.renormalize := by
  have hblock : lane.block.size = job.layout.workgroups * job.layout.entriesPerWorkgroup := by
    rw [hshows.size, ht.workgroups_mul]
  rw [(Lane.execute_of_scaleOnly hmode hblock).1]
  refine ⟨by rw [Array.size_map, hshows.size], fun i hi => ?_⟩
  rw [Array.getElem?_map, hshows.get i hi, Option.map_some]

/-- A single-qubit gate acting on pairs as a matrix acts as `onQubit` of the matrix. -/
theorem shows_execute_of_pair (hmode : lane.shot.mode = .gate1)
    (hq : (job.current lane.shot).q1 < job.layout.qubitCount) {g : List (Cplx R)}
    (hpair : ∀ a b, (lane.shot.operator (job.current lane.shot)).apply [a, b] =
      [g.getD 0 0 * a + g.getD 1 0 * b, g.getD 2 0 * a + g.getD 3 0 * b]) :
    Shows (lane.execute job).block job.layout.entriesPerShot
      (onQubit g (job.current lane.shot).q1 fun i => (amps i).scale lane.shot.renormalize) := by
  have hoperands : lane.shot.mode.operands (job.current lane.shot) =
      [(job.current lane.shot).q1] := by
    rw [hmode]
    rfl
  have hplaced : lane.shot.Placed (job.current lane.shot) job.layout.qubitCount :=
    ⟨by rw [hoperands]; exact List.nodup_singleton _, by rw [hoperands]; simpa using hq⟩
  rw [Lane.execute_block ht hplaced hshows.size]
  refine ⟨by rw [Job.size_blockAfter, hshows.size], fun i hi => ?_⟩
  rw [getElem?_blockAfter_of_gate ht hplaced hshows.size (by rw [hmode]; decide) hi,
    hoperands, hmode]
  generalize (job.current lane.shot).q1 = q at hq
  have hmember : ∀ b, lane.block.getD (setBit i q b) 0 = amps (setBit i q b) := fun b =>
    hshows.getD_eq (setBit_lt hi hq b)
  have hgroup : ((List.range (2 ^ Mode.gate1.arity)).map fun l =>
      (lane.block.getD (place [q] i l) 0).scale lane.shot.renormalize) =
        [(amps (setBit i q false)).scale lane.shot.renormalize,
          (amps (setBit i q true)).scale lane.shot.renormalize] := by
    rw [← hmember, ← hmember]
    rfl
  rw [hgroup, hpair]
  unfold onQubit localIndex localIndex
  cases i.testBit q <;> rfl

end Steps

/-! ## Gates on one qubit -/

/-- The one-qubit gates as constructed. -/
inductive Op.IsGate1 : Op R → Prop
  | identity (q : Nat) : IsGate1 (.identity q)
  | move (q : Nat) : IsGate1 (.move q)
  | x (q : Nat) : IsGate1 (.x q)
  | y (q : Nat) : IsGate1 (.y q)
  | z (q : Nat) : IsGate1 (.z q)
  | h (q : Nat) : IsGate1 (.h q)
  | s (q : Nat) : IsGate1 (.s q)
  | sAdj (q : Nat) : IsGate1 (.sAdj q)
  | t (q : Nat) : IsGate1 (.t q)
  | tAdj (q : Nat) : IsGate1 (.tAdj q)
  | sx (q : Nat) : IsGate1 (.sx q)
  | sxAdj (q : Nat) : IsGate1 (.sxAdj q)
  | rx (angle : R) (q : Nat) : IsGate1 (.rx angle q)
  | ry (angle : R) (q : Nat) : IsGate1 (.ry angle q)
  | rz (angle : R) (q : Nat) : IsGate1 (.rz angle q)
  | matrix (q : Nat) (entries : List (Cplx R)) : IsGate1 (.matrix q entries)

namespace Op

/-- The code selected for a gate: a move acts as the identity. -/
def selection {R : Type} (op : Op R) : Opcode := if op.code = .move then .id else op.code

/-- The matrix of a gate on one qubit. -/
def gate (op : Op R) : List (Cplx R) :=
  match op.code with
  | .id | .move => [1, 0, 0, 1]
  | .rx | .ry | .rz => rotation1 op.code op.angle
  | _ => op.coeffs.dense 2

end Op

theorem Op.gate_of_selection_id {op : Op R} (h : op.selection = .id) : op.gate = [1, 0, 0, 1] := by
  unfold selection at h
  split at h
  · rename_i hmove
    rw [gate, hmove]
  · rw [gate, h]

/-- The matrix of an operation selected as is. -/
theorem Shot.gateMatrix_of_selection {s : Shot R} {op : Op R} (h : s.selected = op.selection) :
    s.gateMatrix op = op.gate := by
  rw [gateMatrix, h]
  unfold Op.selection Op.gate
  cases op.code <;> rfl

theorem Coeffs.get_ofList (entries : List (Cplx R)) {i : Nat} (hi : i < coeffCapacity) :
    (Coeffs.ofList entries).get i = entries.getD i 0 := by
  simp [ofList, overlay, get, zero, hi]

namespace Operator

variable (c : Coeffs R) (a b : Cplx R)

/-- A dense operator on a pair. -/
theorem apply_dense2 :
    (⟨2, .dense, c⟩ : Operator R).apply [a, b] =
      [0 + c.get 0 * a + c.get 1 * b, 0 + c.get 2 * a + c.get 3 * b] := rfl

/-- A diagonal operator on a pair. -/
theorem apply_diagonal2 :
    (⟨2, .diagonal, c⟩ : Operator R).apply [a, b] = [a * c.get 0, b * c.get 3] := rfl

end Operator

theorem Coeffs.getD_dense2 (c : Coeffs R) {i : Nat} (hi : i < 4) :
    (c.dense 2).getD i 0 = c.get i := by
  match i, hi with
  | 0, _ | 1, _ | 2, _ | 3, _ => rfl

/-- A diagonal matrix is zero off its diagonal. -/
theorem Coeffs.get_diagonal2 (zero one : Cplx R) :
    (Coeffs.diagonal [zero, one]).get 1 = 0 ∧ (Coeffs.diagonal [zero, one]).get 2 = 0 := by
  constructor <;> (rw [diagonal, get_ofList _ (by decide)]; simp)

/-- Every operator shape acts on a pair as the matrix of its gate. -/
theorem apply_ofGate (h : Scalar.RingLaws R) {op : Op R} (hop : op.IsGate1)
    (hid : op.selection ≠ .id) (a b : Cplx R) :
    (Operator.ofGate op.selection op).apply [a, b] =
      [op.gate.getD 0 0 * a + op.gate.getD 1 0 * b,
        op.gate.getD 2 0 * a + op.gate.getD 3 0 * b] := by
  let _ := Cplx.commRing h
  have hdense : ∀ c : Coeffs R, (⟨2, .dense, c⟩ : Operator R).apply [a, b] =
      [c.get 0 * a + c.get 1 * b, c.get 2 * a + c.get 3 * b] := by
    intro c
    rw [Operator.apply_dense2, zero_add, zero_add]
  have hdiagonal : ∀ c : Coeffs R, c.get 1 = 0 → c.get 2 = 0 →
      (⟨2, .diagonal, c⟩ : Operator R).apply [a, b] =
        [c.get 0 * a + c.get 1 * b, c.get 2 * a + c.get 3 * b] := by
    intro c hone htwo
    rw [Operator.apply_diagonal2, hone, htwo, zero_mul, zero_mul, zero_add, add_zero, mul_comm a,
      mul_comm b]
  have hentries : ∀ entries : List (Cplx R), ∀ i < coeffCapacity,
      (Coeffs.ofList entries).get i = entries.getD i 0 :=
        fun entries i hi => Coeffs.get_ofList entries hi
  cases hop with
  | identity | move => exact absurd rfl hid
  | y | h | sx | sxAdj | matrix => exact hdense _
  | z | s | sAdj | t | tAdj =>
      exact hdiagonal _ (Coeffs.get_diagonal2 _ _).1 (Coeffs.get_diagonal2 _ _).2
  | x q =>
      -- A flip exchanges the pair without coefficients; its matrix is multiplied out.
      have hflip : ∀ i < 4, (Op.x q : Op R).gate.getD i 0 =
          ([0, 1, 1, 0] : List (Cplx R)).getD i 0 :=
        fun i hi =>
          (Coeffs.getD_dense2 _ hi).trans (hentries _ i (Nat.lt_of_lt_of_le hi (by decide)))
      rw [hflip 0 (by decide), hflip 1 (by decide), hflip 2 (by decide), hflip 3 (by decide)]
      change [b, a] = [0 * a + 1 * b, 1 * a + 0 * b]
      rw [zero_mul, zero_mul, one_mul, one_mul, zero_add, add_zero]
  | rx angle | ry angle =>
      refine (hdense _).trans ?_
      rw [hentries _ 0 (by decide), hentries _ 1 (by decide), hentries _ 2 (by decide),
        hentries _ 3 (by decide)]
      rfl
  | rz angle =>
      refine (hdiagonal _ (hentries _ 1 (by decide)) (hentries _ 2 (by decide))).trans ?_
      rw [hentries _ 0 (by decide), hentries _ 1 (by decide), hentries _ 2 (by decide),
        hentries _ 3 (by decide)]
      rfl

/-- An injected single-qubit step acts as its matrix. -/
theorem shows_execute_of_injected1 (h : Scalar.RingLaws R) {job : Job R} {lane : Lane R} {e w : Nat}
    (ht : job.layout.Tiled e w) {amps : Nat → Cplx R}
    (hshows : Shows lane.block job.layout.entriesPerShot amps)
    (hq : (job.current lane.shot).q1 < job.layout.qubitCount)
    (hselected : lane.shot.selected = .injected) (harity : lane.shot.injectedArity = 1)
    {g : List (Cplx R)} (hentry : ∀ i < 4, lane.shot.scratch.get i = g.getD i 0) :
    Shows (lane.execute job).block job.layout.entriesPerShot
      (onQubit g (job.current lane.shot).q1 fun i => (amps i).scale lane.shot.renormalize) := by
  let _ := Cplx.commRing h
  have hmode : lane.shot.mode = .gate1 := by
    rw [Shot.mode, hselected, harity]
    rfl
  have hoperator : lane.shot.operator (job.current lane.shot) = ⟨2, .dense, lane.shot.scratch⟩ := by
    rw [Shot.operator, hselected, harity]
  refine shows_execute_of_pair ht hshows hmode hq fun a b => ?_
  rw [hoperator, Operator.apply_dense2, zero_add, zero_add, hentry 0 (by decide),
    hentry 1 (by decide), hentry 2 (by decide), hentry 3 (by decide)]

namespace Op.IsGate1

variable {op : Op R} (hop : op.IsGate1) {s : Shot R} (hselected : s.selected = op.selection)

include hop hselected

theorem mode_eq (hid : op.selection ≠ .id) : s.mode = .gate1 := by
  rw [Shot.mode, hselected]
  cases hop <;> first | rfl | exact absurd rfl hid

theorem operator_eq : s.operator op = .ofGate op.selection op := by
  rw [Shot.operator, hselected]
  cases hop <;> rfl

end Op.IsGate1

/-! ## Gates carried out by themselves -/

namespace Lane

/-- `prepare` keeps the amplitudes, and the rescale factor is that of the norm before. -/
theorem shows_prepare {lane : Lane R} {job : Job R} {op : Op R}
    (hthis : job.ops[lane.shot.nextOp]? = some op) (hreset : op.isResetAll = false) {count : Nat}
    {amps : Nat → Cplx R} (hshows : Shows lane.block count amps) (shotIdx : Nat) :
    Shows (lane.prepare job shotIdx).block count amps ∧
      job.current (lane.prepare job shotIdx).shot = op ∧
      (lane.prepare job shotIdx).shot.renormalize = (lane.ready job).renormalize := by
  refine ⟨?_, current_prepare hthis shotIdx, ?_⟩
  · rw [(lane.prepare_frame job shotIdx).1]
    exact hshows
  · rw [renormalize_prepare hthis hreset shotIdx, renormalize_ready]

/-- A single-qubit gate executed as is acts as its matrix. -/
theorem shows_execute_of_gate (h : Scalar.RingLaws R) {job : Job R} {e w : Nat}
    (ht : job.layout.Tiled e w) {lane : Lane R} {amps : Nat → Cplx R}
    (hshows : Shows lane.block job.layout.entriesPerShot amps)
    {op : Op R} (hop : op.IsGate1) (hq : op.q1 < job.layout.qubitCount)
    (hcurrent : job.current lane.shot = op) (hselected : lane.shot.selected = op.selection) :
    Shows (lane.execute job).block job.layout.entriesPerShot
      (onQubit op.gate op.q1 fun i => (amps i).scale lane.shot.renormalize) := by
  by_cases hid : op.selection = .id
  · rw [Op.gate_of_selection_id hid, onQubit_identity h]
    exact shows_execute_of_scaleOnly ht hshows (Shot.mode_of_id (hselected.trans hid))
  · subst hcurrent
    refine shows_execute_of_pair ht hshows (hop.mode_eq hselected hid) hq ?_
    rw [hop.operator_eq hselected]
    exact apply_ofGate h hop hid

/-- Executes a gate as is, on amplitudes rescaled by `factor`. -/
def carryOut (lane : Lane R) (job : Job R) (op : Op R) (factor : R) : Lane R :=
  execute
    { lane with
      shot := { lane.shot with selected := op.selection, opIdx := 0, renormalize := factor } }
    { job with ops := #[op] }

/-- `carryOut` of a single-qubit gate acts as its matrix. -/
theorem shows_carryOut (h : Scalar.RingLaws R) {job : Job R} {e w : Nat} (ht : job.layout.Tiled e w)
    {op : Op R} (hop : op.IsGate1) (hq : op.q1 < job.layout.qubitCount) {lane : Lane R}
    {amps : Nat → Cplx R} (hshows : Shows lane.block job.layout.entriesPerShot amps) (factor : R) :
    Shows (lane.carryOut job op factor).block job.layout.entriesPerShot
      (onQubit op.gate op.q1 fun i => (amps i).scale factor) := by
  let alone : Job R := { job with ops := #[op] }
  let decided : Lane R := { lane with shot := { lane.shot with
    selected := op.selection, opIdx := 0, renormalize := factor } }
  have htiled : alone.layout.Tiled e w := ht
  have hdecided : Shows decided.block alone.layout.entriesPerShot amps := hshows
  exact shows_execute_of_gate h htiled hdecided hop hq rfl rfl

end Lane

/-! ## Two qubits -/

/-- A dense operator on four amplitudes. -/
theorem Operator.apply_dense4 (c : Coeffs R) (a0 a1 a2 a3 : Cplx R) :
    (⟨4, .dense, c⟩ : Operator R).apply [a0, a1, a2, a3] = (List.range 4).map fun row =>
      0 + c.get (row * 4) * a0 + c.get (row * 4 + 1) * a1 + c.get (row * 4 + 2) * a2 +
        c.get (row * 4 + 3) * a3 := rfl

/-- Entries of a tensor product. -/
theorem getD_tensor (first second : List (Cplx R)) {row col : Nat} (hrow : row < 4)
    (hcol : col < 4) :
    (tensor first second).getD (row * 4 + col) 0 =
      first.getD (row / 2 * 2 + col / 2) 0 * second.getD (row % 2 * 2 + col % 2) 0 := by
  have hin : row * 4 + col < 16 := by omega
  have hdiv : (row * 4 + col) / 4 = row := by omega
  have hmod : (row * 4 + col) % 4 = col := by omega
  rw [tensor, List.getD_eq_getElem?_getD, List.getElem?_map, List.getElem?_range hin,
    Option.map_some, Option.getD_some, hdiv, hmod]

/-- A row of a tensor product in terms of rows of the factors. -/
theorem Coeffs.row_of_tensor (h : Scalar.RingLaws R) {c : Coeffs R} {first second : List (Cplx R)}
    (hentry : ∀ i < 16, c.get i = (tensor first second).getD i 0) {row : Nat} (hrow : row < 4)
    (a0 a1 a2 a3 : Cplx R) :
    0 + c.get (row * 4) * a0 + c.get (row * 4 + 1) * a1 + c.get (row * 4 + 2) * a2 +
      c.get (row * 4 + 3) * a3 = first.getD (row / 2 * 2) 0 *
          (second.getD (row % 2 * 2) 0 * a0 + second.getD (row % 2 * 2 + 1) 0 * a1) +
        first.getD (row / 2 * 2 + 1) 0 *
          (second.getD (row % 2 * 2) 0 * a2 + second.getD (row % 2 * 2 + 1) 0 * a3) := by
  let _ := Cplx.commRing h
  have hget : ∀ col < 4, c.get (row * 4 + col) =
      first.getD (row / 2 * 2 + col / 2) 0 * second.getD (row % 2 * 2 + col % 2) 0 := by
    intro col hcol
    rw [hentry _ (by omega), getD_tensor first second hrow hcol]
  have h0 := hget 0 (by decide)
  have h1 := hget 1 (by decide)
  have h2 := hget 2 (by decide)
  have h3 := hget 3 (by decide)
  simp only [Nat.add_zero, Nat.reduceDiv, Nat.reduceMod] at h0 h1 h2 h3
  rw [h0, h1, h2, h3]
  ring

/-- An injected tensor product acts as one factor on each of its two qubits. -/
theorem shows_execute_of_injected2 (h : Scalar.RingLaws R) {job : Job R} {lane : Lane R} {e w : Nat}
    (ht : job.layout.Tiled e w) {amps : Nat → Cplx R}
    (hshows : Shows lane.block job.layout.entriesPerShot amps)
    (hplaced : lane.shot.Placed (job.current lane.shot) job.layout.qubitCount)
    (hselected : lane.shot.selected = .injected) (harity : lane.shot.injectedArity = 2)
    {first second : List (Cplx R)}
    (hentry : ∀ i < 16, lane.shot.scratch.get i = (tensor first second).getD i 0) :
    Shows (lane.execute job).block job.layout.entriesPerShot
      (onQubit first (job.current lane.shot).q1 (onQubit second (job.current lane.shot).q2
        fun i => (amps i).scale lane.shot.renormalize)) := by
  have hmode : lane.shot.mode = .gate2 := by
    rw [Shot.mode, hselected, harity]
    rfl
  have hoperator : lane.shot.operator (job.current lane.shot) = ⟨4, .dense, lane.shot.scratch⟩ := by
    rw [Shot.operator, hselected, harity]
  have hoperands : lane.shot.mode.operands (job.current lane.shot) =
      [(job.current lane.shot).q1, (job.current lane.shot).q2] := by
    rw [hmode]
    rfl
  have hnodup := hplaced.nodup
  have hlt := hplaced.lt
  rw [hoperands] at hnodup hlt
  rw [Lane.execute_block ht hplaced hshows.size]
  refine ⟨by rw [Job.size_blockAfter, hshows.size], fun i hi => ?_⟩
  rw [getElem?_blockAfter_of_gate ht hplaced hshows.size (by rw [hmode]; decide) hi,
    hoperands, hmode, hoperator]
  generalize (job.current lane.shot).q1 = q1 at hnodup hlt
  generalize (job.current lane.shot).q2 = q2 at hnodup hlt
  have hne : q1 ≠ q2 := by simpa using hnodup
  generalize hscaled : (fun i => (amps i).scale lane.shot.renormalize) = scaled
  have hmember :
      ∀ b b', (lane.block.getD (setBit (setBit i q2 b') q1 b) 0).scale lane.shot.renormalize =
      scaled (setBit (setBit i q2 b') q1 b) := by
    intro b b'
    rw [hshows.getD_eq (setBit_lt (setBit_lt hi (hlt q2 (by simp)) b') (hlt q1 (by simp)) b),
      ← hscaled]
  -- The four members of the group of `i`, with `q1` as the high bit.
  have hgroup : ((List.range (2 ^ Mode.gate2.arity)).map fun l =>
      (lane.block.getD (place [q1, q2] i l) 0).scale lane.shot.renormalize) =
        [scaled (setBit (setBit i q2 false) q1 false), scaled (setBit (setBit i q2 true) q1 false),
          scaled (setBit (setBit i q2 false) q1 true),
          scaled (setBit (setBit i q2 true) q1 true)] := by
    have hplace : ∀ l, place [q1, q2] i l = setBit (setBit i q2 (l.testBit 0)) q1 (l.testBit 1) :=
      fun l => rfl
    simp only [hplace, hmember]
    rfl
  rw [hgroup, Operator.apply_dense4]
  have hother : ∀ b, (setBit i q1 b).testBit q2 = i.testBit q2 := by
    intro b
    rw [testBit_setBit, if_neg hne.symm]
  have hlocal : localIndex [q1, q2] i < 4 := localIndex_lt [q1, q2] i
  -- The place of `i` in its group picks a row of either factor.
  have hvalue : localIndex [q1, q2] i = 2 * (i.testBit q1).toNat + (i.testBit q2).toNat := by
    simp [localIndex]
  have hlow := Bool.toNat_lt (i.testBit q2)
  have hfirst : localIndex [q1, q2] i / 2 * 2 = 2 * (i.testBit q1).toNat := by omega
  have hsecond : localIndex [q1, q2] i % 2 * 2 = 2 * (i.testBit q2).toNat := by omega
  rw [List.getElem?_map, List.getElem?_range hlocal, Option.map_some,
    Coeffs.row_of_tensor h hentry hlocal, hfirst, hsecond]
  simp only [onQubit, hother, setBit_comm hne i]

end ShotSim
