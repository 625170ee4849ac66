import ShotSim.Proofs.ExactArithmetic
import ShotSim.Proofs.Execute

/-!
# Permutation gates — gates that only move amplitudes

Four gates have no numbers of their own: X, CX, Swap and CCX.  Each of them exchanges two members of
every group, and for the block as a whole this is a permutation of the basis indices that is its own
inverse.

* `Opcode.source` — the index whose amplitude such a gate brings to an index;
* `exchange`, `Operator.getElem?_apply_swap` — what the operator does to a group;
* `localIndex_source` — the two agree: the operand bits of the source spell the exchanged member;
* `permutation_gates_exact` — the block after one such gate, and after two of the same kind.
-/

namespace ShotSim

open BasisIndex

/-! ## Moving indices -/

namespace BasisIndex

def flipBit (index q : Nat) : Nat := index ^^^ 1 <<< q

/-- `flipBit` flips the bit of its qubit only. -/
theorem testBit_flipBit (index q j : Nat) :
    (flipBit index q).testBit j = if j = q then !index.testBit j else index.testBit j := by
  rw [flipBit, Nat.testBit_xor, testBit_one_shiftLeft]
  by_cases h : j = q
  · simp [h]
  · have hne : ¬ q = j := fun e => h e.symm
    simp [h, hne]

/-- Writing the operand bits of `j` into an index that agrees with `j` elsewhere gives `j`. -/
theorem place_localIndex_of_agree {qs : List Nat} {i j : Nat}
    (h : ∀ q, q ∉ qs → j.testBit q = i.testBit q) : place qs i (localIndex qs j) = j := by
  have hsame : place qs i (localIndex qs j) = place qs j (localIndex qs j) := by
    apply Nat.eq_of_testBit_eq
    intro q
    by_cases hq : q ∈ qs
    · exact testBit_place_of_mem hq i j _
    · rw [testBit_place_of_notMem _ _ hq, testBit_place_of_notMem _ _ hq, h q hq]
  rw [hsame, place_localIndex]

end BasisIndex

namespace Opcode

/-- The gates that only permute amplitudes. -/
def isPermutation : Opcode → Bool
  | x | cx | swap | ccx => true
  | _ => false

/-- The index whose amplitude a permutation gate moves to index `i`. -/
def source : Opcode → List Nat → Nat → Nat
  | x, [q], i => flipBit i q
  | cx, [control, target], i => if i.testBit control then flipBit i target else i
  | swap, [q1, q2], i => setBit (setBit i q1 (i.testBit q2)) q2 (i.testBit q1)
  | ccx, [control1, control2, target], i =>
    if i.testBit control1 && i.testBit control2 then flipBit i target else i
  | _, _, i => i

/-- The members of a group that a permutation gate exchanges. -/
def exchanged : Opcode → Nat × Nat
  | cx => (2, 3)
  | swap => (1, 2)
  | ccx => (6, 7)
  | _ => (0, 1)

end Opcode

def exchange (a b l : Nat) : Nat := if l = a then b else if l = b then a else l

section Source

variable {code : Opcode} {qs : List Nat}

/-- An index and its source differ at operand bits only. -/
theorem testBit_source_of_notMem (i : Nat) {j : Nat} (hj : j ∉ qs) :
    (code.source qs i).testBit j = i.testBit j := by
  unfold Opcode.source
  split
  · rename_i q
    have hne : j ≠ q := by simpa using hj
    rw [testBit_flipBit, if_neg hne]
  · rename_i control target
    have hne : ¬ j = control ∧ ¬ j = target := by simpa using hj
    split
    · rw [testBit_flipBit, if_neg hne.2]
    · rfl
  · rename_i q1 q2
    have hne : ¬ j = q1 ∧ ¬ j = q2 := by simpa using hj
    rw [testBit_setBit, if_neg hne.2, testBit_setBit, if_neg hne.1]
  · rename_i control1 control2 target
    have hne : ¬ j = control1 ∧ ¬ j = control2 ∧ ¬ j = target := by simpa using hj
    split
    · rw [testBit_flipBit, if_neg hne.2.2]
    · rfl
  · rfl

theorem source_lt {n i : Nat} (hn : ∀ q ∈ qs, q < n) (hi : i < 2 ^ n) :
    code.source qs i < 2 ^ n := by
  apply Nat.lt_pow_two_of_testBit
  intro j hj
  have hmem : j ∉ qs := fun h => absurd (hn j h) (Nat.not_lt.2 hj)
  rw [testBit_source_of_notMem i hmem]
  exact Nat.testBit_lt_two_pow (Nat.lt_of_lt_of_le hi (Nat.pow_le_pow_right (by omega) hj))

/-- The local index of the source is the one exchanged with that of the index. -/
theorem localIndex_source (hcode : code.isPermutation = true) (hlen : qs.length = code.arity)
    (hqs : qs.Nodup) (i : Nat) :
    localIndex qs (code.source qs i) =
      exchange code.exchanged.1 code.exchanged.2 (localIndex qs i) := by
  cases code with
  | x =>
      obtain ⟨q, rfl⟩ := List.length_eq_one_iff.1 hlen
      cases hq : i.testBit q <;>
        simp [localIndex, Opcode.source, Opcode.exchanged, exchange, testBit_flipBit, hq]
  | cx =>
      obtain ⟨control, target, rfl⟩ := List.length_eq_two.1 hlen
      have hne : control ≠ target := by simpa using hqs
      cases hc : i.testBit control <;> cases ht : i.testBit target <;>
        simp [localIndex, Opcode.source, Opcode.exchanged, exchange, testBit_flipBit, hc, ht, hne]
  | swap =>
      obtain ⟨q1, q2, rfl⟩ := List.length_eq_two.1 hlen
      have hne : q1 ≠ q2 := by simpa using hqs
      cases h1 : i.testBit q1 <;> cases h2 : i.testBit q2 <;>
        simp [localIndex, Opcode.source, Opcode.exchanged, exchange, testBit_setBit, h1, h2, hne]
  | ccx =>
      obtain ⟨control1, control2, target, rfl⟩ := List.length_eq_three.1 hlen
      obtain ⟨⟨_, h1⟩, h2⟩ : (control1 ≠ control2 ∧ control1 ≠ target) ∧ control2 ≠ target := by
        simpa using hqs
      cases hc1 : i.testBit control1 <;> cases hc2 : i.testBit control2 <;>
        cases ht : i.testBit target <;>
        simp [localIndex, Opcode.source, Opcode.exchanged, exchange, testBit_flipBit, hc1, hc2,
          ht, h1, h2]
  | _ => cases hcode

/-- `exchange a b` is an involution. -/
theorem exchange_exchange (a b l : Nat) : exchange a b (exchange a b l) = l := by
  unfold exchange
  split_ifs <;> omega

/-- `source` is an involution. -/
theorem source_source (hcode : code.isPermutation = true) (hlen : qs.length = code.arity)
    (hqs : qs.Nodup) (i : Nat) : code.source qs (code.source qs i) = i := by
  have hback : localIndex qs (code.source qs (code.source qs i)) = localIndex qs i := by
    rw [localIndex_source hcode hlen hqs, localIndex_source hcode hlen hqs, exchange_exchange]
  have hagree : ∀ q, q ∉ qs → (code.source qs (code.source qs i)).testBit q = i.testBit q := by
    intro q hq
    rw [testBit_source_of_notMem _ hq, testBit_source_of_notMem _ hq]
  have hplace := place_localIndex_of_agree hagree
  rw [hback, place_localIndex] at hplace
  exact hplace.symm

/-- `source` of a swap is symmetric in its operands. -/
theorem source_swap_reverse (hlen : qs.length = 2) (hqs : qs.Nodup) (i : Nat) :
    Opcode.swap.source qs.reverse i = Opcode.swap.source qs i := by
  obtain ⟨q1, q2, rfl⟩ := List.length_eq_two.1 hlen
  have hne : q2 ≠ q1 := by simpa using List.nodup_reverse.2 hqs
  exact setBit_comm hne i (i.testBit q1) (i.testBit q2)

end Source

/-! ## Exchanging members -/

variable {R : Type} [Scalar R]

/-- A swap operator exchanges two entries. -/
theorem Operator.getElem?_apply_swap {op : Operator R} {a b : Nat} (hshape : op.shape = .swap a b)
    {amps : List (Cplx R)} (ha : a < amps.length) (hb : b < amps.length) {l : Nat}
    (hl : l < amps.length) : (op.apply amps)[l]? = amps[exchange a b l]? := by
  rw [apply, hshape]
  simp only [List.getElem?_mapIdx, List.getElem?_eq_getElem hl, Option.map_some, exchange]
  split
  · rw [List.getElem?_eq_getElem hb, List.getD_eq_getElem _ _ hb]
  · split
    · rw [List.getElem?_eq_getElem ha, List.getD_eq_getElem _ _ ha]
    · rw [List.getElem?_eq_getElem hl]

namespace Shot

omit [Scalar R] in
theorem arity_mode_of_permutation {s : Shot R} (h : s.selected.isPermutation = true) :
    s.mode.arity = s.selected.arity := by
  unfold mode
  cases hcode : s.selected with
  | x | cx | swap | ccx => rfl
  | _ =>
      rw [hcode] at h
      cases h

/-- The operator of a permutation gate is a swap and reads no coefficients. -/
theorem shape_operator_of_permutation {s : Shot R} (h : s.selected.isPermutation = true)
    (op : Op R) : (s.operator op).shape = .swap s.selected.exchanged.1 s.selected.exchanged.2 := by
  unfold operator
  cases hcode : s.selected with
  | x | cx | swap | ccx => rfl
  | _ =>
      rw [hcode] at h
      cases h

end Shot

theorem Opcode.arity_pos_of_permutation {code : Opcode} (h : code.isPermutation = true) :
    0 < code.arity := by
  cases code with
  | x | cx | swap | ccx => decide
  | _ => cases h

theorem Opcode.exchanged_lt {code : Opcode} (h : code.isPermutation = true) :
    code.exchanged.1 < 2 ^ code.arity ∧ code.exchanged.2 < 2 ^ code.arity := by
  cases code with
  | x | cx | swap | ccx => decide
  | _ => cases h

theorem Cplx.scale_one (hone : ∀ x : R, x * 1 = x) (a : Cplx R) : a.scale 1 = a := by
  rw [scale, hone, hone]

/-! ## The block after a permutation gate -/

section Block

variable {job : Job R} {shot : Shot R} {e w : Nat} (ht : job.layout.Tiled e w)
  (hplaced : shot.Placed (job.current shot) job.layout.qubitCount) {block : Array (Cplx R)}
  (hblock : block.size = job.layout.entriesPerShot) (hcode : shot.selected.isPermutation = true)

include ht hplaced hblock hcode

/-- The amplitude after a permutation gate is the rescaled amplitude at its source. -/
theorem getElem?_blockAfter_of_permutation {i : Nat} (hi : i < job.layout.entriesPerShot) :
    (job.blockAfter shot block)[i]? =
      some ((block.getD (shot.selected.source (shot.mode.operands (job.current shot)) i) 0).scale
        shot.renormalize) := by
  have harity := Shot.arity_mode_of_permutation hcode
  have hlen : (shot.mode.operands (job.current shot)).length = shot.selected.arity := by
    rw [Mode.length_operands, harity]
  have hgate : 0 < shot.mode.arity := by
    rw [harity]
    exact Opcode.arity_pos_of_permutation hcode
  have hlt := Opcode.exchanged_lt hcode
  have hlocal := localIndex_lt (shot.mode.operands (job.current shot)) i
  rw [Mode.length_operands] at hlocal
  have hmoved := localIndex_lt (shot.mode.operands (job.current shot))
    (shot.selected.source (shot.mode.operands (job.current shot)) i)
  rw [Mode.length_operands] at hmoved
  rw [getElem?_blockAfter_of_gate ht hplaced hblock hgate hi,
    Operator.getElem?_apply_swap (Shot.shape_operator_of_permutation hcode _)
      (by simpa [harity] using hlt.1) (by simpa [harity] using hlt.2) (by simpa using hlocal),
    ← localIndex_source hcode hlen hplaced.nodup, List.getElem?_map, List.getElem?_range hmoved,
    Option.map_some, place_localIndex_of_agree fun q hq => testBit_source_of_notMem i hq]

/-- Two permutation gates of the same kind cancel. -/
theorem blockAfter_blockAfter_of_permutation (hone : ∀ x : R, x * 1 = x)
    (hfactor : shot.renormalize = 1) {again : Shot R} (hselected : again.selected = shot.selected)
    (hfactor' : again.renormalize = 1)
    (hplaced' : again.Placed (job.current again) job.layout.qubitCount)
    (hsource : ∀ i, again.selected.source (again.mode.operands (job.current again)) i =
      shot.selected.source (shot.mode.operands (job.current shot)) i) :
    job.blockAfter again (job.blockAfter shot block) = block := by
  have hcode' : again.selected.isPermutation = true := by rw [hselected, hcode]
  have hlen : (shot.mode.operands (job.current shot)).length = shot.selected.arity := by
    rw [Mode.length_operands, Shot.arity_mode_of_permutation hcode]
  have hsize : (job.blockAfter shot block).size = job.layout.entriesPerShot := by
    rw [Job.size_blockAfter, hblock]
  apply Array.ext_getElem?
  intro i
  by_cases hi : i < job.layout.entriesPerShot
  · have hi' : shot.selected.source (shot.mode.operands (job.current shot)) i <
        job.layout.entriesPerShot := source_lt hplaced.lt hi
    rw [getElem?_blockAfter_of_permutation ht hplaced' hsize hcode' hi, hsource,
      Array.getD_eq_getD_getElem?, getElem?_blockAfter_of_permutation ht hplaced hblock hcode hi',
      source_source hcode hlen hplaced.nodup, hfactor, hfactor', Option.getD_some,
      Cplx.scale_one hone, Cplx.scale_one hone]
    simp [hblock, hi]
  · have hout : job.layout.entriesPerShot ≤ i := Nat.le_of_not_lt hi
    rw [Array.getElem?_eq_none (by rw [Job.size_blockAfter, hsize]; exact hout),
      Array.getElem?_eq_none (by rw [hblock]; exact hout)]

end Block

/-- Gates on the same operands have the same sources, and so have two swaps with exchanged
operands. -/
theorem placed_and_source_of_operands {job : Job R} {shot again : Shot R}
    (hplaced : shot.Placed (job.current shot) job.layout.qubitCount)
    (hcode : shot.selected.isPermutation = true) (hselected : again.selected = shot.selected)
    (hoperands : again.mode.operands (job.current again) = shot.mode.operands (job.current shot) ∨
      again.selected = .swap ∧
        again.mode.operands (job.current again) = (shot.mode.operands (job.current shot)).reverse) :
    again.Placed (job.current again) job.layout.qubitCount ∧
      ∀ i, again.selected.source (again.mode.operands (job.current again)) i =
        shot.selected.source (shot.mode.operands (job.current shot)) i := by
  rcases hoperands with hsame | ⟨hswap, hreverse⟩
  · rw [hselected, hsame]
    exact ⟨⟨hsame ▸ hplaced.nodup, hsame ▸ hplaced.lt⟩, fun _ => rfl⟩
  · have hlen : (shot.mode.operands (job.current shot)).length = 2 := by
      rw [Mode.length_operands, Shot.arity_mode_of_permutation hcode, ← hselected, hswap]
      rfl
    refine ⟨⟨?_, ?_⟩, ?_⟩
    · rw [hreverse, List.nodup_reverse]
      exact hplaced.nodup
    · intro q hq
      rw [hreverse, List.mem_reverse] at hq
      exact hplaced.lt q hq
    · intro i
      rw [hreverse, ← hselected, hswap]
      exact source_swap_reverse hlen hplaced.nodup i

/-! ## Steps -/

/-- A permutation gate only moves amplitudes: the amplitude at `i` becomes the rescaled amplitude at
the source of `i`, independently of the coefficients of the operation. If scaling by one is exact,
two equal permutation gates cancel, also when the operands of a swap are exchanged in between. -/
theorem permutation_gates_exact (job : Job R) {n m : Nat} (hlayout : job.layout = .ofCircuit n m)
    (hmin : minQubitsPerWorkgroup ≤ m) (hmax : m ≤ maxQubitsPerWorkgroup) (lane : Lane R)
    (hblock : lane.block.size = job.layout.entriesPerShot)
    (hcode : lane.shot.selected.isPermutation = true)
    (hplaced : lane.shot.Placed (job.current lane.shot) job.layout.qubitCount) :
    let operands := lane.shot.mode.operands (job.current lane.shot)
    (lane.execute job).block.size = job.layout.entriesPerShot ∧
    (∀ i < job.layout.entriesPerShot,
      lane.shot.selected.source operands i < job.layout.entriesPerShot ∧
      (lane.execute job).block[i]? =
        some ((lane.block.getD (lane.shot.selected.source operands i) 0).scale
          lane.shot.renormalize)) ∧
    ((∀ x : R, x * 1 = x) → lane.shot.renormalize = 1 → ∀ again : Shot R,
      again.selected = lane.shot.selected → again.renormalize = 1 →
      (again.mode.operands (job.current again) = operands ∨
        again.selected = .swap ∧ again.mode.operands (job.current again) = operands.reverse) →
      ({ lane.execute job with shot := again }.execute job).block = lane.block) := by
  intro operands
  obtain ⟨e, w, ht⟩ : ∃ e w, job.layout.Tiled e w := by
    rw [hlayout]
    exact Layout.exists_tiled_ofCircuit n hmin hmax
  have hfirst := Lane.execute_block ht hplaced hblock
  have hsize : (lane.execute job).block.size = job.layout.entriesPerShot := by
    rw [hfirst, Job.size_blockAfter, hblock]
  refine ⟨hsize, ?_, ?_⟩
  · intro i hi
    rw [hfirst]
    exact ⟨source_lt hplaced.lt hi, getElem?_blockAfter_of_permutation ht hplaced hblock hcode hi⟩
  · intro hone hfactor again hselected hfactor' hoperands
    obtain ⟨hplaced', hsource⟩ := placed_and_source_of_operands hplaced hcode hselected hoperands
    have hsecond : ({ lane.execute job with shot := again }.execute job).block =
        job.blockAfter again (lane.execute job).block := Lane.execute_block ht hplaced' hsize
    rw [hsecond, hfirst]
    exact blockAfter_blockAfter_of_permutation ht hplaced hblock hcode hone hfactor
      hselected hfactor' hplaced' hsource

def swappingJob : Job Float32 :=
  { singleOpJob (.swap 9 0) with ops := #[.swap 9 0, { Op.swap 0 9 with coeffs := Coeffs.zero }] }

def swappingLane : Lane Float32 :=
  { Lane.blank (.ofCircuit 10 8) 0 0 with
    shot := { (0 : Shot Float32) with selected := .swap, renormalize := 1 }
    block := (Array.range 1024).map fun i => ⟨Float32.ofNat i, 1⟩ }

/-- Two swaps with exchanged operands. -/
theorem permutation_gates_exact_swaps :
    let again : Shot Float32 := { swappingLane.shot with opIdx := 1 }
    Opcode.swap.source [9, 0] 1 = 512 ∧
    (swappingLane.execute swappingJob).block[1]? = some ((swappingLane.block.getD 512 0).scale 1) ∧
      ({ swappingLane.execute swappingJob with shot := again }.execute swappingJob).block =
        swappingLane.block := by
  intro again
  obtain ⟨_, hmoved, hback⟩ :=
    permutation_gates_exact swappingJob (n := 10) (m := 8) rfl (by decide) (by decide) swappingLane
      (by simp [swappingLane, swappingJob, singleOpJob, Layout.entriesPerShot, Layout.ofCircuit,
        minQubitCount]) rfl ⟨by decide, by decide⟩
  exact ⟨by decide, (hmoved 1 (by decide)).2,
    hback Single.mul_one rfl again rfl rfl (Or.inr ⟨rfl, rfl⟩)⟩

end ShotSim
