import Mathlib.Data.List.Basic
import ShotSim.Proofs.DecayPoints
import ShotSim.Proofs.GuardedStream

/-!
# Woven blocks — what becomes of each operation of a program

Weaving turns every operation of a program into a block of the stream, and the blocks follow one
another as the operations do.  A block holds the operation itself, at a place that follows from its
kind, and around it identities and noise on its own qubits.  Only an identity that nothing acts on
has no block.

* `Op.asRun`, `Op.lead`, `Op.trail` — an operation in the stream, and what comes before and after
  it;
* `weaveOp_eq_block`, `Op.Escorts` — the layout of a block, and the operations that fill it up;
* `origin_of_mem_weaveFrom`, `filter_isOwn_weaveFrom` — how blocks follow one another;
* `woven_stream_structure` — the stream of every program.
-/

namespace ShotSim

section Blocks

variable {R : Type}

/-- An operation as executed: a move becomes an identity. -/
def Op.asRun (op : Op R) : Op R := if op.code = .move then { op with code := .id } else op

theorem Op.asRun_of_ne {op : Op R} (h : op.code ≠ .move) : op.asRun = op := if_neg h

theorem Op.code_asRun_eq_id {op : Op R} : op.asRun.code = .id ↔ op.code = .id ∨
    op.code = .move := by
  unfold asRun
  split
  · rename_i hmove
    simp [hmove]
  · rename_i hmove
    simp [hmove]

theorem Opcode.ne_of_isMeasurement {code : Opcode} (h : code.isMeasurement = true) :
    code ≠ .id ∧ code ≠ .move := by
  constructor <;> (rintro rfl; cases h)

theorem q1_mem_qubits {op : Op R} (h : 1 ≤ op.code.arity) : op.q1 ∈ op.qubits := by
  obtain ⟨k, hk⟩ := Nat.exists_eq_add_of_le' h
  simp [Op.qubits, hk]

theorem q2_mem_qubits {op : Op R} (h : 2 ≤ op.code.arity) : op.q2 ∈ op.qubits := by
  obtain ⟨k, hk⟩ := Nat.exists_eq_add_of_le' h
  simp [Op.qubits, hk]

variable [Scalar R]

/-! ## The layout of a block -/

namespace Op

def ownNoise (noise : Option (NoiseModel R)) (op : Op R) : List (Op R) :=
  (noise.bind (·.noiseOps? op)).getD []

/-- The decay points before an operation. -/
def injections (idle : Bool) (n : Nat) (op : Op R) : List (Op R) :=
  if idle && op.isJoint then (op.participants n).map .identity else []

def lead (noise : Option (NoiseModel R)) (idle : Bool) (n : Nat) (op : Op R) : List (Op R) :=
  if op.code.isMeasurement && !(op.ownNoise noise).isEmpty then .identity op.q1 :: op.ownNoise noise
  else op.injections idle n

def trail (noise : Option (NoiseModel R)) (op : Op R) : List (Op R) :=
  if op.code.isMeasurement then [] else op.ownNoise noise

/-- Whether an operation is an identity or a move without noise and decay. -/
def isLone (noise : Option (NoiseModel R)) (idle : Bool) (op : Op R) : Bool :=
  (decide (op.code = .id) || decide (op.code = .move)) && !idle && (op.ownNoise noise).isEmpty

end Op

variable {noise : Option (NoiseModel R)}

/-- Joint operations have decay points, noisy measurements excepted. -/
theorem decayPoints_eq_injections (n : Nat) (op : Op R) (noisy : Bool) :
    decayPoints n op noisy = if op.code.isMeasurement && noisy then []
      else op.injections true n := by
  unfold decayPoints Op.injections Op.isJoint Op.participants Op.qubits
  cases op.code <;> cases noisy <;> simp [Opcode.arity, Opcode.isMeasurement]

/-- `withNoise` as lead, operation and trail. -/
theorem withNoise_eq_block (op : Op R) :
    withNoise noise op = op.lead noise false 0 ++ op.asRun :: op.trail noise := by
  unfold withNoise Op.lead Op.trail Op.injections
  change (if op.code.isMeasurement && !(op.ownNoise noise).isEmpty then
      .identity op.q1 :: op.ownNoise noise ++ [op] else op.asRun :: op.ownNoise noise) = _
  cases hmeasures : op.code.isMeasurement with
  | false => simp
  | true =>
      rw [Op.asRun_of_ne (Opcode.ne_of_isMeasurement hmeasures).2]
      by_cases hempty : op.ownNoise noise = []
      · simp [hempty]
      · simp [hempty]

/-- The expansion of an operation with a block is lead, operation and trail. -/
theorem weaveOp_eq_block (idle : Bool) (n : Nat) (op : Op R) :
    weaveOp noise idle n op =
      if op.isLone noise idle then [] else op.lead noise idle n ++ op.asRun :: op.trail noise := by
  unfold weaveOp
  rw [withNoise_eq_block]
  dsimp only
  rw [decayPoints_eq_injections]
  have hcode := @Op.code_asRun_eq_id _ op
  unfold Op.lead Op.trail Op.isLone
  cases hmeasures : op.code.isMeasurement with
  | true =>
      have hkind := Opcode.ne_of_isMeasurement hmeasures
      cases idle <;> by_cases hempty : op.ownNoise noise = [] <;>
        simp [hempty, hkind.1, hkind.2, Op.injections, Op.asRun]
  | false =>
      cases idle with
      | true => simp [Op.injections]
      | false =>
          by_cases hempty : op.ownNoise noise = []
          · simp [hempty, Op.injections, hcode]
          · simp [hempty, Op.injections]

/-- Identities and moves without noise or idle decay have no block. -/
theorem Op.isLone_iff {idle : Bool} {op : Op R} :
    op.isLone noise idle = true ↔
      (op.code = .id ∨ op.code = .move) ∧ idle = false ∧ op.ownNoise noise = [] := by
  simp [isLone, and_assoc]

/-- Exactly the lone operations expand to nothing. -/
theorem weaveOp_eq_nil_iff {idle : Bool} {n : Nat} {op : Op R} :
    weaveOp noise idle n op = [] ↔ op.isLone noise idle = true := by
  rw [weaveOp_eq_block]
  split <;> simp_all

/-- Noise leads a measurement and trails everything else; a noisy measurement has no other decay
point than the identity carrying its noise. -/
theorem Op.lead_and_trail (idle : Bool) (n : Nat) (op : Op R) :
    if op.code.isMeasurement && !(op.ownNoise noise).isEmpty then
      op.lead noise idle n = .identity op.q1 :: op.ownNoise noise ∧ op.trail noise = []
    else op.lead noise idle n = op.injections idle n ∧ op.trail noise = op.ownNoise noise := by
  unfold lead trail
  cases op.code.isMeasurement with
  | false => simp
  | true => by_cases hempty : op.ownNoise noise = [] <;> simp [hempty]

/-! ## The operations around it -/

/-- An operation that weaving may place next to `op`: an identity or noise on operands of `op`,
distinct from `op`. Around a report, identities on all qubits. -/
structure Op.Escorts (other op : Op R) (idle : Bool) (n : Nat) : Prop where
  kind : (∃ q, other = .identity q) ∨ other.code.isNoise = true
  distinct : other.code ≠ op.asRun.code
  qubits : other.qubits ⊆ op.qubits ∨
    op.code = .mEveryZ ∧ idle = true ∧ ∃ q < n, other = .identity q

/-- An identity on a participating qubit escorts every operation that is not itself idle. -/
theorem Op.escorts_identity {op : Op R} (hkind : op.code ≠ .id ∧ op.code ≠ .move) {idle : Bool}
    {n q : Nat} (hq : q ∈ op.qubits ∨ op.code = .mEveryZ ∧ idle = true ∧ q < n) :
    (Op.identity q).Escorts op idle n where
  kind := Or.inl ⟨q, rfl⟩
  distinct hsame := by
    rcases Op.code_asRun_eq_id.1 hsame.symm with hid | hmove
    · exact hkind.1 hid
    · exact hkind.2 hmove
  qubits := by
    rcases hq with hown | ⟨hreport, hidle, hq⟩
    · exact Or.inl (List.cons_subset.2 ⟨hown, List.nil_subset _⟩)
    · exact Or.inr ⟨hreport, hidle, q, hq, rfl⟩

/-- A Pauli error acts on operands of its operation. -/
theorem qubits_pauliOp_subset {op : Op R} {t : NoiseTable R} (hone : 1 ≤ op.code.arity)
    (ht : t.qubits = op.code.arity) : (NoiseModel.pauliOp op t).qubits ⊆ op.qubits := by
  unfold NoiseModel.pauliOp
  dsimp only
  split
  · exact List.cons_subset.2 ⟨q1_mem_qubits hone, List.nil_subset _⟩
  · have htwo : 2 ≤ op.code.arity := by omega
    exact List.cons_subset.2 ⟨q1_mem_qubits hone,
      List.cons_subset.2 ⟨q2_mem_qubits htwo, List.nil_subset _⟩⟩

/-- Losses act on the operands; identities accompany them on two-qubit operations only. -/
theorem kind_of_mem_lossOps {op other : Op R} {t : NoiseTable R} (hone : 1 ≤ op.code.arity)
    (h : other ∈ NoiseModel.lossOps op t) :
    ((∃ q, other = .identity q) ∧ op.code.arity = 2 ∨ other.code = .loss) ∧
      other.qubits ⊆ op.qubits := by
  have hq1 : [op.q1] ⊆ op.qubits := List.cons_subset.2 ⟨q1_mem_qubits hone, List.nil_subset _⟩
  unfold NoiseModel.lossOps at h
  split at h
  · split at h
    · rename_i htwo
      have hq2 : [op.q2] ⊆ op.qubits :=
        List.cons_subset.2 ⟨q2_mem_qubits (by omega), List.nil_subset _⟩
      simp only [List.mem_cons, List.not_mem_nil, or_false] at h
      rcases h with rfl | rfl | rfl | rfl
      · exact ⟨Or.inl ⟨⟨_, rfl⟩, htwo⟩, hq1⟩
      · exact ⟨Or.inr rfl, hq1⟩
      · exact ⟨Or.inl ⟨⟨_, rfl⟩, htwo⟩, hq2⟩
      · exact ⟨Or.inr rfl, hq2⟩
    · rcases List.mem_singleton.1 h with rfl
      exact ⟨Or.inr rfl, hq1⟩
  · cases h

theorem NoiseSite.not_isNoise {code : Opcode} {site : NoiseSite} (h : ofCode? code = some site) :
    code.isNoise = false := by
  cases code <;> simp [ofCode?] at h <;> rfl

theorem Op.Escorts.not_measures {op other : Op R} {idle : Bool} {n : Nat}
    (h : other.Escorts op idle n) : ¬other.code.isMeasurement = true := by
  intro hmeasures
  rcases h.kind with ⟨q, rfl⟩ | hnoisy
  · cases hmeasures
  · revert hmeasures hnoisy
    cases other.code <;> simp [Opcode.isMeasurement, Opcode.isNoise]

section Checked

variable (hnoise : ∀ m, noise = some m → m.validate = .ok ())

include hnoise

/-- Noise operations escort their operation. -/
theorem escorts_of_mem_ownNoise {op other : Op R} (h : other ∈ op.ownNoise noise) (idle : Bool)
    (n : Nat) : other.Escorts op idle n := by
  obtain ⟨m, site, rfl, hsite, hone, hother⟩ := exists_of_mem_noiseOps h
  have hquiet : op.asRun.code.isNoise = false := by
    unfold Op.asRun
    split
    · rfl
    · exact NoiseSite.not_isNoise hsite
  -- Noise is not what it goes with, because nothing goes with noise.
  have hdiffers : other.code.isNoise = true → other.code ≠ op.asRun.code := by
    intro hnoisy hsame
    rw [hsame, hquiet] at hnoisy
    cases hnoisy
  rcases hother with rfl | hloss
  · have htable := NoiseModel.qubits_of_validate (hnoise m rfl) site
    have harity := htable.trans (NoiseSite.qubits_eq_arity hsite)
    have hcode : (NoiseModel.pauliOp op (m.table site)).code.isNoise = true := by
      rcases code_pauliOp hone harity with hcode | ⟨hcode, _⟩ <;> rw [hcode] <;> rfl
    exact ⟨Or.inr hcode, hdiffers hcode, Or.inl (qubits_pauliOp_subset hone harity)⟩
  · obtain ⟨⟨⟨q, rfl⟩, htwo⟩ | hcode, hqubits⟩ := kind_of_mem_lossOps hone hloss
    · -- Identities come with the loss of two qubits, and to do nothing takes one.
      have hkind : op.code ≠ .id ∧ op.code ≠ .move := by
        constructor <;> (intro hkind; rw [hkind] at htwo; cases htwo)
      exact Op.escorts_identity hkind (Or.inl (hqubits List.mem_cons_self))
    · have hnoisy : other.code.isNoise = true := by rw [hcode]; rfl
      exact ⟨Or.inr hnoisy, hdiffers hnoisy, Or.inl hqubits⟩

omit hnoise in
/-- Decay points escort their operation. -/
theorem escorts_of_mem_injections {idle : Bool} {n : Nat} {op other : Op R}
    (h : other ∈ op.injections idle n) : other.Escorts op idle n := by
  unfold Op.injections at h
  split at h
  · rename_i hboth
    obtain ⟨hidle, hjoint⟩ := Bool.and_eq_true_iff.1 hboth
    obtain ⟨q, hq, rfl⟩ := List.mem_map.1 h
    have hkind : op.code ≠ .id ∧ op.code ≠ .move := by
      constructor <;> (intro hkind; rw [Op.isJoint, hkind] at hjoint; cases hjoint)
    refine Op.escorts_identity hkind ?_
    unfold Op.participants at hq
    split at hq
    · rename_i hreport
      exact Or.inr ⟨hreport, hidle, List.mem_range.1 hq⟩
    · exact Or.inl hq
  · cases h

/-- Everything else in the block of an operation escorts it. -/
theorem escorts_of_mem_block {idle : Bool} {n : Nat} {op other : Op R}
    (h : other ∈ op.lead noise idle n ++ op.trail noise) : other.Escorts op idle n := by
  rcases List.mem_append.1 h with hlead | htrail
  · unfold Op.lead at hlead
    split at hlead
    · rename_i hboth
      have hmeasures := (Bool.and_eq_true_iff.1 hboth).1
      rcases List.mem_cons.1 hlead with rfl | hown
      · -- The identity that carries the noise of a measurement.
        have hone := Opcode.one_le_arity_of_isMeasurement hmeasures
        exact Op.escorts_identity (Opcode.ne_of_isMeasurement hmeasures)
          (Or.inl (q1_mem_qubits hone))
      · exact escorts_of_mem_ownNoise hnoise hown idle n
    · exact escorts_of_mem_injections hlead
  · unfold Op.trail at htrail
    split at htrail
    · cases htrail
    · exact escorts_of_mem_ownNoise hnoise htrail idle n

/-- The expansion of a passing operation passes. -/
theorem passes_weaveOp {c : Config R} {op : Op R} (h : c.Passes op) (idle : Bool) :
    ∀ other ∈ weaveOp noise idle c.qubits op, c.Passes other := by
  intro other hother
  by_cases hspecial : op.isResetAll = true ∨ op.isUnsupported = true
  · rw [weaveOp_of_special noise idle c.qubits hspecial, List.mem_singleton] at hother
    exact hother ▸ h
  · rw [not_or, Bool.not_eq_true, Bool.not_eq_true] at hspecial
    have hharmless := h.admitted.harmless hspecial.1 hspecial.2
    refine ⟨Or.inr (Or.inr (harmless_weaveOp hnoise idle hharmless other hother).valid),
      fun hslot => ?_⟩
    rw [weaveOp_eq_block] at hother
    split at hother
    · cases hother
    · rcases List.mem_append.1 hother with hlead | hrest
      · exact absurd hslot (escorts_of_mem_block hnoise (List.mem_append_left _ hlead)).not_measures
      · rcases List.mem_cons.1 hrest with rfl | htrail
        · -- Only the operation itself measures, and it is passed on with its slot.
          have hmove : op.code ≠ .move := by
            intro hmove
            rw [Op.asRun, if_pos hmove] at hslot
            cases hslot
          rw [Op.asRun_of_ne hmove] at hslot ⊢
          exact h.slot hslot
        · have hescort : other.Escorts op idle c.qubits :=
            escorts_of_mem_block hnoise (List.mem_append_right _ htrail)
          exact absurd hslot hescort.not_measures

end Checked

/-! ## Block after block -/

/-- Origins lie within the program. -/
theorem origin_of_mem_weaveFrom {idle : Bool} {n : Nat} {program : List (Op R)} {start : Nat}
    {s : Strand R} (h : s ∈ weaveFrom noise idle n program start) :
    start ≤ s.origin ∧ s.origin < start + program.length := by
  induction program generalizing start with
  | nil => cases h
  | cons op rest ih =>
      rw [List.length_cons]
      rw [weaveFrom, List.mem_append] at h
      rcases h with hown | hrest
      · obtain ⟨other, _, rfl⟩ := List.mem_map.1 hown
        exact ⟨Nat.le_refl _, by dsimp only; omega⟩
      · have hbounds := ih hrest
        omega

/-- Origins are monotone along the stream. -/
theorem pairwise_origin_weaveFrom (idle : Bool) (n : Nat) (program : List (Op R)) (start : Nat) :
    (weaveFrom noise idle n program start).Pairwise fun s t => s.origin ≤ t.origin := by
  induction program generalizing start with
  | nil => exact .nil
  | cons op rest ih =>
      rw [weaveFrom, List.pairwise_append]
      refine ⟨?_, ih (start + 1), ?_⟩
      · rw [List.pairwise_map]
        exact List.pairwise_of_forall fun _ _ => Nat.le_refl _
      · intro s hs t ht
        obtain ⟨other, _, rfl⟩ := List.mem_map.1 hs
        have hlater := (origin_of_mem_weaveFrom ht).1
        dsimp only
        omega

/-- The block of an operation lies between the blocks of its predecessors and successors. -/
theorem weave_eq_append {program : List (Op R)} {i : Nat} {op : Op R} (h : program[i]? = some op)
    (noise : Option (NoiseModel R)) (idle : Bool) (n : Nat) :
    weave program noise idle n =
      weaveFrom noise idle n (program.take i) 0 ++ (weaveOp noise idle n op).map (⟨·, i⟩) ++
        weaveFrom noise idle n (program.drop (i + 1)) (i + 1) := by
  obtain ⟨hi, hop⟩ := List.getElem?_eq_some_iff.1 h
  have hsplit : program = program.take i ++ op :: program.drop (i + 1) := by
    rw [← hop, ← List.drop_eq_getElem_cons hi, List.take_append_drop]
  have hlength : 0 + (program.take i).length = i := by
    rw [Nat.zero_add, List.length_take_of_le (Nat.le_of_lt hi)]
  rw [weave]
  conv_lhs => rw [hsplit]
  rw [weaveFrom_append, hlength, weaveFrom, List.append_assoc]

/-- Whether an entry of a stream is an operation of the program. -/
def Strand.isOwn (program : List (Op R)) (s : Strand R) : Bool :=
  program[s.origin]?.any fun op => s.op.code = op.asRun.code

/-- A block contains its operation exactly once. -/
theorem filter_block (hnoise : ∀ m, noise = some m → m.validate = .ok ()) (idle : Bool) (n : Nat)
    (op : Op R) :
    (weaveOp noise idle n op).filter (fun other => decide (other.code = op.asRun.code)) =
      if op.isLone noise idle then [] else [op.asRun] := by
  have hnone : ∀ ops ⊆ op.lead noise idle n ++ op.trail noise,
      ops.filter (fun other => decide (other.code = op.asRun.code)) = [] := by
    intro ops hops
    rw [List.filter_eq_nil_iff]
    intro other hother
    simpa using (escorts_of_mem_block hnoise (hops hother)).distinct
  rw [weaveOp_eq_block]
  split
  · rfl
  · rw [List.filter_append, hnone _ (List.subset_append_left _ _), List.nil_append,
      List.filter_cons_of_pos (by simp), hnone _ (List.subset_append_right _ _)]

/-- Filtering out what was woven in leaves the program, lone operations excepted. -/
theorem filter_isOwn_weaveFrom (hnoise : ∀ m, noise = some m → m.validate = .ok ())
    (idle : Bool) (n : Nat) (before rest : List (Op R)) :
    (weaveFrom noise idle n rest before.length).filter (·.isOwn (before ++ rest)) =
      ((rest.zipIdx before.length).filter fun (op, _) => !op.isLone noise idle).map
        fun (op, i) => ⟨op.asRun, i⟩ := by
  -- An entry is compared with an operation of the whole program, so what lies behind is carried
  -- along.
  induction rest generalizing before with
  | nil => rfl
  | cons op rest ih =>
      have hnext := ih (before ++ [op])
      rw [List.length_append, List.length_singleton, List.append_assoc,
        List.singleton_append] at hnext
      have hhere : (before ++ op :: rest)[before.length]? = some op := by simp
      have hblock : ((weaveOp noise idle n op).map (Strand.mk · before.length)).filter
          (·.isOwn (before ++ op :: rest)) =
            (if op.isLone noise idle then [] else [op.asRun]).map (Strand.mk · before.length) := by
        rw [← filter_block hnoise idle n op, List.filter_map]
        simp only [Function.comp_def, Strand.isOwn, hhere, Option.any_some]
      rw [weaveFrom, List.filter_append, hblock, hnext, List.zipIdx_cons]
      cases hlone : op.isLone noise idle <;> simp [hlone]

/-- Weaving with a valid model does not fail. -/
theorem weaveChecked_of_validate (hnoise : ∀ m, noise = some m → m.validate = .ok ())
    (program : List (Op R)) (idle : Bool) (n : Nat) :
    weaveChecked program noise idle n = .ok (weave program noise idle n) := by
  have hsound : (program.findSome? fun op => noise.bind (·.fault? op)) = none := by
    rw [List.findSome?_eq_none_iff]
    intro op _
    cases noise with
    | none => rfl
    | some m => exact NoiseModel.fault?_eq_none (hnoise m rfl) op
  rw [weaveChecked, hsound]

end Blocks

/-! ## Noise that is there adds something -/

section Noisy

theorem Single.pos_of_nonneg {p : Float32} (h : Scalar.le 0 p = true) (hne : (p == 0) = false) :
    Scalar.lt 0 p = true := by
  have hle := le_iff.1 h
  rw [lt_iff]
  cases hcompare : (value 0).compare (value p) with
  | none =>
      rw [hcompare] at hle
      cases hle
  | some order =>
      rw [hcompare] at hle
      cases order with
      | lt => rfl
      | gt => cases hle
      | eq =>
          have hzero : ((0 : Float32) == 0) = (p == 0) :=
            Scalar.EqualUpToZeros.zero_congr (beq_iff.2 hcompare)
          rw [hne, Scalar.ClockLaws.zero_beq] at hzero
          cases hzero

theorem NoiseTable.loss_nonneg_of_validate {R : Type} [Scalar R] {t : NoiseTable R}
    (h : t.validate = .ok ()) : Scalar.le 0 t.loss = true := by
  have hloss : isProbability t.loss = true := by
    cases hcheck : isProbability t.loss with
    | true => rfl
    | false =>
        simp only [validate, hcheck, Bool.not_false, if_true, bind, Except.bind, throw, throwThe,
          MonadExceptOf.throw] at h
        repeat' split at h
        all_goals cases h
  simp only [isProbability, Scalar.within, Bool.and_eq_true] at hloss
  exact hloss.2.1

/-- A valid table that is not noiseless has a Pauli error or a loss. -/
theorem NoiseTable.acts_of_validate {t : NoiseTable Float32} (h : t.validate = .ok ())
    (hnoisy : t.isNoiseless = false) : t.hasPauliNoise = true ∨ Scalar.lt 0 t.loss = true := by
  rw [isNoiseless, Bool.and_eq_false_iff] at hnoisy
  rcases hnoisy with hpauli | hloss
  · obtain ⟨p, hp, hne⟩ := List.all_eq_false.1 hpauli
    rw [Bool.not_eq_true] at hne
    exact Or.inl (List.any_eq_true.2 ⟨p, hp, Single.pos_of_nonneg (nonneg_of_validate h p hp) hne⟩)
  · exact Or.inr (Single.pos_of_nonneg (loss_nonneg_of_validate h) hloss)

/-- A valid model never adds an empty list of noise. -/
theorem NoiseModel.noiseOps?_ne_nil {m : NoiseModel Float32} (h : m.validate = .ok ())
    (op : Op Float32) : m.noiseOps? op ≠ some [] := by
  intro hnil
  obtain ⟨t, ht, hops⟩ := Option.map_eq_some_iff.1 hnil
  obtain ⟨site, _, htable⟩ := Option.bind_eq_some_iff.1 ht
  dsimp only at htable
  split at htable
  · cases htable
  · rename_i hnoisy
    cases htable
    -- The table is not without noise, so one of the two kinds of operations is there.
    have hvalid := NoiseModel.table_of_validate h site
    obtain ⟨hpauli, hloss⟩ := List.append_eq_nil_iff.1 hops
    rcases NoiseTable.acts_of_validate hvalid (by simpa using hnoisy) with hacts | hacts
    · rw [if_pos hacts] at hpauli
      cases hpauli
    · rw [lossOps, if_pos hacts] at hloss
      split at hloss <;> cases hloss

/-- An operation has no noise iff its table is noiseless or missing. -/
theorem Op.ownNoise_eq_nil_iff {noise : Option (NoiseModel Float32)}
    (hnoise : ∀ m, noise = some m → m.validate = .ok ()) (op : Op Float32) :
    op.ownNoise noise = [] ↔ noise.bind (·.noiseOps? op) = none := by
  unfold ownNoise
  cases hops : noise.bind (·.noiseOps? op) with
  | none => simp
  | some ops =>
      obtain ⟨m, hm, hown⟩ := Option.bind_eq_some_iff.1 hops
      have hne := NoiseModel.noiseOps?_ne_nil (hnoise m hm) op
      rw [hown] at hne
      simpa using hne

end Noisy

/-! ## Streams -/

/-- Structure of the stream woven with a valid noise model. Entries are ordered by the operations
they originate from. The entries of one operation form a block, which is empty iff the operation is
an identity or a move without noise and decay. Every other block contains the operation once: behind
the noise of a noisy measurement, and directly behind the decay points otherwise. The rest of a
block consists of identities and noise on the operands. Filtering these out leaves the program, and
if the program passes validation, so does the stream. -/
theorem woven_stream_structure {noise : Option (NoiseModel Float32)}
    (hnoise : ∀ m, noise = some m → m.validate = .ok ()) (program : List (Op Float32)) (idle : Bool)
    (n : Nat) :
    weaveChecked program noise idle n = .ok (weave program noise idle n) ∧
    ((weave program noise idle n).Pairwise fun s t => s.origin ≤ t.origin) ∧
    (∀ s ∈ weave program noise idle n, s.origin < program.length) ∧
    (∀ i op, program[i]? = some op → ∃ before block after,
      weave program noise idle n = before ++ block.map (⟨·, i⟩) ++ after ∧
      (∀ s ∈ before, s.origin < i) ∧ (∀ s ∈ after, i < s.origin) ∧
      (block = [] ↔
        (op.code = .id ∨ op.code = .move) ∧ idle = false ∧ noise.bind (·.noiseOps? op) = none) ∧
      (block ≠ [] → ∃ first last, block = first ++ op.asRun :: last ∧
        (if op.code.isMeasurement && (noise.bind (·.noiseOps? op)).isSome then
          first = .identity op.q1 :: op.ownNoise noise ∧ last = []
        else first = op.injections idle n ∧ last = op.ownNoise noise) ∧
        ∀ other ∈ first ++ last, other.Escorts op idle n)) ∧
    (weave program noise idle n).filter (·.isOwn program) =
      (program.zipIdx.filter fun (op, _) => !op.isLone noise idle).map
        (fun (op, i) => ⟨op.asRun, i⟩) ∧
    ∀ c : Config Float32, c.qubits = n → c.checkOps program 0 = .ok () →
      c.checkOps ((weave program noise idle n).map (·.op)) 0 = .ok () := by
  refine ⟨weaveChecked_of_validate hnoise program idle n,
    pairwise_origin_weaveFrom idle n program 0, ?_, ?_,
    filter_isOwn_weaveFrom hnoise idle n [] program, ?_⟩
  · intro s hs
    simpa using (origin_of_mem_weaveFrom hs).2
  · intro i op hop
    have hquiet := Op.ownNoise_eq_nil_iff hnoise op
    obtain ⟨hi, _⟩ := List.getElem?_eq_some_iff.1 hop
    -- The three parts are the blocks of the operations before `i`, of `i` itself, and of those
    -- after it.
    refine ⟨_, _, _, weave_eq_append hop noise idle n, ?_, ?_, ?_, ?_⟩
    · intro s hs
      have hbound := (origin_of_mem_weaveFrom hs).2
      rw [List.length_take] at hbound
      omega
    · intro s hs
      exact (origin_of_mem_weaveFrom hs).1
    · rw [weaveOp_eq_nil_iff, Op.isLone_iff, hquiet]
    · intro hblock
      have hnoisy : (noise.bind (·.noiseOps? op)).isSome = !(op.ownNoise noise).isEmpty := by
        rw [Bool.eq_iff_iff]
        simp [hquiet, Option.isSome_iff_ne_none]
      rw [weaveOp_eq_block, if_neg (mt weaveOp_eq_nil_iff.2 hblock), hnoisy]
      exact ⟨_, _, rfl, op.lead_and_trail idle n,
        fun other hother => escorts_of_mem_block hnoise hother⟩
  · rintro c rfl hprogram
    rw [Config.checkOps_eq_ok_iff] at hprogram ⊢
    intro other hother
    rw [weave, map_op_weaveFrom, List.mem_flatMap] at hother
    obtain ⟨op, hop, hblock⟩ := hother
    exact passes_weaveOp hnoise (hprogram op hop) idle other hblock

/-- Noise on gates and measurements, none on identities. -/
def noisyPair : NoiseModel Float32 :=
  ((NoiseModel.uniform (.pauli 0.25 0.25 0.25) ⟨2, ["XX", "ZI"], [0.5, 0.25], 0.125⟩).set
    .mz (.pauli 0.125 0 0)).set .i (.noiseless 1)

def pairProgram : List (Op Float32) := [.move 1, .identity 0, .cx 0 1, .mz 0 0]

/-- A move with noise keeps its block, an identity without noise does not. -/
theorem woven_stream_structure_pair :
    noisyPair.validate = .ok () ∧
      (∀ s ∈ weave pairProgram (some noisyPair) false 2, s.origin ≠ 1) ∧
      ((weave pairProgram (some noisyPair) false 2).filter (·.isOwn pairProgram)).map
        (fun s => (s.op.code, s.origin)) = [(.id, 0), (.cx, 2), (.mz, 3)] ∧
      Config.checkOps { Config.standard with qubits := 2, resultCount := 1 }
        ((weave pairProgram (some noisyPair) false 2).map (·.op)) 0 = .ok () := by
  have hvalid : noisyPair.validate = .ok () := rfl
  obtain ⟨_, _, _, hblocks, hleft, hpasses⟩ := woven_stream_structure
    (fun m hm => Option.some.inj hm ▸ hvalid) pairProgram false 2
  obtain ⟨before, block, after, hstream, hbefore, hafter, hempty, _⟩ := hblocks 1 (.identity 0) rfl
  refine ⟨hvalid, ?_, by rw [hleft]; rfl, hpasses _ rfl rfl⟩
  rw [hempty.2 ⟨Or.inl rfl, rfl, rfl⟩, List.map_nil, List.append_nil] at hstream
  rw [hstream]
  intro s hs
  rcases List.mem_append.1 hs with hs | hs
  · exact Nat.ne_of_lt (hbefore s hs)
  · exact Nat.ne_of_gt (hafter s hs)

end ShotSim
