import Mathlib.Data.List.Basic
import ShotSim.Noise.Weave
import ShotSim.Proofs.MachineRun

/-!
# Woven streams — what weaving adds to a program

Weaving puts operations around those of a program.  What it adds is always something that a shot can
do: identities, Pauli noise and loss on qubits that the program itself addresses, and identities on
the qubits of the circuit.  What a shot cannot do is passed on as it is.

* `Op.isUnsupported` — operations that no shot carries out;
* `Op.Harmless` — operations that leave the verdict on a shot alone;
* `weaveOp_of_special`, `harmless_weaveOp` — an operation is woven into itself or into harmless
  ones.
-/

namespace ShotSim

variable {R : Type} [Scalar R]

section Harmless

variable {R : Type}

/-- Whether an operation has an unknown opcode or is `injected`. -/
def Op.isUnsupported (op : Op R) : Bool := !op.code.isKnown || op.code = .injected

/-- A supported operation on valid qubits that is not a restart. -/
structure Op.Harmless (op : Op R) (n : Nat) : Prop where
  notReset : op.isResetAll = false
  supported : op.isUnsupported = false
  valid : validQubits n op.qubits = true

/-- A harmless operation keeps the verdict. -/
theorem Op.Harmless.verdictAfter_eq {op : Op R} {n : Nat} (h : op.Harmless n) (v : StatusCode × Nat)
    (opIdx : Nat) : verdictAfter n v op opIdx = v := by
  by_cases hv : v.1 = .ok
  · have hsupported : (!op.code.isKnown || op.code = .injected) = false := h.supported
    rw [verdictAfter_of_ok n h.notReset hv, if_neg (by simp [hsupported]),
      if_neg (by simp [h.valid])]
  · exact verdictAfter_of_failed n h.notReset hv opIdx

/-- Harmless operations keep the verdict. -/
theorem verdictFrom_of_harmless {ops : List (Op R)} {n : Nat} (h : ∀ op ∈ ops, op.Harmless n)
    (opIdx : Nat) (v : StatusCode × Nat) : verdictFrom n ops opIdx v = v := by
  induction ops generalizing opIdx with
  | nil => rfl
  | cons op rest ih =>
      have hop := h op List.mem_cons_self
      rw [verdictFrom, hop.verdictAfter_eq]
      exact ih (fun other hother => h other (List.mem_cons_of_mem _ hother)) _

theorem q1_lt_of_valid {n : Nat} {op : Op R} (h : validQubits n op.qubits = true)
    (hk : 1 ≤ op.code.arity) : op.q1 < n := by
  apply lt_of_validQubits h
  obtain ⟨k, hk⟩ := Nat.exists_eq_add_of_le' hk
  simp [Op.qubits, hk]

theorem q2_lt_of_valid {n : Nat} {op : Op R} (h : validQubits n op.qubits = true)
    (hk : 2 ≤ op.code.arity) : op.q2 < n ∧ op.q1 ≠ op.q2 := by
  obtain ⟨k, hk⟩ := Nat.exists_eq_add_of_le' hk
  have hqubits : op.qubits = op.q1 :: op.q2 :: [op.q3].take k := by simp [Op.qubits, hk]
  constructor
  · apply lt_of_validQubits h
    simp [hqubits]
  · have hnodup := nodup_of_validQubits h
    rw [hqubits] at hnodup
    intro he
    simp [he] at hnodup

end Harmless

/-- Identities in range are harmless. -/
theorem harmless_identity {n q : Nat} (hq : q < n) : (Op.identity q : Op R).Harmless n := by
  refine ⟨rfl, rfl, ?_⟩
  simp [Op.identity, Op.phase1, Op.bare, Op.qubits, Opcode.arity, validQubits, hq]

/-- Losses in range are harmless. -/
theorem harmless_loss {n q : Nat} (hq : q < n) (p : R) : (Op.loss q p).Harmless n := by
  refine ⟨rfl, rfl, ?_⟩
  simp [Op.loss, Op.gate1, Op.bare, Op.qubits, Opcode.arity, validQubits, hq]

/-! ## Noise -/

/-- The table of a site has the arity of its operations. -/
theorem NoiseSite.qubits_eq_arity {code : Opcode} {site : NoiseSite}
    (h : ofCode? code = some site) : site.qubits = code.arity := by
  cases code <;> simp [ofCode?] at h <;> subst h <;> rfl

/-- Pauli noise on a valid operation is harmless. -/
theorem harmless_pauliOp {n : Nat} {op : Op R} {t : NoiseTable R}
    (hvalid : validQubits n op.qubits = true) (hone : 1 ≤ op.code.arity)
    (ht : t.qubits = op.code.arity) : (NoiseModel.pauliOp op t).Harmless n := by
  have hq1 := q1_lt_of_valid hvalid hone
  unfold NoiseModel.pauliOp
  dsimp only
  split
  · refine ⟨rfl, rfl, ?_⟩
    simp [Op.pauli1, Op.gate1, Op.bare, Op.qubits, Opcode.arity, validQubits, hq1]
  · rename_i hnot
    have hq2 := q2_lt_of_valid hvalid (by omega)
    refine ⟨rfl, rfl, ?_⟩
    simp [Op.pauli2, Op.bare, Op.qubits, Opcode.arity, validQubits, hq1, hq2.1, hq2.2]

/-- Loss noise on a valid operation is harmless. -/
theorem harmless_lossOps {n : Nat} {op : Op R} (t : NoiseTable R)
    (hvalid : validQubits n op.qubits = true) (hone : 1 ≤ op.code.arity) :
    ∀ other ∈ NoiseModel.lossOps op t, other.Harmless n := by
  have hq1 := q1_lt_of_valid hvalid hone
  intro other hother
  unfold NoiseModel.lossOps at hother
  split at hother
  · split at hother
    · rename_i htwo
      have hq2 := q2_lt_of_valid hvalid (by omega)
      simp only [List.mem_cons, List.not_mem_nil, or_false] at hother
      rcases hother with rfl | rfl | rfl | rfl
      · exact harmless_identity hq1
      · exact harmless_loss hq1 _
      · exact harmless_identity hq2.1
      · exact harmless_loss hq2.1 _
    · rcases List.mem_singleton.1 hother with rfl
      exact harmless_loss hq1 _
  · cases hother

/-- Noise operations are Pauli errors or losses from the table of their site. -/
theorem exists_of_mem_noiseOps {noise : Option (NoiseModel R)} {op other : Op R}
    (h : other ∈ (noise.bind (·.noiseOps? op)).getD []) :
    ∃ m site, noise = some m ∧ NoiseSite.ofCode? op.code = some site ∧ 1 ≤ op.code.arity ∧
      (other = NoiseModel.pauliOp op (m.table site) ∨
        other ∈ NoiseModel.lossOps op (m.table site)) := by
  cases noise with
  | none => cases h
  | some m =>
      cases hsite : NoiseSite.ofCode? op.code with
      | none =>
          rw [Option.bind_some, NoiseModel.noiseOps?, NoiseModel.tableFor?, hsite] at h
          cases h
      | some site =>
          have hone : 1 ≤ op.code.arity := by
            rw [← NoiseSite.qubits_eq_arity hsite]
            cases site <;> decide
          refine ⟨m, site, rfl, rfl, hone, ?_⟩
          rw [Option.bind_some, NoiseModel.noiseOps?, NoiseModel.tableFor?, hsite] at h
          dsimp only [Option.bind_some] at h
          split at h
          · cases h
          · -- What a table adds: at most one Pauli noise, then loss on each qubit.
            simp only [Option.map_some, Option.getD_some] at h
            rcases List.mem_append.1 h with hpauli | hloss
            · split at hpauli
              · exact Or.inl (List.mem_singleton.1 hpauli)
              · cases hpauli
            · exact Or.inr hloss

/-- The noise of a valid operation is harmless. -/
theorem harmless_noiseOps {n : Nat} {noise : Option (NoiseModel R)}
    (hnoise : ∀ m, noise = some m → m.validate = .ok ()) {op : Op R}
    (hvalid : validQubits n op.qubits = true) :
    ∀ other ∈ (noise.bind (·.noiseOps? op)).getD [], other.Harmless n := by
  intro other hother
  obtain ⟨m, site, rfl, hsite, hone, rfl | hloss⟩ := exists_of_mem_noiseOps hother
  · have htable := NoiseModel.qubits_of_validate (hnoise m rfl) site
    exact harmless_pauliOp hvalid hone (htable.trans (NoiseSite.qubits_eq_arity hsite))
  · exact harmless_lossOps _ hvalid hone other hloss

/-! ## Weaving one operation -/

theorem noiseOps_eq_nil {noise : Option (NoiseModel R)} {op : Op R}
    (h : NoiseSite.ofCode? op.code = none) : (noise.bind (·.noiseOps? op)).getD [] = [] := by
  cases noise with
  | none => rfl
  | some m =>
      rw [Option.bind_some, NoiseModel.noiseOps?, NoiseModel.tableFor?, h]
      rfl

/-- Restarts and unsupported operations are woven as they are. -/
theorem weaveOp_of_special (noise : Option (NoiseModel R)) (idle : Bool) (n : Nat) {op : Op R}
    (h : op.isResetAll = true ∨ op.isUnsupported = true) : weaveOp noise idle n op = [op] := by
  have hcode : op.code = .reset ∨ op.code = .injected ∨ ∃ word, op.code = .unknown word := by
    rcases h with hreset | hunsupported
    · left
      simp only [Op.isResetAll, Bool.and_eq_true, decide_eq_true_eq] at hreset
      exact hreset.1
    · right
      simp only [Op.isUnsupported, Bool.or_eq_true, Bool.not_eq_true', decide_eq_true_eq]
        at hunsupported
      rcases hunsupported with hknown | hinjected
      · right
        revert hknown
        cases op.code <;> simp [Opcode.isKnown]
      · exact Or.inl hinjected
  -- None of these has a noise table or a point of decay.
  have hsilent : NoiseSite.ofCode? op.code = none := by
    rcases hcode with hc | hc | ⟨word, hc⟩ <;> rw [hc] <;> rfl
  have hbody : withNoise noise op = [op] := by
    unfold withNoise
    rw [noiseOps_eq_nil hsilent]
    rcases hcode with hc | hc | ⟨word, hc⟩ <;> simp [hc]
  have hpoints : ∀ noisy, decayPoints n op noisy = [] := by
    intro noisy
    unfold decayPoints
    rcases hcode with hc | hc | ⟨word, hc⟩ <;> simp [hc, Opcode.arity, Opcode.isMeasurement]
  unfold weaveOp
  rw [hbody]
  dsimp only
  rw [hpoints]
  rcases hcode with hc | hc | ⟨word, hc⟩ <;> simp [hc]

theorem Opcode.one_le_arity_of_isMeasurement {code : Opcode} (h : code.isMeasurement = true) :
    1 ≤ code.arity := by
  revert h
  cases code <;> simp [isMeasurement, arity]

theorem harmless_withNoise {n : Nat} {noise : Option (NoiseModel R)}
    (hnoise : ∀ m, noise = some m → m.validate = .ok ()) {op : Op R} (hop : op.Harmless n) :
    ∀ other ∈ withNoise noise op, other.Harmless n := by
  have hadded := harmless_noiseOps hnoise hop.valid
  intro other hother
  unfold withNoise at hother
  dsimp only at hother
  split at hother
  · -- Noise comes before a measurement, carried by an identity.
    rename_i hmeasures
    have hone := Opcode.one_le_arity_of_isMeasurement (Bool.and_eq_true_iff.1 hmeasures).1
    rcases List.mem_append.1 hother with hfirst | hlast
    · rcases List.mem_cons.1 hfirst with rfl | hmem
      · exact harmless_identity (q1_lt_of_valid hop.valid hone)
      · exact hadded other hmem
    · rcases List.mem_singleton.1 hlast with rfl
      exact hop
  · rcases List.mem_cons.1 hother with rfl | hmem
    · split
      · -- A move becomes an identity on the same qubit.
        rename_i hmove
        refine ⟨rfl, rfl, ?_⟩
        have hvalid := hop.valid
        simp only [Op.qubits, hmove, Opcode.arity] at hvalid ⊢
        exact hvalid
      · exact hop
    · exact hadded other hmem

/-- Decay points of a harmless operation are harmless. -/
theorem harmless_decayPoints {n : Nat} {op : Op R} (hop : op.Harmless n) (noisy : Bool) :
    ∀ other ∈ decayPoints n op noisy, other.Harmless n := by
  intro other hother
  unfold decayPoints at hother
  split at hother
  · rcases List.mem_map.1 hother with ⟨q, hq, rfl⟩
    exact harmless_identity (lt_of_validQubits hop.valid q hq)
  · split at hother
    · rename_i hmeasures
      rcases List.mem_singleton.1 hother with rfl
      have hone := Opcode.one_le_arity_of_isMeasurement (Bool.and_eq_true_iff.1 hmeasures).1
      exact harmless_identity (q1_lt_of_valid hop.valid hone)
    · split at hother
      · rcases List.mem_map.1 hother with ⟨q, hq, rfl⟩
        exact harmless_identity (List.mem_range.1 hq)
      · cases hother

/-- The expansion of a harmless operation is harmless. -/
theorem harmless_weaveOp {n : Nat} {noise : Option (NoiseModel R)}
    (hnoise : ∀ m, noise = some m → m.validate = .ok ()) (idle : Bool) {op : Op R}
    (hop : op.Harmless n) : ∀ other ∈ weaveOp noise idle n op, other.Harmless n := by
  intro other hother
  unfold weaveOp at hother
  dsimp only at hother
  split at hother
  · rcases List.mem_append.1 hother with hpoint | hbody
    · exact harmless_decayPoints hop _ other hpoint
    · exact harmless_withNoise hnoise hop other hbody
  · split at hother
    · cases hother
    · exact harmless_withNoise hnoise hop other hother

omit [Scalar R] in
/-- An admitted operation that is supported and not a restart is harmless. -/
theorem Op.Admitted.harmless {n : Nat} {op : Op R} (h : op.Admitted n)
    (hreset : op.isResetAll = false) (hsupported : op.isUnsupported = false) : op.Harmless n := by
  refine ⟨hreset, hsupported, ?_⟩
  rcases h with hunknown | hstart | hvalid
  · simp [isUnsupported, hunknown] at hsupported
  · rw [hreset] at hstart
    cases hstart
  · exact hvalid

end ShotSim
