import Mathlib.MeasureTheory.Measure.Lebesgue.Basic
import ShotSim.Proofs.QubitMaps
import ShotSim.Proofs.RealScalar
import ShotSim.Proofs.StreamInputs
import ShotSim.Proofs.WovenBlocks

/-!
# Pauli tables — which Pauli a draw brings about

A noise table lists Pauli strings with their probabilities, in any order, in letters of either case,
and a string as often as one likes.  The operation that is made of it keeps one probability for each
code, and a draw is held against their running totals.

* `Spells`, `pauliCode?_eq_some_iff` — the strings that stand for a code;
* `NoiseTable.total`, `pauliProbabilities_pauliOp` — what the strings of some codes amount to;
* `selectFrom_eq_succ_iff` — the draws that select a code;
* `pauli_noise_follows_table` — the Pauli that a step applies, for every draw;
* `overfull_table_never_draws_last` — a table whose last string lies beyond every draw.
-/

namespace ShotSim

variable {R : Type} [Scalar R]

/-! ## Spelling -/

/-- `pauliDigit?` accepts the four Pauli letters in either case. -/
theorem pauliDigit?_eq_some_iff {c : Char} {digit : Nat} :
    pauliDigit? c = some digit ↔ digit < 4 ∧ c.toUpper = pauliLetter digit := by
  constructor
  · intro h
    unfold pauliDigit? at h
    split at h
    case h_5 => cases h
    all_goals
      rename_i hupper
      cases h
      exact ⟨by decide, hupper⟩
  · rintro ⟨hlt, hupper⟩
    rw [pauliDigit?, hupper]
    obtain rfl | rfl | rfl | rfl : digit = 0 ∨ digit = 1 ∨ digit = 2 ∨ digit = 3 := by omega
    all_goals rfl

/-- The letters of a code, first qubit first. -/
def pauliLetters (qubits code : Nat) : List Char :=
  if qubits = 1 then [pauliLetter code] else [pauliLetter (code / 4), pauliLetter (code % 4)]

/-- Whether a string denotes a code, in either case. -/
def Spells (qubits : Nat) (text : String) (code : Nat) : Prop :=
  code < 4 ^ qubits ∧ text.toList.map Char.toUpper = pauliLetters qubits code

instance (qubits : Nat) (text : String) (code : Nat) : Decidable (Spells qubits text code) :=
  inferInstanceAs (Decidable (_ ∧ _))

/-- `pauliCode?` is characterized by `Spells`. -/
theorem pauliCode?_eq_some_iff {qubits : Nat} (hqubits : qubits = 1 ∨ qubits = 2) {text : String}
    {code : Nat} : pauliCode? text qubits = some code ↔ Spells qubits text code := by
  unfold pauliCode? Spells
  generalize text.toList = letters
  rcases hqubits with rfl | rfl
  · match letters with
    | [] | _ :: _ :: _ => simp [pauliLetters]
    | [c] => simp [pauliLetters, pauliFold, pauliDigit?_eq_some_iff]
  · match letters with
    | [] | [_] | _ :: _ :: _ :: _ => simp [pauliLetters]
    | [a, b] =>
        have hfold : pauliFold [a, b] 0 = some code ↔
            ∃ d, pauliDigit? a = some d ∧ ∃ d', pauliDigit? b = some d' ∧ d * 4 + d' = code := by
          simp [pauliFold, Option.bind_eq_some_iff]
        have hletters : [a, b].map Char.toUpper = pauliLetters 2 code ↔
            a.toUpper = pauliLetter (code / 4) ∧ b.toUpper = pauliLetter (code % 4) := by
          simp [pauliLetters]
        have hlength : [a, b].length = 2 := rfl
        rw [if_pos hlength, hfold, hletters]
        simp only [pauliDigit?_eq_some_iff]
        constructor
        · rintro ⟨d, ⟨hd, ha⟩, d', ⟨hd', hb⟩, rfl⟩
          have hdiv : (d * 4 + d') / 4 = d := by omega
          have hmod : (d * 4 + d') % 4 = d' := by omega
          rw [hdiv, hmod]
          exact ⟨by omega, ha, hb⟩
        · rintro ⟨hlt, ha, hb⟩
          exact ⟨code / 4, ⟨by omega, ha⟩, code % 4, ⟨by omega, hb⟩, by omega⟩

/-- The probability table has room for all codes. -/
theorem four_pow_le_pauliCodes {qubits : Nat} (hqubits : qubits = 1 ∨ qubits = 2) :
    4 ^ qubits ≤ pauliCodes := by
  rcases hqubits with rfl | rfl <;> decide

/-- A string spells at most one code. -/
theorem Spells.unique {qubits : Nat} (hqubits : qubits = 1 ∨ qubits = 2) {text : String}
    {code code' : Nat} (h : Spells qubits text code)
    (h' : Spells qubits text code') : code = code' :=
  Option.some.inj
    (((pauliCode?_eq_some_iff hqubits).2 h).symm.trans ((pauliCode?_eq_some_iff hqubits).2 h'))

/-! ## Totals -/

namespace NoiseTable

variable {t : NoiseTable R}

/-- Total probability of the strings of a table that spell one of the given codes. -/
def total (t : NoiseTable R) (codes : List Nat) : R :=
  Scalar.sum (((t.strings.zip t.probabilities).filter fun entry =>
    codes.any fun code => decide (Spells t.qubits entry.1 code)).map (·.2))

theorem total_nil : t.total [] = 0 := by
  simp [total, Scalar.sum]

/-- `total` is additive over distinct codes. -/
theorem total_concat (h : Scalar.AddsExactly R) (hqubits : t.qubits = 1 ∨ t.qubits = 2)
    {codes : List Nat} {code : Nat} (hnew : code ∉ codes) :
    t.total (codes ++ [code]) = t.total codes + t.total [code] := by
  -- A text spells no two codes, so that nothing is counted twice.
  have hapart : ∀ entry : String × R,
      (codes.any fun k => decide (Spells t.qubits entry.1 k)) = true →
      ([code].any fun k => decide (Spells t.qubits entry.1 k)) = false := by
    intro entry hany
    obtain ⟨k, hk, hspells⟩ := List.any_eq_true.1 hany
    have hne : ¬Spells t.qubits entry.1 code := fun hcode =>
      hnew (Spells.unique hqubits (of_decide_eq_true hspells) hcode ▸ hk)
    simpa using hne
  simpa only [total, List.any_append]
    using h.sum_filter_or hapart (·.2) (t.strings.zip t.probabilities)

/-- Codes out of range have total zero. -/
theorem total_eq_zero_of_le {code : Nat} (hcode : 4 ^ t.qubits ≤ code) : t.total [code] = 0 := by
  have hnone : ∀ text, ¬Spells t.qubits text code := fun text hspells => by
    have := hspells.1
    omega
  simp [total, hnone, Scalar.sum]

theorem length_of_validate (h : t.validate = .ok ()) :
    t.strings.length = t.probabilities.length := by
  simp only [validate, bind, Except.bind, throw, throwThe, MonadExceptOf.throw,
    ite_error_eq_ok, ne_eq, not_not] at h
  exact h.1

theorem nonneg_entry (hnonneg : t.Nonneg) {entry : String × R}
    (hentry : entry ∈ t.strings.zip t.probabilities) : Scalar.le 0 entry.2 = true :=
  hnonneg _ (List.of_mem_zip hentry).2

/-- Totals of nonnegative tables are nonnegative. -/
theorem total_nonneg (h : Scalar.OrderLaws R) (hnonneg : t.Nonneg) (codes : List Nat) :
    Scalar.le 0 (t.total codes) = true := by
  let _ := h.commRing
  let _ := h.linearOrder
  have := h.isOrderedAddMonoid
  rw [total, h.sum_eq_sum]
  change (0 : R) ≤ _
  refine List.sum_nonneg fun p hp => ?_
  obtain ⟨entry, hentry, rfl⟩ := List.mem_map.1 hp
  exact nonneg_entry hnonneg (List.mem_filter.1 hentry).1

/-- `total` of any codes is at most the sum of the table. -/
theorem total_le_sum (h : Scalar.OrderLaws R) (hnonneg : t.Nonneg)
    (hlength : t.strings.length = t.probabilities.length) (codes : List Nat) :
    Scalar.le (t.total codes) (Scalar.sum t.probabilities) = true := by
  let _ := h.commRing
  let _ := h.linearOrder
  have := h.isOrderedAddMonoid
  have hkept := List.Sublist.map Prod.snd (List.filter_sublist (l := t.strings.zip t.probabilities)
    (p := fun entry => codes.any fun code => decide (Spells t.qubits entry.1 code)))
  rw [List.map_snd_zip hlength.ge] at hkept
  rw [total, h.sum_eq_sum, h.sum_eq_sum]
  exact List.Sublist.sum_le_sum hkept hnonneg

/-- A table without positive probabilities has all totals zero. -/
theorem total_eq_zero_of_quiet (h : Scalar.OrderLaws R) (hnonneg : t.Nonneg)
    (hquiet : t.hasPauliNoise = false) (codes : List Nat) : t.total codes = 0 := by
  let _ := h.commRing
  let _ := h.linearOrder
  rw [total, h.sum_eq_sum]
  refine List.sum_eq_zero fun p hp => ?_
  obtain ⟨entry, hentry, rfl⟩ := List.mem_map.1 hp
  have hmem := (List.mem_filter.1 hentry).1
  have hlt : ¬Scalar.lt 0 entry.2 = true := List.any_eq_false.1 hquiet _ (List.of_mem_zip hmem).2
  exact le_antisymm (not_lt.1 hlt) (nonneg_entry hnonneg hmem)

/-- `total` of the first `k + 1` codes. -/
theorem total_range_succ (h : Scalar.AddsExactly R) (hqubits : t.qubits = 1 ∨ t.qubits = 2)
    (k : Nat) : t.total (List.range' 1 (k + 1)) = t.total (List.range' 1 k) + t.total [k + 1] := by
  rw [List.range'_1_concat, Nat.add_comm 1 k]
  exact total_concat h hqubits fun hmem => by
    have := (List.mem_range'_1.1 hmem).2
    omega

/-- Entry `code` of the probability table is the total of the strings spelling `code`. -/
theorem getD_probabilityTable (hqubits : t.qubits = 1 ∨ t.qubits = 2) {code : Nat}
    (hcode : code < pauliCodes) : t.probabilityTable.getD code 0 = t.total [code] := by
  have hshare : ∀ entries : List (String × R),
      (((entries.filterMap fun entry => (pauliCode? entry.1 t.qubits).map (·, entry.2)).filter
        (·.1 = code)).map (·.2)) =
      ((entries.filter fun entry => [code].any fun k => decide (Spells t.qubits entry.1 k)).map
        (·.2)) := by
    intro entries
    induction entries with
    | nil => rfl
    | cons entry entries ih =>
        obtain ⟨text, p⟩ := entry
        cases hfound : pauliCode? text t.qubits with
        | none =>
            have hspells : ¬Spells t.qubits text code := by
              simp [← pauliCode?_eq_some_iff hqubits, hfound]
            simpa [hfound, hspells] using ih
        | some k =>
            have hspells : Spells t.qubits text code ↔ k = code := by
              simp [← pauliCode?_eq_some_iff hqubits, hfound]
            by_cases hk : k = code
            · simpa [hfound, hspells, hk] using ih
            · simpa [hfound, hspells, hk] using ih
  rw [probabilityTable, List.getD_eq_getElem?_getD, List.getElem?_map, List.getElem?_range hcode]
  exact congrArg Scalar.sum (hshare _)

end NoiseTable

/-! ## Selecting -/

def Between (a b draw : R) : Prop := Scalar.le a draw = true ∧ Scalar.lt draw b = true

/-- Running totals are monotone. -/
theorem Scalar.OrderLaws.le_of_running (h : Scalar.OrderLaws R) {w c : Nat → R}
    (hw : ∀ k, Scalar.le 0 (w k) = true) (hc : ∀ k, c (k + 1) = c k + w (k + 1)) {i j : Nat}
    (hij : i ≤ j) : Scalar.le (c i) (c j) = true := by
  let _ := h.commRing
  let _ := h.linearOrder
  have := h.isOrderedAddMonoid
  have hmono : Monotone c := monotone_nat_of_le_succ fun k => by
    rw [hc]
    exact le_add_of_nonneg_right (hw _)
  exact hmono hij

/-- `selectFrom` returns the first code whose running total exceeds the draw. -/
theorem selectFrom_eq_succ_iff (h : Scalar.OrderLaws R) {w c : Nat → R}
    (hw : ∀ k, Scalar.le 0 (w k) = true) (hc : ∀ k, c (k + 1) = c k + w (k + 1)) {draw : R}
    (n : Nat) {i : Nat} (hi : Scalar.le (c i) draw = true) (k : Nat) :
    selectFrom draw ((List.range' (i + 1) n).map w) (i + 1) (c i) = k + 1 ↔
      i ≤ k ∧ k < i + n ∧ Between (c k) (c (k + 1)) draw := by
  induction n generalizing i with
  | zero =>
      rw [List.range'_zero, List.map_nil, selectFrom]
      omega
  | succ n ih =>
      let _ := h.linearOrder
      rw [List.range'_succ, List.map_cons, selectFrom, ← hc]
      by_cases hlt : Scalar.lt draw (c (i + 1)) = true
      · -- The draw lies below all later totals.
        rw [if_pos hlt]
        constructor
        · intro hk
          obtain rfl : i = k := by omega
          exact ⟨Nat.le_refl _, by omega, hi, hlt⟩
        · rintro ⟨hik, _, hle, _⟩
          by_contra hne
          have hlater : c (i + 1) ≤ c k := h.le_of_running hw hc (by omega)
          exact not_lt.2 (hlater.trans hle) hlt
      · -- The search goes on from the next total, which the draw has reached.
        have hreached : c (i + 1) ≤ draw := not_lt.1 hlt
        rw [if_neg hlt, ih hreached]
        constructor
        · rintro ⟨hik, hkn, hbetween⟩
          exact ⟨by omega, by omega, hbetween⟩
        · rintro ⟨hik, hkn, hle, hless⟩
          have hne : i ≠ k := by
            rintro rfl
            exact hlt hless
          exact ⟨by omega, by omega, hle, hless⟩

/-! ## The operation of a table -/

namespace NoiseModel

/-- The Pauli operation of a table stores the total of every code. -/
theorem re_get_pauliOp (op : Op R) {t : NoiseTable R} (hqubits : t.qubits = 1 ∨ t.qubits = 2)
    {code : Nat} (hpos : 1 ≤ code) (hlt : code < 4 ^ t.qubits) :
    ((pauliOp op t).coeffs.get code).re = t.total [code] := by
  have hcode : code < pauliCodes := Nat.lt_of_lt_of_le hlt (four_pow_le_pauliCodes hqubits)
  have hcap : code < coeffCapacity := Nat.lt_of_lt_of_le hcode (by decide)
  rw [← NoiseTable.getD_probabilityTable hqubits hcode]
  unfold pauliOp
  dsimp only
  split
  · -- On one qubit the three probabilities are written out.
    rename_i hone
    rw [hone] at hlt
    obtain rfl | rfl | rfl : code = 1 ∨ code = 2 ∨ code = 3 := by omega
    all_goals exact congrArg Cplx.re (Coeffs.get_ofList _ hcap)
  · -- On two the table is copied from code 1 on, behind an entry that is not used.
    obtain ⟨k, rfl⟩ := Nat.exists_eq_add_of_le' hpos
    refine (congrArg Cplx.re (Coeffs.get_ofList _ hcap)).trans ?_
    have hsixteen : 1 + k < 16 := by
      rw [Nat.add_comm]
      exact hcode
    rw [List.getD_cons_succ, List.getD_eq_getElem?_getD, List.getElem?_map, List.getElem?_drop,
      List.getElem?_take_of_lt hsixteen, Nat.add_comm 1 k, List.getD_eq_getElem?_getD]
    cases t.probabilityTable[k + 1]? <;> rfl

/-- The probabilities read back from the Pauli operation are the totals of the codes. -/
theorem pauliProbabilities_pauliOp (op : Op R) {t : NoiseTable R}
    (hqubits : t.qubits = 1 ∨ t.qubits = 2) :
    (pauliOp op t).pauliProbabilities (4 ^ t.qubits) =
      (List.range' 1 (4 ^ t.qubits - 1)).map fun code => t.total [code] := by
  refine List.map_congr_left fun code hcode => ?_
  obtain ⟨hpos, hlt⟩ := List.mem_range'_1.1 hcode
  exact re_get_pauliOp op hqubits hpos (by omega)

/-- The code selected by a draw from the Pauli operation of a table. -/
def selects (op : Op R) (t : NoiseTable R) (draw : R) : Nat :=
  selectPauli ((pauliOp op t).pauliProbabilities (4 ^ t.qubits)) draw

/-- Code `k` is selected iff the draw lies between the running totals before and after `k`. -/
theorem selects_eq_iff (h : Scalar.OrderLaws R) (op : Op R) {t : NoiseTable R}
    (hqubits : t.qubits = 1 ∨ t.qubits = 2) (hnonneg : t.Nonneg) {draw : R}
    (hdraw : Scalar.le 0 draw = true) {k : Nat} (hk : 1 ≤ k) :
    selects op t draw = k ↔
      Between (t.total (List.range' 1 (k - 1))) (t.total (List.range' 1 k)) draw := by
  let _ := h.commRing
  let _ := h.linearOrder
  obtain ⟨k, rfl⟩ := Nat.exists_eq_add_of_le' hk
  have hnone : t.total (List.range' 1 0) = 0 := NoiseTable.total_nil
  have hselects := selectFrom_eq_succ_iff h (w := fun k => t.total [k]) (c :=
    fun k => t.total (List.range' 1 k))
    (fun _ => t.total_nonneg h hnonneg _) (NoiseTable.total_range_succ h.toAddsExactly hqubits)
    (4 ^ t.qubits - 1) (i := 0) (by rw [hnone]; exact hdraw) k
  rw [hnone] at hselects
  rw [selects, selectPauli, pauliProbabilities_pauliOp op hqubits]
  refine hselects.trans ⟨fun hsel => hsel.2.2, fun hbetween => ⟨Nat.zero_le k, ?_, hbetween⟩⟩
  -- A code that no string can spell adds nothing, so that no draw lies there.
  by_contra hroom
  have hnothing : t.total [k + 1] = 0 := NoiseTable.total_eq_zero_of_le (by omega)
  have hsame : t.total (List.range' 1 (k + 1)) = t.total (List.range' 1 k) := by
    rw [NoiseTable.total_range_succ h.toAddsExactly hqubits, hnothing, add_zero]
  rw [hsame] at hbetween
  obtain ⟨hle, hlt⟩ : t.total (List.range' 1 k) ≤ draw ∧ draw < t.total (List.range' 1 k) :=
    hbetween
  exact not_lt.2 hle hlt

/-- No code is selected iff the draw lies in none of the intervals. -/
theorem selects_eq_zero_iff (h : Scalar.OrderLaws R) (op : Op R) {t : NoiseTable R}
    (hqubits : t.qubits = 1 ∨ t.qubits = 2) (hnonneg : t.Nonneg) {draw : R}
    (hdraw : Scalar.le 0 draw = true) :
    selects op t draw = 0 ↔
      ∀ k, 1 ≤ k → ¬Between (t.total (List.range' 1 (k - 1))) (t.total (List.range' 1 k)) draw := by
  constructor
  · intro hzero k hk hbetween
    have := (selects_eq_iff h op hqubits hnonneg hdraw hk).2 hbetween
    omega
  · intro hnone
    by_contra hne
    exact hnone _ (Nat.pos_of_ne_zero hne)
      ((selects_eq_iff h op hqubits hnonneg hdraw (Nat.pos_of_ne_zero hne)).1 rfl)

end NoiseModel

/-! ## Steps -/

def pauliGate (digit q : Nat) : Op R :=
  match digit with
  | 1 => .x q
  | 2 => .y q
  | 3 => .z q
  | _ => .identity q

theorem isGate1_pauliGate (digit q : Nat) : (pauliGate digit q : Op R).IsGate1 := by
  unfold pauliGate
  split
  · exact .x q
  · exact .y q
  · exact .z q
  · exact .identity q

theorem q1_pauliGate (digit q : Nat) : (pauliGate digit q : Op R).q1 = q := by
  unfold pauliGate
  split <;> rfl

/-- The matrix of a Pauli gate is the Pauli matrix. -/
theorem onQubit_pauliGate (h : Scalar.RingLaws R) (digit q : Nat) (amps : Nat → Cplx R) :
    onQubit (pauliGate digit q : Op R).gate q amps = onQubit (pauliMatrix digit) q amps := by
  refine onQubit_congr (fun i hi => ?_) q amps
  have hcap : i < coeffCapacity := Nat.lt_of_lt_of_le hi (by decide)
  match digit with
  | 0 | _ + 4 => rfl
  | 1 | 2 => exact (Coeffs.getD_dense2 _ hi).trans (Coeffs.get_ofList _ hcap)
  | 3 =>
      -- One of the two writes minus one as a complex number, the other negates the complex one.
      let _ := h.commRing
      have hminus : Cplx.ofReal (-1 : R) = -1 := Cplx.ext rfl neg_zero.symm
      have hdiagonal : Coeffs.diagonal [1, Cplx.ofReal (-1 : R)] = .ofList [1, 0, 0, -1] := by
        rw [hminus]
        simp [Coeffs.diagonal, List.range_succ]
      exact (Coeffs.getD_dense2 _ hi).trans
        ((congrArg (·.get i) hdiagonal).trans (Coeffs.get_ofList _ hcap))

/-- The operands of the Pauli operation of a table. -/
theorem qubits_pauliOp (op : Op R) (t : NoiseTable R) :
    (NoiseModel.pauliOp op t).qubits = if t.qubits = 1 then [op.q1] else [op.q1, op.q2] := by
  unfold NoiseModel.pauliOp
  dsimp only
  split <;> rfl

theorem q1_pauliOp (op : Op R) (t : NoiseTable R) : (NoiseModel.pauliOp op t).q1 = op.q1 := by
  unfold NoiseModel.pauliOp
  dsimp only
  split <;> rfl

theorem q2_pauliOp (op : Op R) {t : NoiseTable R} (hmany : t.qubits ≠ 1) :
    (NoiseModel.pauliOp op t).q2 = op.q2 := by
  unfold NoiseModel.pauliOp
  dsimp only
  rw [if_neg hmany]
  rfl

theorem isResetAll_pauliOp (op : Op R) (t : NoiseTable R) :
    (NoiseModel.pauliOp op t).isResetAll = false := by
  unfold NoiseModel.pauliOp
  dsimp only
  split <;> rfl

def pauliEntries (qubits code : Nat) : List (Cplx R) :=
  if qubits = 1 then pauliMatrix code else tensor (pauliMatrix (code / 4)) (pauliMatrix (code % 4))

/-- The Pauli operation of a table resolves to the matrix of the selected code, or to no step. -/
theorem Register.decision_resolve_of_pauliOp {r : Register R} {job : Job R} {op : Op R}
    {t : NoiseTable R} (hqubits : t.qubits = 1 ∨ t.qubits = 2)
    (hvalid : validQubits job.batch.qubits (NoiseModel.pauliOp op t).qubits = true)
    (hpresent : (NoiseModel.pauliOp op t).qubits.any r.shot.isLost = false) (opIdx : Nat) :
    (r.resolve job (NoiseModel.pauliOp op t) opIdx).shot.decision =
      (if NoiseModel.selects op t r.shot.draws.pauli = 0 then r.shot
        else r.shot.inject t.qubits
          (pauliEntries t.qubits (NoiseModel.selects op t r.shot.draws.pauli))).decision := by
  have hcode : (NoiseModel.pauliOp op t).code = if t.qubits = 1 then .pauli1 else .pauli2 := by
    unfold NoiseModel.pauliOp
    dsimp only
    split <;> rfl
  have hdecay : (NoiseModel.pauliOp op t).code.takesDecay = false := by
    rw [hcode]
    split <;> rfl
  have hknown :
      (!(NoiseModel.pauliOp op t).code.isKnown || (NoiseModel.pauliOp op t).code = .injected) =
        false := by
    rw [hcode]
    split <;> rfl
  unfold resolve NoiseModel.selects
  rw [if_neg (by simp [hknown]), if_neg (by simp [hvalid]), hpresent]
  dsimp only
  rw [Shot.decision_accrue, hdecay, Bool.and_false, if_neg Bool.false_ne_true, select, hcode]
  rcases hqubits with hone | htwo
  · rw [hone]
    rfl
  · rw [htwo]
    rfl

theorem length_pauliEntries {qubits : Nat} (hqubits : qubits = 1 ∨ qubits = 2) (code : Nat) :
    (pauliEntries qubits code : List (Cplx R)).length = 4 ^ qubits := by
  rcases hqubits with rfl | rfl
  · match code with
    | 0 | 1 | 2 | 3 | _ + 4 => rfl
  · exact List.length_map _

theorem Shot.get_scratch_inject (s : Shot R) (arity : Nat) {entries : List (Cplx R)} {i : Nat}
    (hi : i < entries.length) (hcap : i < coeffCapacity) :
    (s.inject arity entries).scratch.get i = entries.getD i 0 := by
  rw [List.getD_eq_getElem _ _ hi]
  exact get_overlay _ (List.getElem?_eq_getElem hi) hcap

/-- The Paulis of a code, each on its own qubit. -/
def onPaulis (qubits : Nat) (op : Op R) (code : Nat) (amps : Nat → Cplx R) : Nat → Cplx R :=
  if qubits = 1 then onQubit (pauliMatrix code) op.q1 amps
  else onQubit (pauliMatrix (code / 4)) op.q1 (onQubit (pauliMatrix (code % 4)) op.q2 amps)

/-- Code 0 is the identity. -/
theorem onPaulis_zero (h : Scalar.RingLaws R) (qubits : Nat) (op : Op R) (amps : Nat → Cplx R) :
    onPaulis qubits op 0 amps = amps := by
  have hidentity : ∀ q amps, onQubit (pauliMatrix 0 : List (Cplx R)) q amps = amps :=
    onQubit_identity h
  unfold onPaulis
  split
  · exact hidentity _ _
  · exact (hidentity _ _).trans (hidentity _ _)

namespace Lane

/-- Executes the gates of a code, one on each operand, on amplitudes rescaled by `factor`. -/
def carryOutPaulis (lane : Lane R) (job : Job R) (qubits : Nat) (op : Op R) (code : Nat)
    (factor : R) : Lane R :=
  if qubits = 1 then lane.carryOut job (pauliGate code op.q1) factor
  else (lane.carryOut job (pauliGate (code % 4) op.q2) factor).carryOut job
    (pauliGate (code / 4) op.q1) 1

section Execute

variable (h : Scalar.RingLaws R) {job : Job R} {e w : Nat} (ht : job.layout.Tiled e w)

include h ht

/-- A Pauli gate acts as its matrix on its qubit. -/
theorem shows_carryOut_pauliGate {q : Nat} (hq : q < job.layout.qubitCount) {lane : Lane R}
    {amps : Nat → Cplx R} (hshows : Shows lane.block job.layout.entriesPerShot amps) (digit : Nat)
    (factor : R) :
    Shows (lane.carryOut job (pauliGate digit q) factor).block job.layout.entriesPerShot
      (onQubit (pauliMatrix digit) q fun i => (amps i).scale factor) := by
  have hgate :=
    shows_carryOut h ht (isGate1_pauliGate digit q) (by rw [q1_pauliGate]; exact hq) hshows factor
  rwa [q1_pauliGate, onQubit_pauliGate h] at hgate

/-- The Pauli gates of a code, in sequence, act as its Paulis. -/
theorem shows_carryOutPaulis {op : Op R} {qubits : Nat} (hq1 : op.q1 < job.layout.qubitCount)
    (hq2 : qubits ≠ 1 → op.q2 < job.layout.qubitCount) {lane : Lane R} {amps : Nat → Cplx R}
    (hshows : Shows lane.block job.layout.entriesPerShot amps) (code : Nat) (factor : R) :
    Shows (lane.carryOutPaulis job qubits op code factor).block job.layout.entriesPerShot
      (onPaulis qubits op code fun i => (amps i).scale factor) := by
  unfold carryOutPaulis onPaulis
  split
  · exact shows_carryOut_pauliGate h ht hq1 hshows code factor
  · rename_i hmany
    have hfirst := shows_carryOut_pauliGate h ht (hq2 hmany) hshows (code % 4) factor
    have hsecond := shows_carryOut_pauliGate h ht hq1 hfirst (code / 4) 1
    simp only [Cplx.scale_one h.mul_one] at hsecond
    exact hsecond

/-- An injected matrix of a code acts as the Paulis of the code. -/
theorem shows_execute_of_paulis {op : Op R} {qubits : Nat} (hqubits : qubits = 1 ∨ qubits = 2)
    {lane : Lane R} {amps : Nat → Cplx R} (hshows : Shows lane.block job.layout.entriesPerShot amps)
    (hplaced : lane.shot.Placed (job.current lane.shot) job.layout.qubitCount)
    (hselected : lane.shot.selected = .injected) (harity : lane.shot.injectedArity = qubits)
    {code : Nat} (hscratch : ∀ i < 4 ^ qubits,
      lane.shot.scratch.get i = (pauliEntries qubits code : List (Cplx R)).getD i 0)
    (hlt : op.q1 < job.layout.qubitCount) (hq1 : (job.current lane.shot).q1 = op.q1)
    (hq2 : qubits ≠ 1 → (job.current lane.shot).q2 = op.q2) :
    Shows (lane.execute job).block job.layout.entriesPerShot
      (onPaulis qubits op code fun i => (amps i).scale lane.shot.renormalize) := by
  rcases hqubits with rfl | rfl
  · have hstep :=
      shows_execute_of_injected1 h ht hshows (by rw [hq1]; exact hlt) hselected harity hscratch
    rw [hq1] at hstep
    exact hstep
  · have hstep := shows_execute_of_injected2 h ht hshows hplaced hselected harity hscratch
    rw [hq1, hq2 (by decide)] at hstep
    exact hstep

/-- The amplitudes after a step with the Pauli operation of a table. -/
theorem shows_step_of_pauliOp {op : Op R} {t : NoiseTable R} (hqubits : t.qubits = 1 ∨ t.qubits = 2)
    (hroom : job.batch.qubits ≤ job.layout.qubitCount) (hq1 : op.q1 < job.layout.qubitCount)
    {lane : Lane R} {amps : Nat → Cplx R} (hshows : Shows lane.block job.layout.entriesPerShot amps)
    (hthis : job.ops[lane.shot.nextOp]? = some (NoiseModel.pauliOp op t)) {shotIdx : Nat}
    (hdecision : (lane.prepare job shotIdx).shot.decision =
      (if NoiseModel.selects op t (lane.ready job).draws.pauli = 0 then lane.ready job
        else (lane.ready job).inject t.qubits
          (pauliEntries t.qubits
            (NoiseModel.selects op t (lane.ready job).draws.pauli))).decision) :
    Shows (lane.step job shotIdx).block job.layout.entriesPerShot
      (onPaulis t.qubits op (NoiseModel.selects op t (lane.ready job).draws.pauli)
        fun i => (amps i).scale (lane.ready job).renormalize) := by
  let prepared := lane.prepare job shotIdx
  generalize NoiseModel.selects op t (lane.ready job).draws.pauli = code at hdecision
  obtain ⟨hprepared, hcurrent, hscale⟩ :=
    shows_prepare hthis (isResetAll_pauliOp op t) hshows shotIdx
  have hplaced : prepared.shot.Placed (job.current prepared.shot) job.layout.qubitCount :=
    placed_prepare lane job shotIdx hroom
  rw [← hscale]
  by_cases hzero : code = 0
  · -- Nothing is selected, and the step only rescales.
    rw [if_pos hzero] at hdecision
    have hid : prepared.shot.selected = .id := congrArg (·.1) hdecision
    rw [hzero, onPaulis_zero h]
    exact shows_execute_of_scaleOnly ht hprepared (Shot.mode_of_id hid)
  · rw [if_neg hzero] at hdecision
    have hselected : prepared.shot.selected = .injected := congrArg (·.1) hdecision
    have harity : prepared.shot.injectedArity = t.qubits := congrArg (·.2.1) hdecision
    have hscratch : ∀ i < 4 ^ t.qubits,
        prepared.shot.scratch.get i = (pauliEntries t.qubits code : List (Cplx R)).getD i 0 := by
      intro i hi
      have hcap : i < coeffCapacity :=
        Nat.lt_of_lt_of_le hi ((four_pow_le_pauliCodes hqubits).trans (by decide))
      have hsame :
          prepared.shot.scratch =
            ((lane.ready job).inject t.qubits (pauliEntries t.qubits code)).scratch :=
        congrArg (·.2.2.1) hdecision
      rw [hsame]
      exact Shot.get_scratch_inject _ _ (by rw [length_pauliEntries hqubits]; exact hi) hcap
    exact shows_execute_of_paulis h ht hqubits hprepared hplaced hselected harity hscratch hq1
      (hcurrent.symm ▸ q1_pauliOp op t) fun hmany => hcurrent.symm ▸ q2_pauliOp op hmany

/-- A step with the Pauli operation of a table equals the gates of the selected code. -/
theorem step_of_pauliOp {op : Op R} {t : NoiseTable R} (hqubits : t.qubits = 1 ∨ t.qubits = 2)
    (hroom : job.batch.qubits ≤ job.layout.qubitCount) {lane : Lane R}
    (hblock : lane.block.size = job.layout.entriesPerShot)
    (hthis : job.ops[lane.shot.nextOp]? = some (NoiseModel.pauliOp op t))
    (hok : lane.shot.status = .ok)
    (hvalid : validQubits job.batch.qubits (NoiseModel.pauliOp op t).qubits = true)
    (hpresent : (NoiseModel.pauliOp op t).qubits.any lane.shot.isLost = false) (shotIdx : Nat) :
    (lane.prepare job shotIdx).shot.selected =
        (if NoiseModel.selects op t (lane.ready job).draws.pauli = 0 then .id else .injected) ∧
      (lane.step job shotIdx).block = (lane.carryOutPaulis job t.qubits op
        (NoiseModel.selects op t (lane.ready job).draws.pauli)
          (lane.ready job).renormalize).block := by
  have hlost : (lane.ready job).isLost = lane.shot.isLost := funext fun q => lane.isLost_ready job q
  have hdecision := (prepare_of_ok hthis (isResetAll_pauliOp op t) hok shotIdx).1.trans
    (Register.decision_resolve_of_pauliOp (r := ⟨lane.ready job, lane.slots⟩) hqubits hvalid
      (by rw [hlost]; exact hpresent) _)
  have hlt : ∀ q ∈ (NoiseModel.pauliOp op t).qubits, q < job.layout.qubitCount := fun q hq =>
    Nat.lt_of_lt_of_le (lt_of_validQubits hvalid q hq) hroom
  rw [qubits_pauliOp] at hlt
  have hq1 : op.q1 < job.layout.qubitCount := hlt _ (by split <;> exact List.mem_cons_self)
  have hq2 : t.qubits ≠ 1 → op.q2 < job.layout.qubitCount := fun hmany => hlt _ (by simp [hmany])
  refine ⟨?_, ?_⟩
  · have hselected := congrArg (·.1) hdecision
    refine hselected.trans ?_
    dsimp only
    split <;> rfl
  · have hshows := Shows.of_size hblock
    exact (shows_step_of_pauliOp h ht hqubits hroom hq1 hshows hthis hdecision).eq
      (shows_carryOutPaulis h ht hq1 hq2 hshows _ _)

end Execute

end Lane

/-! ## Noise that goes with an operation -/

/-- The noise of an operation: its Pauli operation if any total is positive, then losses. -/
theorem ownNoise_eq (h : Scalar.OrderLaws R) (m : NoiseModel R) {op : Op R} {site : NoiseSite}
    (hsite : NoiseSite.ofCode? op.code = some site) :
    op.ownNoise (some m) =
      (if (m.table site).hasPauliNoise then [NoiseModel.pauliOp op (m.table site)] else []) ++
        NoiseModel.lossOps op (m.table site) := by
  let _ := h.linearOrder
  have hzero : ¬Scalar.lt (0 : R) 0 = true := lt_irrefl (0 : R)
  rw [Op.ownNoise, Option.bind_some, NoiseModel.noiseOps?, NoiseModel.tableFor?, hsite,
    Option.bind_some]
  dsimp only
  split
  · -- A table without noise has neither strings that count nor loss.
    rename_i hnoiseless
    rw [NoiseTable.isNoiseless, Bool.and_eq_true] at hnoiseless
    have hquiet : ¬(m.table site).hasPauliNoise = true := by
      intro hnoise
      obtain ⟨p, hp, hpos⟩ := List.any_eq_true.1 hnoise
      rw [h.eq_of_beq (List.all_eq_true.1 hnoiseless.1 p hp)] at hpos
      exact hzero hpos
    rw [if_neg hquiet, NoiseModel.lossOps, h.eq_of_beq hnoiseless.2, if_neg hzero]
    rfl
  · rfl

/-- A probability of events for which draws are uniform on `[0, 1)`. -/
def EvenlySpread (prob : (R → Prop) → R) : Prop :=
  ∀ a b, Scalar.le 0 a = true → Scalar.le a b = true → Scalar.le b 1 = true →
    prob (Between a b) = b - a

/-- Lebesgue measure on `[0, 1)` is evenly spread. -/
theorem evenlySpread_volume :
    EvenlySpread fun p : ℝ → Prop => (MeasureTheory.volume {draw | p draw}).toReal := by
  intro a b _ hab _
  have hset : {draw | Between a b draw} = Set.Ico a b := by
    ext draw
    simp [Between, Scalar.le, Scalar.lt]
  have hle : a ≤ b := of_decide_eq_true hab
  dsimp only
  rw [hset, Real.volume_Ico, ENNReal.toReal_ofReal (sub_nonneg.2 hle)]

section Probability

variable (h : Scalar.OrderLaws R) {prob : (R → Prop) → R} (hprob : EvenlySpread prob) (op : Op R)
  {t : NoiseTable R} (hqubits : t.qubits = 1 ∨ t.qubits = 2) (hnonneg : t.Nonneg) {k : Nat}
  (hk : 1 ≤ k)

include h hprob hqubits hnonneg hk

/-- A code is selected with the length of its interval within `[0, 1)`. -/
theorem EvenlySpread.prob_selects :
    prob (fun draw => Between 0 1 draw ∧ NoiseModel.selects op t draw = k) =
      Scalar.min (t.total (List.range' 1 k)) 1 -
        Scalar.min (t.total (List.range' 1 (k - 1))) 1 := by
  let _ := h.commRing
  let _ := h.linearOrder
  have := h.isOrderedAddMonoid
  have hnonneg' : ∀ codes, (0 : R) ≤ t.total codes := t.total_nonneg h hnonneg
  have hone : (0 : R) ≤ 1 := h.zero_le_one
  have hgrows : t.total (List.range' 1 (k - 1)) ≤ t.total (List.range' 1 k) := by
    obtain ⟨k, rfl⟩ := Nat.exists_eq_add_of_le' hk
    rw [Nat.add_sub_cancel, NoiseTable.total_range_succ h.toAddsExactly hqubits k]
    exact le_add_of_nonneg_right (hnonneg' _)
  -- Within `[0, 1)` the draws that select `k` are its interval, cut off at one.
  have hdraws : (fun draw => Between 0 1 draw ∧ NoiseModel.selects op t draw = k) =
      Between (min (t.total (List.range' 1 (k - 1))) 1) (min (t.total (List.range' 1 k)) 1) := by
    funext draw
    refine propext ⟨?_, ?_⟩
    · rintro ⟨hunit, hsel⟩
      obtain ⟨hle, hlt⟩ := (NoiseModel.selects_eq_iff h op hqubits hnonneg hunit.1 hk).1 hsel
      exact ⟨le_trans (min_le_left (t.total _) 1) hle, lt_min (b := t.total _) hlt hunit.2⟩
    · rintro ⟨hle, hlt⟩
      obtain ⟨hbelow, hunit⟩ : draw < t.total (List.range' 1 k) ∧ draw < 1 := lt_min_iff.1 hlt
      have hreached : t.total (List.range' 1 (k - 1)) ≤ draw :=
        (min_le_iff.1 hle).resolve_right (not_le.2 hunit)
      have hdraw : 0 ≤ draw := (hnonneg' _).trans hreached
      exact ⟨⟨hdraw, hunit⟩,
        (NoiseModel.selects_eq_iff h op hqubits hnonneg hdraw hk).2 ⟨hreached, hbelow⟩⟩
  rw [hdraws]
  exact hprob _ _ (le_min (hnonneg' _) hone) (min_le_min_right 1 hgrows)
    (min_le_right (t.total _) 1)

/-- If its interval ends by one, a code is selected with its total probability. -/
theorem EvenlySpread.prob_selects_of_le (hone : Scalar.le (t.total (List.range' 1 k)) 1 = true) :
    prob (fun draw => Between 0 1 draw ∧ NoiseModel.selects op t draw = k) = t.total [k] := by
  let _ := h.commRing
  let _ := h.linearOrder
  have := h.isOrderedAddMonoid
  obtain ⟨k, rfl⟩ := Nat.exists_eq_add_of_le' hk
  have hstep : t.total (List.range' 1 (k + 1)) = t.total (List.range' 1 k) + t.total [k + 1] :=
    NoiseTable.total_range_succ h.toAddsExactly hqubits k
  have hbefore : t.total (List.range' 1 k) ≤ 1 := by
    refine le_trans ?_ hone
    rw [hstep]
    exact le_add_of_nonneg_right (t.total_nonneg h hnonneg _)
  have hlength := hprob.prob_selects h op hqubits hnonneg hk
  have hend : Scalar.min (t.total (List.range' 1 (k + 1))) 1 = t.total (List.range' 1 (k + 1)) :=
    min_eq_left hone
  have hstart : Scalar.min (t.total (List.range' 1 k)) 1 = t.total (List.range' 1 k) :=
    min_eq_left hbefore
  rw [hlength, Nat.add_sub_cancel, hend, hstart, hstep, add_sub_cancel_left]

end Probability

theorem NoiseSite.qubits_eq_one_or_two (site : NoiseSite) : site.qubits = 1 ∨ site.qubits = 2 := by
  cases site <;> simp [qubits]

/-- The Pauli operation of a table of the right width has the operands of its operation. -/
theorem qubits_pauliOp_eq {op : Op R} {t : NoiseTable R} (hqubits : t.qubits = 1 ∨ t.qubits = 2)
    (harity : t.qubits = op.code.arity) : (NoiseModel.pauliOp op t).qubits = op.qubits := by
  rw [qubits_pauliOp, Op.qubits, ← harity]
  rcases hqubits with hone | htwo
  · rw [hone]
    rfl
  · rw [htwo]
    rfl

/-- Pauli noise follows the table of its operation. The Pauli noise of an operation is a single
operation, and is missing only if all totals of the table are zero. A draw selects code `k` iff it
lies in `[c (k - 1), c k)`, where `c k` is the total probability of the codes `1..k`, and no code
iff it lies in none of these intervals. Draws uniform on `[0, 1)` select code `k` with probability
`min (c k) 1 - min (c (k - 1)) 1`, which is the total probability of `k` if `c k ≤ 1`. A step
applies the gates of the selected code, each on its own qubit. -/
theorem pauli_noise_follows_table (h : Scalar.OrderLaws R) {m : NoiseModel R}
    (hm : m.validate = .ok ()) {op : Op R} {site : NoiseSite}
    (hsite : NoiseSite.ofCode? op.code = some site) :
    let t := m.table site
    let noisy := NoiseModel.pauliOp op t
    let upTo := fun k => t.total (List.range' 1 k)
    ((t.hasPauliNoise = true → noisy ∈ op.ownNoise (some m)) ∧
      (∀ other ∈ op.ownNoise (some m), other.code = .pauli1 ∨ other.code = .pauli2 →
        other = noisy) ∧
      (t.hasPauliNoise = false → ∀ k, upTo k = 0)) ∧
    (∀ draw, Scalar.le 0 draw = true →
      (∀ k, 1 ≤ k → (NoiseModel.selects op t draw = k ↔ Between (upTo (k - 1)) (upTo k) draw)) ∧
      (NoiseModel.selects op t draw = 0 ↔ ∀ k, 1 ≤ k → ¬Between (upTo (k - 1)) (upTo k) draw)) ∧
    (∀ k, Scalar.le (upTo k) (Scalar.sum t.probabilities) = true) ∧
    (∀ prob, EvenlySpread prob → ∀ k, 1 ≤ k →
      let chosen := prob fun draw => Between 0 1 draw ∧ NoiseModel.selects op t draw = k
      chosen = Scalar.min (upTo k) 1 - Scalar.min (upTo (k - 1)) 1 ∧
        (Scalar.le (upTo k) 1 = true → chosen = t.total [k])) ∧
    ∀ (job : Job R) (lane : Lane R) (shotIdx n w : Nat),
      minQubitsPerWorkgroup ≤ w → w ≤ maxQubitsPerWorkgroup →
      job.layout = .ofCircuit n w → job.batch.qubits ≤ job.layout.qubitCount →
      lane.block.size = job.layout.entriesPerShot → job.ops[lane.shot.nextOp]? = some noisy →
      lane.shot.status = .ok → validQubits job.batch.qubits op.qubits = true →
      op.qubits.any lane.shot.isLost = false →
      let code := NoiseModel.selects op t (lane.ready job).draws.pauli
      (lane.prepare job shotIdx).shot.selected = (if code = 0 then .id else .injected) ∧
        (lane.step job shotIdx).block =
          (lane.carryOutPaulis job t.qubits op code (lane.ready job).renormalize).block := by
  intro t noisy upTo
  have hchecked : t.validate = .ok () := NoiseModel.table_of_validate hm site
  have hnonneg : t.Nonneg := NoiseTable.nonneg_of_validate hchecked
  have hsame : t.qubits = site.qubits := NoiseModel.qubits_of_validate hm site
  have hqubits : t.qubits = 1 ∨ t.qubits = 2 := hsame ▸ site.qubits_eq_one_or_two
  have harity : t.qubits = op.code.arity := hsame.trans (NoiseSite.qubits_eq_arity hsite)
  refine ⟨⟨?_, ?_, fun hquiet k => t.total_eq_zero_of_quiet h hnonneg hquiet _⟩, fun draw hdraw =>
    ⟨fun k hk => NoiseModel.selects_eq_iff h op hqubits hnonneg hdraw hk,
      NoiseModel.selects_eq_zero_iff h op hqubits hnonneg hdraw⟩,
    fun k => t.total_le_sum h hnonneg (NoiseTable.length_of_validate hchecked) _,
    fun prob hprob k hk => ⟨hprob.prob_selects h op hqubits hnonneg hk,
      hprob.prob_selects_of_le h op hqubits hnonneg hk⟩, ?_⟩
  · intro hnoise
    rw [ownNoise_eq h m hsite, if_pos hnoise]
    exact List.mem_append_left _ (List.mem_singleton.2 rfl)
  · intro other hother hcode
    rw [ownNoise_eq h m hsite] at hother
    rcases List.mem_append.1 hother with hpauli | hloss
    · split at hpauli
      · exact List.mem_singleton.1 hpauli
      · cases hpauli
    · -- Loss comes with identities and losses alone.
      rcases code_of_mem_lossOps hloss with hid | hlost
      · simp [hid] at hcode
      · simp [hlost] at hcode
  · intro job lane shotIdx n w hmin hmax hlayout hroom hblock hthis hok hvalid hpresent
    obtain ⟨e, v, htiled⟩ := Layout.exists_tiled_ofCircuit n hmin hmax
    have ht : job.layout.Tiled e v := hlayout ▸ htiled
    rw [← qubits_pauliOp_eq hqubits harity] at hvalid hpresent
    exact Lane.step_of_pauliOp h.toRingLaws ht hqubits hroom hblock hthis hok hvalid
      hpresent shotIdx

/-- Sufficient conditions for a real table to be valid. -/
theorem NoiseTable.validate_of_bounds {t : NoiseTable ℝ}
    (hlength : t.strings.length = t.probabilities.length)
    (hcodes : t.strings.find? (fun text => (pauliCode? text t.qubits).isNone) = none)
    (hprobabilities : ∀ p ∈ t.probabilities, 0 ≤ p ∧ p ≤ 1)
    (hsum : t.probabilities.sum ≤ 1 + Scalar.epsilon) (hloss : t.loss = 0) :
    t.validate = .ok () := by
  have hprobability : ∀ p : ℝ, 0 ≤ p ∧ p ≤ 1 → (!isProbability p) = false := by
    rintro p ⟨hnonneg, hone⟩
    simp [isProbability, Scalar.within, Scalar.isFinite, Scalar.le, hnonneg, hone]
  have hnone : t.probabilities.find? (fun p => !isProbability p) = none :=
    List.find?_eq_none.2 fun p hp => by simp [hprobability p (hprobabilities p hp)]
  have htotal : ¬Scalar.lt (1 + Scalar.epsilon) (Scalar.sum t.probabilities) = true := by
    rw [addsExactly_real.sum_eq_sum]
    simpa [Scalar.lt] using hsum
  rw [validate, if_neg (not_not_intro hlength), hcodes, hnone, if_neg htotal, hloss,
    hprobability 0 ⟨le_rfl, zero_le_one⟩]
  rfl

/-- A model with valid tables of the right widths is valid. -/
theorem NoiseModel.validate_of_tables {m : NoiseModel R}
    (h : ∀ site, (m.table site).qubits = site.qubits ∧ (m.table site).validate = .ok ()) :
    m.validate = .ok () := by
  have hsite : ∀ site, m.validateSite site = .ok () := by
    intro site
    rw [validateSite, if_neg (not_not_intro (h site).1), (h site).2]
    rfl
  rw [validate, funext hsite]
  rfl

noncomputable def mixedTable (qubits : Nat) (strings : List String) : NoiseTable ℝ :=
  ⟨qubits, strings, [8, 4, 8, 2].map fun n => (Scalar.ofNat n)⁻¹, 0⟩

noncomputable def mixedModel : NoiseModel ℝ where
  table site :=
    if site.qubits = 1 then mixedTable 1 ["x", "I", "X", "y"]
    else mixedTable 2 ["xZ", "iI", "Xz", "yy"]

theorem validate_mixedModel : mixedModel.validate = .ok () := by
  have htable : ∀ {qubits : Nat} {strings : List String}, strings.length = 4 →
      strings.find? (fun text => (pauliCode? text qubits).isNone) = none →
        (mixedTable qubits strings).validate = .ok () := fun hlength hcodes =>
    NoiseTable.validate_of_bounds hlength hcodes (by norm_num [mixedTable, Scalar.ofNat])
      (by norm_num [mixedTable, Scalar.ofNat, Scalar.epsilon]) rfl
  refine NoiseModel.validate_of_tables fun site => ?_
  rcases site.qubits_eq_one_or_two with hone | htwo
  · have hsite : mixedModel.table site = mixedTable 1 ["x", "I", "X", "y"] := if_pos hone
    rw [hsite, hone]
    exact ⟨rfl, htable rfl (by decide)⟩
  · have hsite : mixedModel.table site = mixedTable 2 ["xZ", "iI", "Xz", "yy"] :=
      if_neg (by omega)
    rw [hsite, htwo]
    exact ⟨rfl, htable rfl (by decide)⟩

/-- Totals of the table with `xZ` and `Xz` at an eighth each. -/
theorem total_mixedTable (codes : List Nat)
    (hcodes : (["xZ", "iI", "Xz", "yy"].map fun text =>
      codes.any fun k => decide (Spells 2 text k)) = [true, false, true, false]) :
    (mixedTable 2 ["xZ", "iI", "Xz", "yy"]).total codes = 4⁻¹ := by
  have hkept : ∀ keep : String → Bool,
      ["xZ", "iI", "Xz", "yy"].map keep = [true, false, true, false] →
      Scalar.sum (((["xZ", "iI", "Xz", "yy"].zip
        ([8, 4, 8, 2].map fun n => (Scalar.ofNat n : ℝ)⁻¹)).filter
          fun entry => keep entry.1).map (·.2)) = 4⁻¹ := by
    intro keep hkeep
    simp only [List.map_cons, List.map_nil, List.cons.injEq, and_true] at hkeep
    norm_num [hkeep, Scalar.ofNat, Scalar.sum]
  exact hkept _ hcodes

noncomputable def mixedJob : Job ℝ where
  ops := #[NoiseModel.pauliOp (.cx 0 1) (mixedTable 2 ["xZ", "iI", "Xz", "yy"])]
  batch := ⟨0, 0, 1, 10, 0⟩
  idle := 0
  layout := .ofCircuit 10 8
  resultCount := 0

noncomputable def mixedLane : Lane ℝ :=
  { Lane.blank (.ofCircuit 10 8) 0 0 with block := Array.replicate 1024 1 }

/-- Two strings spelling the same code with probability `1/8` each give it `1/4`. -/
theorem pauli_noise_follows_mixed_table :
    (MeasureTheory.volume {draw : ℝ | Between 0 1 draw ∧
      NoiseModel.selects (.cx 0 1) (mixedTable 2 ["xZ", "iI", "Xz", "yy"]) draw = 7}).toReal = 4⁻¹ ∧
    (mixedLane.step mixedJob 0).block = (mixedLane.carryOutPaulis mixedJob 2 (.cx 0 1)
      (NoiseModel.selects (.cx 0 1) (mixedTable 2 ["xZ", "iI", "Xz", "yy"])
        (mixedLane.ready mixedJob).draws.pauli)
      (mixedLane.ready mixedJob).renormalize).block := by
  have hsite : NoiseSite.ofCode? (Op.cx 0 1 : Op ℝ).code = some .cx := rfl
  have htable : mixedModel.table .cx = mixedTable 2 ["xZ", "iI", "Xz", "yy"] := rfl
  obtain ⟨_, _, _, hprob, hstep⟩ :=
    pauli_noise_follows_table orderLaws_real validate_mixedModel hsite
  rw [htable] at hprob hstep
  have hbelow : Scalar.le ((mixedTable 2 ["xZ", "iI", "Xz", "yy"]).total (List.range' 1 7)) 1 =
      true := by
    rw [total_mixedTable _ (by decide)]
    norm_num [Scalar.le]
  refine ⟨?_, ?_⟩
  · have hchosen := (hprob _ evenlySpread_volume 7 (by decide)).2 hbelow
    exact hchosen.trans (total_mixedTable _ (by decide))
  · exact (hstep mixedJob mixedLane 0 10 8 (by decide) (by decide) rfl (by decide)
      (Array.size_replicate ..) rfl rfl (by decide) rfl).2

/-! ## Tables that add up to more than one -/

/-- The generator draws from `[0, 1)`. -/
theorem between_fraction (g : Rng) : Between 0 1 (g.fraction : ℝ) := by
  have hword : (g.output >>> 8).toNat < 16777216 := by
    have hbits := g.output.toNat_lt
    rw [UInt32.toNat_shiftRight, Nat.shiftRight_eq_div_pow]
    change g.output.toNat / 2 ^ 8 < 16777216
    omega
  have hcount : ((g.output >>> 8).toNat : ℝ) < 16777216 := by exact_mod_cast hword
  have hfraction : (g.fraction : ℝ) = (g.output >>> 8).toNat * (1 / 16777216) := by
    simp [Rng.fraction, Scalar.ofNat]
  have hle : (0 : ℝ) ≤ (g.output >>> 8).toNat * (1 / 16777216) := by positivity
  have hlt : ((g.output >>> 8).toNat : ℝ) * (1 / 16777216) < 1 := by linarith
  rw [hfraction]
  exact ⟨decide_eq_true hle, decide_eq_true hlt⟩

noncomputable def overfullTable : NoiseTable ℝ := ⟨1, ["X", "Y"], [1, Scalar.epsilon], 0⟩

/-- Noise after `X` with the largest sum that validation accepts. -/
noncomputable def overfullModel : NoiseModel ℝ where
  table site := if site = .x then overfullTable else .noiseless site.qubits

theorem validate_overfullModel : overfullModel.validate = .ok () := by
  refine NoiseModel.validate_of_tables fun site => ?_
  by_cases hsite : site = .x
  · have htable : overfullModel.table site = overfullTable := if_pos hsite
    rw [htable, hsite]
    exact ⟨rfl, NoiseTable.validate_of_bounds rfl (by decide)
      (by norm_num [overfullTable, Scalar.epsilon]) (by norm_num [overfullTable, Scalar.epsilon])
      rfl⟩
  · have htable : overfullModel.table site = .noiseless site.qubits := if_neg hsite
    rw [htable]
    exact ⟨rfl, NoiseTable.validate_of_bounds rfl rfl (by simp [NoiseTable.noiseless])
      (by norm_num [NoiseTable.noiseless, Scalar.epsilon]) rfl⟩

theorem total_overfullTable (codes : List Nat) {x y : Bool}
    (hcodes : (["X", "Y"].map fun text => codes.any fun k => decide (Spells 1 text k)) = [x, y]) :
    overfullTable.total codes = (if x then 1 else 0) + if y then Scalar.epsilon else 0 := by
  have hkept : ∀ keep : String → Bool, ["X", "Y"].map keep = [x, y] →
      Scalar.sum (((["X", "Y"].zip [1, (Scalar.epsilon : ℝ)]).filter fun entry =>
        keep entry.1).map (·.2)) = (if x then 1 else 0) + if y then Scalar.epsilon else 0 := by
    intro keep hkeep
    simp only [List.map_cons, List.map_nil, List.cons.injEq, and_true] at hkeep
    cases x <;> cases y <;> norm_num [hkeep, Scalar.sum]
  exact hkept _ hcodes

/-- In `overfullTable` every draw below one selects `X`. -/
theorem selects_overfullTable {draw : ℝ} (hdraw : Between 0 1 draw) :
    NoiseModel.selects (.x 0) overfullTable draw = 1 := by
  have hnonneg : overfullTable.Nonneg :=
    NoiseTable.nonneg_of_validate (NoiseModel.table_of_validate validate_overfullModel .x)
  have hstart : overfullTable.total (List.range' 1 0) = 0 := NoiseTable.total_nil
  have hend : overfullTable.total (List.range' 1 1) = 1 := by
    rw [total_overfullTable _ (by decide : _ = [true, false])]
    norm_num
  rw [NoiseModel.selects_eq_iff orderLaws_real _ (.inl rfl) hnonneg hdraw.1 le_rfl, Nat.sub_self,
    hstart, hend]
  exact hdraw

/-- A code whose interval lies beyond one is never selected, although its probability is
positive. -/
theorem overfull_table_never_draws_last :
    overfullModel.validate = .ok () ∧
      NoiseModel.pauliOp (.x 0) overfullTable ∈ (Op.x 0 : Op ℝ).ownNoise (some overfullModel) ∧
      (∀ g : Rng, NoiseModel.selects (.x 0) overfullTable g.fraction = 1) ∧
      (MeasureTheory.volume {draw : ℝ | Between 0 1 draw ∧
        NoiseModel.selects (.x 0) overfullTable draw = 2}).toReal ≠ overfullTable.total [2] := by
  have hsite : NoiseSite.ofCode? (Op.x 0 : Op ℝ).code = some .x := rfl
  refine ⟨validate_overfullModel, ?_, fun g => selects_overfullTable (between_fraction g), ?_⟩
  · have hnoise : overfullTable.hasPauliNoise = true := by
      norm_num [overfullTable, NoiseTable.hasPauliNoise, Scalar.lt]
    have htable : overfullModel.table .x = overfullTable := rfl
    rw [ownNoise_eq orderLaws_real overfullModel hsite, htable, if_pos hnoise]
    exact List.mem_append_left _ (List.mem_singleton.2 rfl)
  · have hnone : {draw : ℝ | Between 0 1 draw ∧
        NoiseModel.selects (.x 0) overfullTable draw = 2} = ∅ := by
      refine Set.eq_empty_iff_forall_notMem.2 ?_
      rintro draw ⟨hdraw, hlast⟩
      rw [selects_overfullTable hdraw] at hlast
      cases hlast
    rw [hnone, MeasureTheory.measure_empty, total_overfullTable _ (by decide : _ = [false, true])]
    norm_num [Scalar.epsilon]

end ShotSim
