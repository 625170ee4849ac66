import Mathlib.Data.List.Forall2
import ShotSim.Proofs.SignedZero
import ShotSim.Proofs.Weave
import ShotSim.Session

/-!
# Stream inputs — what the stream of a program depends on

A stream is woven from a program, noise tables, the presence of idle noise and the size of the
circuit.

* `build_eq_of_sameNoise` — of the noise, what sessions compare decides the stream;
* `build_of_not_idle` — without idle noise the size of the circuit does not matter;
* `build_injective` — with idle noise, streams for circuits of different sizes differ.
-/

namespace ShotSim

variable {R : Type} [Scalar R]

/-! ## Noise tables -/

def NoiseTable.Nonneg (t : NoiseTable R) : Prop := ∀ p ∈ t.probabilities, Scalar.le 0 p = true

structure NoiseTable.Alike (a b : NoiseTable R) : Prop where
  qubits : a.qubits = b.qubits
  strings : a.strings = b.strings
  probabilities : List.Forall₂ (fun p q => (p == q) = true) a.probabilities b.probabilities
  loss : (a.loss == b.loss) = true

theorem forall₂_of_beq {α : Type} [BEq α] {xs ys : List α} (h : (xs == ys) = true) :
    List.Forall₂ (fun x y => (x == y) = true) xs ys := by
  induction xs generalizing ys with
  | nil =>
      cases ys with
      | nil => exact .nil
      | cons => cases h
  | cons x xs ih =>
      cases ys with
      | nil => cases h
      | cons y ys =>
          rw [List.cons_beq_cons, Bool.and_eq_true] at h
          exact .cons h.1 (ih h.2)

/-- Models with the same tables have alike tables at every site. -/
theorem NoiseModel.alike_of_sameTables {m n : NoiseModel R} (h : m.sameTables n = true)
    (site : NoiseSite) : (m.table site).Alike (n.table site) := by
  have hsite := List.all_eq_true.1 h site site.mem_all
  simp only [Bool.and_eq_true] at hsite
  obtain ⟨⟨⟨hqubits, hstrings⟩, hprobabilities⟩, hloss⟩ := hsite
  exact ⟨eq_of_beq hqubits, eq_of_beq hstrings, forall₂_of_beq hprobabilities, hloss⟩

namespace NoiseTable

/-- A valid table has no negative probabilities. -/
theorem nonneg_of_validate {t : NoiseTable R} (h : t.validate = .ok ()) : t.Nonneg := by
  -- Of all checks of a table, only the one on the probabilities matters here.
  have hfound : t.probabilities.find? (fun p => !isProbability p) = none := by
    cases hfind : t.probabilities.find? (fun p => !isProbability p) with
    | none => rfl
    | some p =>
        simp only [validate, hfind, bind, Except.bind, throw, throwThe, MonadExceptOf.throw] at h
        split at h <;> [cases h; (split at h <;> cases h)]
  intro p hp
  have hprobability := List.find?_eq_none.1 hfound p hp
  simp only [isProbability, Scalar.within, Bool.not_eq_true', Bool.not_eq_false, Bool.and_eq_true]
    at hprobability
  exact hprobability.2.1

/-- The probabilities of the strings spelling a code. -/
def sharing (t : NoiseTable R) (code : Nat) : List R := (t.coded.filter (·.1 = code)).map (·.2)

omit [Scalar R] in
theorem mem_probabilities_of_mem_sharing {t : NoiseTable R} {code : Nat} {p : R}
    (h : p ∈ t.sharing code) : p ∈ t.probabilities := by
  simp only [sharing, coded, List.mem_map, List.mem_filter, List.mem_filterMap] at h
  rcases h with ⟨⟨_, _⟩, ⟨⟨⟨text, q⟩, hzip, hcode⟩, _⟩, rfl⟩
  cases hpauli : pauliCode? text t.qubits with
  | none => simp [hpauli] at hcode
  | some found =>
      simp only [hpauli, Option.map_some, Option.some.injEq, Prod.mk.injEq] at hcode
      exact hcode.2 ▸ (List.of_mem_zip hzip).2

/-- The probabilities shared by a code compare equal pointwise. -/
theorem forall₂_sharing {qubits : Nat} {strings : List String} {ps qs : List R}
    (h : List.Forall₂ (fun p q => (p == q) = true) ps qs) (loss loss' : R) (code : Nat) :
    List.Forall₂ (fun p q => (p == q) = true) (sharing ⟨qubits, strings, ps, loss⟩ code)
      (sharing ⟨qubits, strings, qs, loss'⟩ code) := by
  induction h generalizing strings with
  | nil => simp [sharing, coded]
  | cons hpq _ ih =>
      cases strings with
      | nil => simp [sharing, coded]
      | cons text rest =>
          have hrest := @ih rest
          simp only [sharing, coded, List.zip_cons_cons, List.filterMap_cons] at hrest ⊢
          cases pauliCode? text qubits with
          | none => exact hrest
          | some found =>
              by_cases hfound : found = code
              · simp only [Option.map_some, List.filter_cons, hfound, decide_true, if_true,
                  List.map_cons]
                exact .cons hpq hrest
              · simpa only [Option.map_some, List.filter_cons, hfound, decide_false,
                  Bool.false_eq_true, if_false] using hrest

theorem all_congr_of_forall₂ {test : R → Bool}
    (htest : ∀ {p q : R}, (p == q) = true → test p = test q) {ps qs : List R}
    (h : List.Forall₂ (fun p q => (p == q) = true) ps qs) :
    ps.all test = qs.all test := by
  induction h with
  | nil => rfl
  | cons hpq _ ih => rw [List.all_cons, List.all_cons, htest hpq, ih]

variable [Scalar.EqualUpToZeros R] {a b : NoiseTable R}

open Scalar.EqualUpToZeros

theorem Alike.nonneg_iff (h : a.Alike b) : a.Nonneg ↔ b.Nonneg := by
  have hall := all_congr_of_forall₂ nonneg_congr h.probabilities
  unfold Nonneg
  rw [← List.all_eq_true, ← List.all_eq_true, hall]

/-- Alike tables are noiseless together. -/
theorem Alike.isNoiseless_eq (h : a.Alike b) : a.isNoiseless = b.isNoiseless := by
  rw [isNoiseless, isNoiseless, all_congr_of_forall₂ zero_congr h.probabilities, zero_congr h.loss]

/-- Alike tables have Pauli noise together. -/
theorem Alike.hasPauliNoise_eq (h : a.Alike b) : a.hasPauliNoise = b.hasPauliNoise := by
  have hnone : (a.probabilities.all fun p => !Scalar.lt 0 p) =
      b.probabilities.all fun p => !Scalar.lt 0 p :=
    all_congr_of_forall₂ (fun hpq => congrArg not (pos_congr hpq)) h.probabilities
  rw [hasPauliNoise, hasPauliNoise, List.any_eq_not_all_not, List.any_eq_not_all_not, hnone]

/-- Alike nonnegative tables have the same probability table. -/
theorem Alike.probabilityTable_eq (h : a.Alike b) (ha : a.Nonneg) :
    a.probabilityTable = b.probabilityTable := by
  obtain ⟨qubits, strings, ps, loss⟩ := a
  obtain ⟨qubits', strings', qs, loss'⟩ := b
  obtain ⟨rfl, rfl, hprobabilities, _⟩ := h
  apply List.map_congr_left
  intro code _
  exact sum_congr (forall₂_sharing hprobabilities loss loss' code)
    fun p hp => ha p (mem_probabilities_of_mem_sharing hp)

end NoiseTable

/-! ## Noise in the stream -/

section SameNoise

variable [Scalar.EqualUpToZeros R]

def NoiseModel.Nonneg (m : NoiseModel R) : Prop := ∀ site, (m.table site).Nonneg

omit [Scalar.EqualUpToZeros R] in
theorem NoiseModel.nonneg_of_validate {m : NoiseModel R} (h : m.validate = .ok ()) : m.Nonneg :=
  fun site => NoiseTable.nonneg_of_validate (NoiseModel.table_of_validate h site)

/-- Alike tables have the same loss operations. -/
theorem lossOps_eq_of_alike {a b : NoiseTable R} (h : a.Alike b) (op : Op R) :
    NoiseModel.lossOps op a = NoiseModel.lossOps op b := by
  have hpos := Scalar.EqualUpToZeros.pos_congr h.loss
  by_cases hlt : Scalar.lt 0 a.loss = true
  · -- A loss that takes place has the same probability in both.
    have hloss := Scalar.EqualUpToZeros.eq_of_pos h.loss hlt
    rw [NoiseModel.lossOps, NoiseModel.lossOps, hloss]
  · rw [NoiseModel.lossOps, NoiseModel.lossOps, if_neg hlt, if_neg (hpos ▸ hlt)]

/-- Models with the same tables add the same operations. -/
theorem noiseOps_eq_of_sameTables {m n : NoiseModel R} (h : m.sameTables n = true) (hm : m.Nonneg)
    (op : Op R) : m.noiseOps? op = n.noiseOps? op := by
  unfold NoiseModel.noiseOps? NoiseModel.tableFor?
  cases NoiseSite.ofCode? op.code with
  | none => rfl
  | some site =>
      have halike := NoiseModel.alike_of_sameTables h site
      have hpauli :
          NoiseModel.pauliOp op (m.table site) = NoiseModel.pauliOp op (n.table site) := by
        rw [NoiseModel.pauliOp, NoiseModel.pauliOp, halike.qubits,
          halike.probabilityTable_eq (hm site)]
      simp only [Option.bind_some, halike.isNoiseless_eq]
      split
      · rfl
      · simp only [Option.map_some, halike.hasPauliNoise_eq, hpauli, lossOps_eq_of_alike halike]

omit [Scalar.EqualUpToZeros R] in
/-- Weaving depends on the noise operations only. -/
theorem weaveFrom_congr {noise noise' : Option (NoiseModel R)}
    (h : ∀ op, noise.bind (·.noiseOps? op) = noise'.bind (·.noiseOps? op)) (idle : Bool)
    (qubits : Nat) (program : List (Op R)) (start : Nat) :
    weaveFrom noise idle qubits program start = weaveFrom noise' idle qubits program start := by
  induction program generalizing start with
  | nil => rfl
  | cons op rest ih =>
      have hbody : withNoise noise op = withNoise noise' op := by
        rw [withNoise, withNoise, h op]
      have hop : weaveOp noise idle qubits op = weaveOp noise' idle qubits op := by
        rw [weaveOp, weaveOp, hbody]
      rw [weaveFrom, weaveFrom, hop, ih]

/-- Configurations with `sameNoise` build the same stream. -/
theorem build_eq_of_sameNoise {c c' : Config R} (h : Session.sameNoise c c' = true)
    (hnonneg : ∀ m, c.noise = some m → m.Nonneg) (program : List (Op R)) (qubits : Nat) :
    Stream.build program c.noise c.idle.isSome qubits =
      Stream.build program c'.noise c'.idle.isSome qubits := by
  rw [Session.sameNoise, Bool.and_eq_true] at h
  obtain ⟨htables, hidle⟩ := h
  have hops : ∀ op, c.noise.bind (·.noiseOps? op) = c'.noise.bind (·.noiseOps? op) := by
    intro op
    cases hm : c.noise with
    | none =>
        cases hn : c'.noise with
        | none => rfl
        | some n => simp [hm, hn] at htables
    | some m =>
        cases hn : c'.noise with
        | none => simp [hm, hn] at htables
        | some n =>
            simp only [hm, hn] at htables
            exact noiseOps_eq_of_sameTables htables (hnonneg m hm) op
  rw [Stream.build, Stream.build, weave, weave, weaveFrom_congr hops, eq_of_beq hidle]
  rfl

/-- `sameNoise` carries nonnegativity over. -/
theorem nonneg_of_sameNoise {c c' : Config R} (h : Session.sameNoise c c' = true)
    (hnonneg : ∀ m, c'.noise = some m → m.Nonneg) : ∀ m, c.noise = some m → m.Nonneg := by
  rw [Session.sameNoise, Bool.and_eq_true] at h
  intro m hm site
  cases hn : c'.noise with
  | none => simp [hm, hn] at h
  | some n =>
      have htables : m.sameTables n = true := by simpa [hm, hn] using h.1
      exact (NoiseModel.alike_of_sameTables htables site).nonneg_iff.2 (hnonneg n hn site)

end SameNoise

/-! ## Size of the circuit -/

section Size

variable (noise : Option (NoiseModel R))

theorem weaveFrom_of_not_idle (qubits qubits' : Nat) (program : List (Op R)) (start : Nat) :
    weaveFrom noise false qubits program start = weaveFrom noise false qubits' program start := by
  induction program generalizing start with
  | nil => rfl
  | cons op rest ih =>
      rw [weaveFrom, weaveFrom, ih]
      rfl

/-- Without idle noise the stream is independent of the circuit size. -/
theorem build_of_not_idle (qubits qubits' : Nat) (program : List (Op R)) :
    Stream.build program noise false qubits = Stream.build program noise false qubits' := by
  rw [Stream.build, Stream.build, weave, weave, weaveFrom_of_not_idle noise qubits qubits']
  rfl

/-- A report has one more decay point per qubit. -/
theorem length_decayPoints (qubits : Nat) (op : Op R) (noisy : Bool) :
    (decayPoints qubits op noisy).length =
      (decayPoints 0 op noisy).length + if op.code = .mEveryZ then qubits else 0 := by
  by_cases hreport : op.code = .mEveryZ
  · simp [decayPoints, hreport, Opcode.arity, Opcode.isMeasurement]
  · simp [decayPoints, hreport]

/-- Every report adds one decay point per qubit. -/
theorem length_weaveFrom (qubits : Nat) (program : List (Op R)) (start : Nat) :
    (weaveFrom noise true qubits program start).length =
      (weaveFrom noise true 0 program start).length +
        qubits * program.countP fun op => op.code = .mEveryZ := by
  induction program generalizing start with
  | nil => rfl
  | cons op rest ih =>
      have hop := length_decayPoints qubits op (decide (1 < (withNoise noise op).length))
      simp only [weaveFrom, weaveOp, if_true, List.length_append, List.length_map, ih, hop,
        List.countP_cons, Nat.mul_add]
      by_cases hreport : op.code = .mEveryZ
      · simp only [hreport, if_true, decide_true, Nat.mul_one]
        omega
      · simp only [hreport, if_false, decide_false, Bool.false_eq_true, Nat.mul_zero]
        omega

theorem withNoise_ne_nil (op : Op R) : withNoise noise op ≠ [] := by
  unfold withNoise
  dsimp only
  split <;> simp

theorem getLast?_weaveOp_of_idle (qubits : Nat) (op : Op R) :
    (weaveOp noise true qubits op).getLast? = (withNoise noise op).getLast? := by
  have hbody := withNoise_ne_nil noise op
  exact List.getLast?_append_of_ne_nil _ hbody

omit [Scalar R] in
theorem lastCode_cons (strand : Strand R) (s : Stream R) :
    (strand :: s).getLast?.map (·.op.code) =
      some ((s.getLast?.map (·.op.code)).getD strand.op.code) := by
  rw [List.getLast?_cons]
  cases s.getLast? <;> rfl

/-- The last opcode of a woven program is independent of the circuit size. -/
theorem lastCode_weaveFrom (qubits : Nat) (program : List (Op R)) (start : Nat) :
    (weaveFrom noise true qubits program start).getLast?.map (·.op.code) =
      (weaveFrom noise true 0 program start).getLast?.map (·.op.code) := by
  induction program generalizing start with
  | nil => rfl
  | cons op rest ih =>
      rw [weaveFrom, weaveFrom, List.getLast?_append, List.getLast?_append, Option.map_or,
        Option.map_or, ih, List.getLast?_map, List.getLast?_map, getLast?_weaveOp_of_idle,
        getLast?_weaveOp_of_idle]

/-- Noise operations are not reports. -/
theorem code_ne_of_mem_noiseOps {op other : Op R}
    (h : other ∈ (noise.bind (·.noiseOps? op)).getD []) : other.code ≠ .mEveryZ := by
  obtain ⟨m, site, _, _, _, rfl | hloss⟩ := exists_of_mem_noiseOps h
  · rw [NoiseModel.pauliOp]
    split <;> (intro hcode; cases hcode)
  · rw [NoiseModel.lossOps] at hloss
    split at hloss
    · split at hloss
      · simp only [List.mem_cons, List.not_mem_nil, or_false] at hloss
        rcases hloss with rfl | rfl | rfl | rfl <;> (intro hcode; cases hcode)
      · rw [List.mem_singleton.1 hloss]
        intro hcode
        cases hcode
    · cases hloss

/-- Only a report expands to a report. -/
theorem code_eq_of_mem_weaveOp {qubits : Nat} {op other : Op R}
    (h : other ∈ weaveOp noise true qubits op) (hcode : other.code = .mEveryZ) :
    op.code = .mEveryZ := by
  have hidentity : ∀ q, (Op.identity q : Op R) ≠ other := by
    rintro q rfl
    cases hcode
  rw [weaveOp, if_pos rfl, List.mem_append] at h
  rcases h with hdecay | hbody
  · -- Points of decay are identities.
    exfalso
    rw [decayPoints] at hdecay
    split at hdecay
    · rcases List.mem_map.1 hdecay with ⟨q, _, hq⟩
      exact hidentity q hq
    · split at hdecay
      · exact hidentity _ (List.mem_singleton.1 hdecay).symm
      · split at hdecay
        · rcases List.mem_map.1 hdecay with ⟨q, _, hq⟩
          exact hidentity q hq
        · cases hdecay
  · rw [withNoise] at hbody
    split at hbody
    · simp only [List.cons_append, List.mem_cons, List.mem_append, List.not_mem_nil,
        or_false] at hbody
      rcases hbody with hid | hadded | hop
      · exact absurd hid.symm (hidentity _)
      · exact absurd hcode (code_ne_of_mem_noiseOps noise hadded)
      · exact hop ▸ hcode
    · rcases List.mem_cons.1 hbody with hmoved | hadded
      · split at hmoved
        · rw [hmoved] at hcode
          cases hcode
        · exact hmoved ▸ hcode
      · exact absurd hcode (code_ne_of_mem_noiseOps noise hadded)

theorem exists_mem_of_mem_weaveFrom {qubits : Nat} {program : List (Op R)} {start : Nat}
    {strand : Strand R} (h : strand ∈ weaveFrom noise true qubits program start)
    (hcode : strand.op.code = .mEveryZ) :
    ∃ op ∈ program, op.code = .mEveryZ := by
  induction program generalizing start with
  | nil => cases h
  | cons op rest ih =>
      rw [weaveFrom, List.mem_append] at h
      rcases h with hop | hrest
      · rcases List.mem_map.1 hop with ⟨other, hother, rfl⟩
        exact ⟨op, List.mem_cons_self, code_eq_of_mem_weaveOp noise hother hcode⟩
      · rcases ih hrest with ⟨other, hother, hreport⟩
        exact ⟨other, List.mem_cons_of_mem _ hother, hreport⟩

/-- With idle noise the stream grows with every qubit of the circuit. -/
theorem exists_length_build (program : List (Op R)) :
    ∃ base reports, 0 < reports ∧
      ∀ qubits, (Stream.build program noise true qubits).length = base + qubits * reports := by
  let body (qubits : Nat) : Stream R := ⟨.resetAll, 0⟩ :: weave program noise true qubits
  have hlast : ∀ qubits, (body qubits).getLast?.map (·.op.code) =
      (body 0).getLast?.map (·.op.code) := by
    intro qubits
    have hwoven := lastCode_weaveFrom noise qubits program 0
    rw [lastCode_cons, lastCode_cons, weave, weave, hwoven]
  by_cases hends : (body 0).getLast?.map (·.op.code) = some .mEveryZ
  · -- The program ends with a report of its own.
    refine ⟨(body 0).length, program.countP fun op => op.code = .mEveryZ, ?_, ?_⟩
    · rcases Option.map_eq_some_iff.1 hends with ⟨strand, hstrand, hcode⟩
      rcases List.mem_cons.1 (List.mem_of_getLast? hstrand) with rfl | hwoven
      · cases hcode
      · rcases exists_mem_of_mem_weaveFrom noise hwoven hcode with ⟨op, hop, hreport⟩
        exact List.countP_pos_iff.2 ⟨op, hop, decide_eq_true hreport⟩
    · intro qubits
      rw [Stream.build, if_pos ((hlast qubits).trans hends), List.append_nil]
      simp only [body, weave, List.length_cons, length_weaveFrom noise qubits]
      omega
  · -- A report is added.
    refine ⟨(body 0).length + 1, (program.countP fun op => op.code = .mEveryZ) + 1,
      Nat.succ_pos _, ?_⟩
    intro qubits
    have hreport : (weave [(.mEveryZ : Op R)] none true qubits).length = 1 + qubits := by
      have hlength := length_weaveFrom none qubits [(.mEveryZ : Op R)] 0
      have hbase : (weaveFrom none true 0 [(.mEveryZ : Op R)] 0).length = 1 := rfl
      have hcount : List.countP (fun op : Op R => op.code = .mEveryZ) [.mEveryZ] = 1 := rfl
      rw [hbase, hcount, Nat.mul_one] at hlength
      exact hlength
    rw [Stream.build, if_neg (by rw [hlast qubits]; exact hends), List.length_append,
      List.length_map, hreport]
    simp only [body, weave, List.length_cons, length_weaveFrom noise qubits, Nat.mul_add,
      Nat.mul_one]
    omega

/-- With idle noise, streams for different circuit sizes differ. -/
theorem build_injective {program : List (Op R)} {qubits qubits' : Nat}
    (h : Stream.build program noise true qubits = Stream.build program noise true qubits') :
    qubits = qubits' := by
  rcases exists_length_build noise program with ⟨base, reports, hpos, hlength⟩
  have hlengths := congrArg List.length h
  rw [hlength, hlength] at hlengths
  exact Nat.eq_of_mul_eq_mul_right hpos (Nat.add_left_cancel hlengths)

/-- Weaving is compatible with appending. -/
theorem weaveFrom_append (idle : Bool) (qubits : Nat) (program rest : List (Op R)) (start : Nat) :
    weaveFrom noise idle qubits (program ++ rest) start =
      weaveFrom noise idle qubits program start ++
        weaveFrom noise idle qubits rest (start + program.length) := by
  induction program generalizing start with
  | nil => rfl
  | cons op program ih =>
      have hplace : start + (op :: program).length = start + 1 + program.length := by
        rw [List.length_cons]
        omega
      rw [List.cons_append, weaveFrom, weaveFrom, ih, List.append_assoc, hplace]

/-- The expansion of a report: one decay point per qubit, then the report. -/
theorem weaveOp_of_report (qubits : Nat) {op : Op R} (h : op.code = .mEveryZ) :
    weaveOp noise true qubits op = (List.range qubits).map .identity ++ [op] := by
  have hnoiseless : (noise.bind (·.noiseOps? op)).getD [] = [] := noiseOps_eq_nil (by rw [h]; rfl)
  have hbody : withNoise noise op = [op] := by
    rw [withNoise, hnoiseless]
    simp [h]
  rw [weaveOp, hbody]
  simp [decayPoints, h, Opcode.arity, Opcode.isMeasurement]

/-- With idle noise a stream ends with a decay point per qubit and a report. -/
theorem exists_ops_build (program : List (Op R)) (qubits : Nat) :
    ∃ first report, (report : Op R).code = .mEveryZ ∧
      (Stream.build program noise true qubits).ops =
        first ++ ((List.range qubits).map .identity ++ [report]) := by
  by_cases hends : ((⟨.resetAll, 0⟩ :: weave program noise true qubits : Stream R).getLast?.map
      (·.op.code)) = some .mEveryZ
  · rcases List.eq_nil_or_concat program with rfl | ⟨init, last, rfl⟩
    · cases hends
    · -- The last operation of the program must be the report.
      rw [List.concat_eq_append] at hends ⊢
      have hwoven : weave (init ++ [last]) noise true qubits =
          weaveFrom noise true qubits init 0 ++
            (weaveOp noise true qubits last).map (⟨·, init.length⟩) := by
        rw [weave, weaveFrom_append, weaveFrom, weaveFrom, List.append_nil, Nat.zero_add]
      have hne : (weaveOp noise true qubits last).map (⟨·, init.length⟩ :
          Op R → Strand R) ≠ [] := by
        rw [weaveOp, if_pos rfl]
        simp [withNoise_ne_nil]
      rcases Option.map_eq_some_iff.1 hends with ⟨strand, hstrand, hcode⟩
      rw [hwoven, ← List.cons_append, List.getLast?_append_of_ne_nil _ hne] at hstrand
      rcases List.mem_map.1 (List.mem_of_getLast? hstrand) with ⟨other, hother, rfl⟩
      have hlast := code_eq_of_mem_weaveOp noise hother hcode
      refine ⟨.resetAll :: (weaveFrom noise true qubits init 0).map (·.op), last, hlast, ?_⟩
      rw [Stream.build, if_pos hends, hwoven, weaveOp_of_report noise qubits hlast]
      simp [Stream.ops, Function.comp_def]
  · refine ⟨.resetAll :: (weave program noise true qubits).map (·.op), .mEveryZ, rfl, ?_⟩
    have hreport : weave [(.mEveryZ : Op R)] none true qubits =
        ((List.range qubits).map Op.identity ++ [Op.mEveryZ]).map (⟨·, 0⟩) := by
      rw [weave, weaveFrom, weaveFrom, List.append_nil, weaveOp_of_report none qubits rfl]
    rw [Stream.build, if_neg hends, hreport]
    simp [Stream.ops, Function.comp_def]

end Size

end ShotSim
