import Mathlib.Data.List.Basic
import ShotSim.Proofs.Admission
import ShotSim.Proofs.GuardedPrepare
import ShotSim.Report

/-!
# Guarded streams — noise is woven in without a breach

Before a program runs, noise operations are made from the tables of the noise model.  The letters of
a Pauli string spell a code, and the code is a place in a table that has room for two letters.  A
noise model that has passed its checks spells no longer codes, so with it every program becomes a
stream.

* `pauliCode?_lt`, `NoiseModel.fault?_eq_none` — the codes of a checked noise model have room;
* `Guarded.weaveOp_eq`, `Guarded.build_eq` — the stream of a program.
-/

namespace ShotSim

variable {R : Type} [Scalar R]

/-! ## Codes of Pauli strings -/

/-- Pauli letters have codes below 4. -/
theorem pauliDigit?_lt {c : Char} {digit : Nat} (h : pauliDigit? c = some digit) : digit < 4 := by
  unfold pauliDigit? at h
  split at h <;> cases h <;> decide

/-- The code of a prefix grows by a factor of 4 per letter. -/
theorem pauliFold_lt {letters : List Char} {code result : Nat}
    (h : pauliFold letters code = some result) : result < (code + 1) * 4 ^ letters.length := by
  induction letters generalizing code with
  | nil =>
      cases h
      simp
  | cons c rest ih =>
      obtain ⟨digit, hdigit, hrest⟩ := Option.bind_eq_some_iff.1 h
      have hlt := pauliDigit?_lt hdigit
      calc
        result < (code * 4 + digit + 1) * 4 ^ rest.length := ih hrest
        _ ≤ (code + 1) * 4 * 4 ^ rest.length := Nat.mul_le_mul_right _ (by omega)
        _ = (code + 1) * 4 ^ (c :: rest).length := by
            rw [List.length_cons, Nat.pow_succ, Nat.mul_assoc, Nat.mul_comm 4]

/-- A Pauli string on `qubits` qubits has a code below `4 ^ qubits`. -/
theorem pauliCode?_lt {text : String} {qubits code : Nat} (h : pauliCode? text qubits = some code) :
    code < 4 ^ qubits := by
  unfold pauliCode? at h
  split at h
  · rename_i hlength
    simpa [hlength] using pauliFold_lt h
  · cases h

omit [Scalar R] in
/-- Codes of at most two letters do not overflow. -/
theorem NoiseTable.overflow?_eq_none {t : NoiseTable R} (h : t.qubits ≤ 2) :
    t.overflow? = none := by
  rw [overflow?, List.find?_eq_none]
  intro code hcode
  obtain ⟨⟨code, p⟩, hcoded, rfl⟩ := List.mem_map.1 hcode
  obtain ⟨⟨text, q⟩, _, hspelt⟩ := List.mem_filterMap.1 hcoded
  obtain ⟨_, hsome, hpair⟩ := Option.map_eq_some_iff.1 hspelt
  cases hpair
  have hlt := pauliCode?_lt hsome
  have hroom : 4 ^ t.qubits ≤ pauliCodes := Nat.pow_le_pow_right (by omega) h
  simp only [decide_eq_true_eq]
  omega

/-- A validated noise model has no fault at any operation. -/
theorem NoiseModel.fault?_eq_none {m : NoiseModel R} (h : m.validate = .ok ()) (op : Op R) :
    m.fault? op = none := by
  have htable : ∀ t, m.tableFor? op = some t → t.overflow? = none := by
    intro t ht
    obtain ⟨site, _, hsite⟩ := Option.bind_eq_some_iff.1 ht
    have hsame : m.table site = t := by
      dsimp only at hsite
      split at hsite <;> cases hsite
      rfl
    apply NoiseTable.overflow?_eq_none
    rw [← hsame, NoiseModel.qubits_of_validate h]
    cases site <;> decide
  rw [fault?]
  cases ht : m.tableFor? op with
  | none => rfl
  | some t =>
      rw [Option.bind_some, htable t ht]
      split <;> rfl

/-! ## The stream -/

namespace Guarded

def noiseOps (noise : Option (NoiseModel R)) (op : Op R) : Guarded (List (Op R)) :=
  match noise with
  | none => return []
  | some m =>
    match m.noiseOpsChecked op with
    | .ok added => return added.getD []
    | .error cause => .error (.fault cause)

def decayPoints (qubitCount : Nat) (op : Op R) (noisy : Bool) : Guarded (List (Op R)) :=
  if 1 < op.code.arity then do return (← operands op).map .identity
  else return ShotSim.decayPoints qubitCount op noisy

/-- The expansion of an operation. Its first operation is accessed by index. -/
def weaveOp (noise : Option (NoiseModel R)) (idle : Bool) (qubitCount : Nat) (op : Op R) :
    Guarded (List (Op R)) := do
  let added ← noiseOps noise op
  let moved := if op.code = .move then { op with code := .id } else op
  let body :=
    if op.code.isMeasurement && !added.isEmpty then .identity op.q1 :: added ++ [op]
      else moved :: added
  let first ← item body 0
  if idle then return (← decayPoints qubitCount op (1 < body.length)) ++ body
  else return if body.length = 1 && first.code = .id then [] else body

def weaveFrom (noise : Option (NoiseModel R)) (idle : Bool) (qubitCount : Nat) :
    List (Op R) → Nat → Guarded (List (Strand R))
  | [], _ => return []
  | op :: rest, start => do
    let strands ← weaveOp noise idle qubitCount op
    return strands.map (⟨·, start⟩) ++ (← weaveFrom noise idle qubitCount rest (start + 1))

def build (program : List (Op R)) (noise : Option (NoiseModel R)) (idle : Bool) (qubits : Nat) :
    Guarded (Stream R) := do
  let mapped ← weaveFrom noise idle qubits program 0
  let body := ⟨.resetAll, 0⟩ :: mapped
  if (body.getLast?.map (·.op.code)) = some .mEveryZ then return body
  else
    let report ← weaveFrom none idle qubits [.mEveryZ] 0
    return body ++ report.map fun strand => { strand with origin := program.length - 1 }

section Stream

variable {noise : Option (NoiseModel R)} (hnoise : ∀ m, noise = some m → m.validate = .ok ())

include hnoise

theorem noiseOps_eq (op : Op R) :
    noiseOps noise op = .ok ((noise.bind (·.noiseOps? op)).getD []) := by
  cases noise with
  | none => rfl
  | some m =>
      rw [noiseOps, NoiseModel.noiseOpsChecked, NoiseModel.fault?_eq_none (hnoise m rfl)]
      rfl

omit hnoise in
theorem decayPoints_eq (qubitCount : Nat) (op : Op R) (noisy : Bool) :
    decayPoints qubitCount op noisy = .ok (ShotSim.decayPoints qubitCount op noisy) := by
  unfold decayPoints
  split
  · rename_i harity
    rw [operands_eq, ok_bind, ShotSim.decayPoints, if_pos harity]
    rfl
  · rfl

/-- Weaving one operation is without a breach. -/
theorem weaveOp_eq (idle : Bool) (qubitCount : Nat) (op : Op R) :
    weaveOp noise idle qubitCount op = .ok (ShotSim.weaveOp noise idle qubitCount op) := by
  have hbody : ∃ first tail, withNoise noise op = first :: tail := by
    unfold withNoise
    dsimp only
    split
    · exact ⟨_, _, rfl⟩
    · exact ⟨_, _, rfl⟩
  -- There is always a first operation, and a lone one is an identity exactly if it is.
  obtain ⟨first, tail, hcons⟩ := hbody
  have hfirst : item (withNoise noise op) 0 = .ok first := by
    rw [hcons]
    rfl
  have hlone : ((withNoise noise op).length = 1 && decide (first.code = .id)) =
      ((withNoise noise op).length = 1 && (withNoise noise op).all (·.code = .id)) := by
    rw [hcons]
    cases tail with
    | nil => simp
    | cons => simp
  rw [weaveOp, noiseOps_eq hnoise, ok_bind, ShotSim.weaveOp]
  rw [withNoise] at hfirst hlone ⊢
  dsimp only at hfirst hlone ⊢
  rw [hfirst, ok_bind]
  cases idle with
  | true =>
      rw [if_pos rfl, if_pos rfl, decayPoints_eq, ok_bind]
      rfl
  | false =>
      rw [if_neg Bool.false_ne_true, if_neg Bool.false_ne_true, hlone]
      rfl

theorem weaveFrom_eq (idle : Bool) (qubitCount : Nat) (program : List (Op R)) (start : Nat) :
    weaveFrom noise idle qubitCount program start =
      .ok (ShotSim.weaveFrom noise idle qubitCount program start) := by
  induction program generalizing start with
  | nil => rfl
  | cons op rest ih =>
      rw [weaveFrom, weaveOp_eq hnoise, ok_bind, ih, ok_bind]
      rfl

/-- Building a stream from a validated noise model is without a breach. -/
theorem build_eq (program : List (Op R)) (idle : Bool) (qubits : Nat) :
    build program noise idle qubits = .ok (Stream.build program noise idle qubits) := by
  -- The final report is woven without noise.
  have hreport := weaveFrom_eq (fun (m : NoiseModel R) (h : none = some m) => nomatch h) idle qubits
    [.mEveryZ] 0
  rw [build, weaveFrom_eq hnoise, ok_bind, Stream.build]
  dsimp only
  rw [weave]
  split
  · rw [List.append_nil]
    rfl
  · rw [hreport, ok_bind]
    rfl

end Stream

end Guarded

end ShotSim
