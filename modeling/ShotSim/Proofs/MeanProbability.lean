import Mathlib.Data.List.Basic
import ShotSim.Report

/-!
# Mean probabilities — what a run says about a basis state

The mean probability of a basis state is kept as a running sum under its index and divided at the
end. Read off the results: all probabilities that good shots have reported for it, shot by shot and
in the order of each shot's records, added up from zero and divided by the number of good shots.

* `Tally.lookup_add`, `Tally.lookup_foldl_add` — one addition, and all of them;
* `Tally.Rising.mem_iff` — where keys rise, entries are what look-ups find;
* `RunResults.lookup_aggregate` — the mean probability of a basis state, or none if nobody reported
  it;
* `RunResults.aggregate_ignores_failed_shots` — all the entries, and what failed shots have to do
  with them.
-/

namespace ShotSim

namespace Tally

def Rising (t : Tally) : Prop := t.Pairwise fun a b => a.1 < b.1

theorem lookup_eq_none {key : Nat} {t : Tally} (h : ∀ entry ∈ t, key < entry.1) :
    t.lookup key = none := by
  induction t with
  | nil => rfl
  | cons entry rest ih =>
      have hhead := h entry List.mem_cons_self
      have hne : (key == entry.1) = false := by
        rw [beq_eq_false_iff_ne]
        omega
      rw [List.lookup_cons, hne]
      exact ih fun other hother => h other (List.mem_cons_of_mem _ hother)

/-- `add` changes the sum of its own key only. -/
theorem lookup_add {t : Tally} (h : t.Rising) (key : Nat) (x : Float) (k : Nat) :
    (add key x t).lookup k = if k = key then some ((t.lookup key).getD 0 + x) else t.lookup k := by
  induction t with
  | nil =>
      by_cases hk : k = key
      · simp [add, hk]
      · simp [add, List.lookup_cons, hk, beq_false_of_ne]
  | cons entry rest ih =>
      obtain ⟨first, total⟩ := entry
      obtain ⟨habove, hrest⟩ := List.pairwise_cons.1 h
      rw [add]
      split
      · -- The key is new and comes before all others.
        rename_i hlt
        have hnone : List.lookup key ((first, total) :: rest) = none := by
          apply lookup_eq_none
          intro other hother
          rcases List.mem_cons.1 hother with rfl | hmem
          · exact hlt
          · exact Nat.lt_trans hlt (habove other hmem)
        rw [hnone, List.lookup_cons]
        by_cases hk : k = key
        · simp [hk]
        · simp [hk, beq_false_of_ne]
      · split
        · rename_i hkey
          by_cases hk : k = key
          · subst hk hkey
            simp
          · have hne : k ≠ first := fun hf => hk (hf.trans hkey.symm)
            simp [List.lookup_cons, hk, hne, beq_false_of_ne]
        · rename_i hkey
          have hlookup := ih hrest
          by_cases hk : k = first
          · have hne : k ≠ key := fun hf => hkey (hf.symm.trans hk)
            simp [hk, hk ▸ hne]
          · simp only [List.lookup_cons, beq_false_of_ne hk, beq_false_of_ne hkey]
            exact hlookup

theorem mem_key_add {key : Nat} {x : Float} {t : Tally} {entry : Nat × Float}
    (h : entry ∈ add key x t) : entry.1 = key ∨ ∃ other ∈ t, other.1 = entry.1 := by
  induction t with
  | nil =>
      rw [add, List.mem_singleton] at h
      exact Or.inl (by rw [h])
  | cons first rest ih =>
      rw [add] at h
      split at h
      · rcases List.mem_cons.1 h with rfl | hmem
        · exact Or.inl rfl
        · exact Or.inr ⟨entry, hmem, rfl⟩
      · split at h
        · rcases List.mem_cons.1 h with rfl | hmem
          · exact Or.inr ⟨first, List.mem_cons_self, rfl⟩
          · exact Or.inr ⟨entry, List.mem_cons_of_mem _ hmem, rfl⟩
        · rcases List.mem_cons.1 h with rfl | hmem
          · exact Or.inr ⟨_, List.mem_cons_self, rfl⟩
          · rcases ih hmem with hkey | ⟨other, hother, hsame⟩
            · exact Or.inl hkey
            · exact Or.inr ⟨other, List.mem_cons_of_mem _ hother, hsame⟩

/-- `add` keeps the keys rising. -/
theorem Rising.add {t : Tally} (h : t.Rising) (key : Nat) (x : Float) : (t.add key x).Rising := by
  induction t with
  | nil => exact List.pairwise_singleton _ _
  | cons first rest ih =>
      obtain ⟨habove, hrest⟩ := List.pairwise_cons.1 h
      rw [Tally.add]
      split
      · rename_i hlt
        refine List.pairwise_cons.2 ⟨fun other hother => ?_, h⟩
        rcases List.mem_cons.1 hother with rfl | hmem
        · exact hlt
        · exact Nat.lt_trans hlt (habove other hmem)
      · split
        · exact List.pairwise_cons.2 ⟨habove, hrest⟩
        · refine List.pairwise_cons.2 ⟨fun other hother => ?_, ih hrest⟩
          rcases mem_key_add hother with hkey | ⟨old, hold, hsame⟩
          · change first.1 < other.1
            omega
          · exact hsame ▸ habove old hold

/-- The sum of a key folds the values added under it, in order. -/
theorem lookup_foldl_add {α : Type} (index : α → Nat) (value : α → Float) (records : List α)
    {t : Tally} (h : t.Rising) (key : Nat) :
    (records.foldl (fun t record => t.add (index record) (value record)) t).lookup key =
      ((records.filter (index · = key)).map value).foldl (fun sum x => some (sum.getD 0 + x))
        (t.lookup key) := by
  induction records generalizing t with
  | nil => rfl
  | cons record rest ih =>
      rw [List.foldl_cons, ih (h.add _ _), lookup_add h]
      by_cases hkey : index record = key
      · rw [List.filter_cons_of_pos (by simpa using hkey), if_pos hkey.symm, hkey]
        rfl
      · rw [List.filter_cons_of_neg (by simpa using hkey), if_neg (Ne.symm hkey)]

theorem foldl_some_getD (x : Float) (xs : List Float) :
    xs.foldl (fun sum x => some (sum.getD 0 + x)) (some x) = some (xs.foldl (· + ·) x) := by
  induction xs generalizing x with
  | nil => rfl
  | cons y rest ih => exact ih (x + y)

/-- `lookup` commutes with a map over the values. -/
theorem lookup_map (f : Float → Float) (t : Tally) (key : Nat) :
    (t.map fun (k, total) => (k, f total)).lookup key = (t.lookup key).map f := by
  induction t with
  | nil => rfl
  | cons entry rest ih =>
      obtain ⟨first, total⟩ := entry
      rw [List.map_cons, List.lookup_cons, List.lookup_cons]
      cases key == first with
      | true => rfl
      | false => exact ih

theorem Rising.foldl_add {α : Type} (index : α → Nat) (value : α → Float) (records : List α)
    {t : Tally} (h : t.Rising) :
    Rising (records.foldl (fun t record => t.add (index record) (value record)) t) := by
  induction records generalizing t with
  | nil => exact h
  | cons record rest ih => exact ih (h.add _ _)

/-- With rising keys, membership is `lookup`. -/
theorem Rising.mem_iff {t : Tally} (h : t.Rising) {key : Nat} {value : Float} :
    (key, value) ∈ t ↔ t.lookup key = some value := by
  induction t with
  | nil => simp
  | cons entry rest ih =>
      obtain ⟨first, total⟩ := entry
      obtain ⟨habove, hrest⟩ := List.pairwise_cons.1 h
      by_cases hkey : key = first
      · -- No later entry has the key of the first one.
        have hnot : (key, value) ∉ rest := fun hmem => by
          have hlt : first < key := habove _ hmem
          omega
        simp [hkey, hkey ▸ hnot, eq_comm]
      · simp only [List.mem_cons, Prod.mk.injEq, hkey, false_and, false_or, List.lookup_cons,
          beq_false_of_ne hkey]
        exact ih hrest

end Tally

theorem ShotStatus.isOk_iff {status : ShotStatus} : status.isOk = true ↔ status = .ok := by
  cases status <;> simp [isOk]

/-- The probabilities that a shot reports for a basis state, in the order of its records. -/
def ShotResult.reported (shot : ShotResult Float32) (key : Nat) : List Float :=
  (shot.records.filter (·.index = key)).map (·.probability.toFloat)

def RunResults.good {R : Type} (r : RunResults R) : List (ShotResult R) :=
  r.shots.filter (·.status.isOk)

/-- The mean probability of a basis state sums the reports of the successful shots and divides by
their number. -/
theorem RunResults.lookup_aggregate (r : RunResults Float32) (key : Nat) :
    r.aggregate.lookup key =
      if r.good.flatMap (·.reported key) = [] then none
      else some ((r.good.flatMap (·.reported key)).foldl (· + ·) 0 /
        Float.ofNat r.good.length) := by
  have hrising : Tally.Rising [] := List.Pairwise.nil
  have hsum := Tally.lookup_foldl_add (fun record : Record Float32 => record.index)
    (·.probability.toFloat) (r.good.flatMap (·.records)) hrising key
  have hreported :
      ((r.good.flatMap (·.records)).filter (·.index = key)).map (·.probability.toFloat) =
      r.good.flatMap (·.reported key) := by
    rw [List.filter_flatMap, List.map_flatMap]
    rfl
  rw [hreported] at hsum
  have haggregate : r.aggregate.lookup key =
      (((r.good.flatMap (·.records)).foldl
        (fun t record => Tally.add record.index record.probability.toFloat t) []).lookup key).map
          (· / Float.ofNat r.good.length) :=
    Tally.lookup_map (· / Float.ofNat r.good.length) _ key
  rw [haggregate, hsum]
  cases r.good.flatMap (·.reported key) with
  | nil => rfl
  | cons x rest =>
      rw [if_neg (List.cons_ne_nil x rest), List.foldl_cons, List.foldl_cons]
      exact congrArg (Option.map _) (Tally.foldl_some_getD (0 + x) rest)

namespace RunResults

variable (r : RunResults Float32)

theorem rising_aggregate : r.aggregate.Rising := by
  have hsums :=
    Tally.Rising.foldl_add (fun record : Record Float32 => record.index) (·.probability.toFloat)
    (r.good.flatMap (·.records)) List.Pairwise.nil
  exact List.pairwise_map.2 hsums

/-- A basis state has reports iff some successful shot lists it. -/
theorem reported_ne_nil_iff (key : Nat) :
    r.good.flatMap (·.reported key) ≠ [] ↔
      ∃ shot ∈ r.shots, shot.status = .ok ∧ ∃ record ∈ shot.records, record.index = key := by
  simp only [ne_eq, List.flatMap_eq_nil_iff, ShotResult.reported, List.map_eq_nil_iff,
    List.filter_eq_nil_iff, good, List.mem_filter, ShotStatus.isOk_iff]
  push Not
  simp only [and_assoc, decide_eq_true_eq]

/-- The keys of `aggregate` are the basis states reported by successful shots. -/
theorem mem_keys_aggregate (key : Nat) :
    key ∈ r.aggregate.map (·.1) ↔
      ∃ shot ∈ r.shots, shot.status = .ok ∧ ∃ record ∈ shot.records, record.index = key := by
  rw [← reported_ne_nil_iff, List.mem_map]
  constructor
  · rintro ⟨⟨k, value⟩, hmem, rfl⟩ hnil
    have hlookup := r.rising_aggregate.mem_iff.1 hmem
    rw [lookup_aggregate, if_pos hnil] at hlookup
    cases hlookup
  · intro hreported
    exact ⟨(key, _),
      r.rising_aggregate.mem_iff.2 ((r.lookup_aggregate key).trans (if_neg hreported)), rfl⟩

/-- `aggregate` depends on the successful shots only. -/
theorem aggregate_congr {r r' : RunResults Float32} (h : r'.good = r.good) :
    r'.aggregate = r.aggregate := by
  have hshots : r'.shots.filter (·.status.isOk) = r.shots.filter (·.status.isOk) := h
  rw [aggregate, aggregate, hshots]

theorem filter_isOk_eq_nil {shots : List (ShotResult Float32)}
    (h : ∀ shot ∈ shots, shot.status ≠ .ok) : shots.filter (·.status.isOk) = [] := by
  rw [List.filter_eq_nil_iff]
  intro shot hshot
  rw [ShotStatus.isOk_iff]
  exact h shot hshot

/-- `aggregate` lists, by rising index, exactly the basis states reported by successful shots. The
value of each is the sum of its reports, from zero and in the order of shots and records, divided by
the number of successful shots. Inserting or removing failed shots does not change it, and without
successful shots it is empty. -/
theorem aggregate_ignores_failed_shots (r : RunResults Float32) :
    (r.aggregate.map (·.1)).Pairwise (· < ·) ∧
    (∀ key, key ∈ r.aggregate.map (·.1) ↔
      ∃ shot ∈ r.shots, shot.status = .ok ∧ ∃ record ∈ shot.records, record.index = key) ∧
    (∀ key value, (key, value) ∈ r.aggregate →
      value = (r.good.flatMap (·.reported key)).foldl (· + ·) 0 / Float.ofNat r.good.length) ∧
    (∀ other : RunResults Float32, other.good = r.good → other.aggregate = r.aggregate) ∧
    (∀ before failed after, r.shots = before ++ failed ++ after →
      (∀ shot ∈ failed, shot.status ≠ .ok) →
      ∀ other : RunResults Float32, other.shots = before ++ after → other.aggregate = r.aggregate) ∧
    ((∀ shot ∈ r.shots, shot.status ≠ .ok) → r.aggregate = []) := by
  refine ⟨List.pairwise_map.2 r.rising_aggregate, r.mem_keys_aggregate, ?_,
    fun _ => aggregate_congr, ?_, ?_⟩
  · intro key value hmem
    have hlookup := r.rising_aggregate.mem_iff.1 hmem
    rw [lookup_aggregate] at hlookup
    split at hlookup
    · cases hlookup
    · exact (Option.some.inj hlookup).symm
  · intro before failed after hshots hfailed other hother
    apply aggregate_congr
    rw [good, good, hshots, hother, List.filter_append, List.filter_append, List.filter_append,
      filter_isOk_eq_nil hfailed, List.append_nil]
  · -- An entry would need a good shot that reported its key.
    intro hfailed
    rw [← List.map_eq_nil_iff, List.eq_nil_iff_forall_not_mem]
    intro key hkey
    obtain ⟨shot, hshot, hok, _⟩ := (r.mem_keys_aggregate key).1 hkey
    exact hfailed shot hshot hok

def mixedRun : RunResults Float32 :=
  let shot : ShotStatus → List (Record Float32) → ShotResult Float32 := fun status records =>
    ⟨0, status, records, 0, [], 0, []⟩
  { shots := [shot .ok [⟨6, 0.5⟩, ⟨6, 0.25⟩], shot (.invalidQubit 2) [⟨5, 1⟩], shot .ok [⟨1, 0.5⟩]]
    states := none
    success := false
    device := "" }

/-- A failed shot between two successful ones. -/
theorem aggregate_ignores_failed_shot_between :
    6 ∈ mixedRun.aggregate.map (·.1) ∧ 5 ∉ mixedRun.aggregate.map (·.1) ∧
      (∀ value, (6, value) ∈ mixedRun.aggregate →
        value = (0 + (0.5 : Float32).toFloat + (0.25 : Float32).toFloat) / Float.ofNat 2) ∧
      { mixedRun with shots := mixedRun.shots.eraseIdx 1 }.aggregate = mixedRun.aggregate ∧
      { mixedRun with shots := mixedRun.failed }.aggregate = [] := by
  obtain ⟨_, hkeys, hvalues, _, hremoved, _⟩ := mixedRun.aggregate_ignores_failed_shots
  obtain ⟨_, _, _, _, _, hempty⟩ :=
    aggregate_ignores_failed_shots { mixedRun with shots := mixedRun.failed }
  refine ⟨(hkeys 6).2 ⟨_, List.mem_cons_self, rfl, _, List.mem_cons_self, rfl⟩, ?_,
    hvalues 6, ?_, ?_⟩
  · rw [hkeys]
    simp [mixedRun]
  · exact hremoved [mixedRun.shots[0]] [mixedRun.shots[1]] [mixedRun.shots[2]] rfl
      (by simp [mixedRun]) _ rfl
  · exact hempty (by simp [mixedRun, failed, ShotStatus.isOk])

end RunResults

end ShotSim
