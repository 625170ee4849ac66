import Mathlib.Logic.Function.Iterate
import ShotSim.Proofs.GuardedIndex

/-!
# Stride walks — stepping from pair to pair

A gate on one qubit works on pairs of amplitudes, and the offset of a pair is its number with a zero
put in at the place of the qubit.  A worker computes this once, for its first pair.  From there on
it counts up by one and leaps over the half in which the bit of the qubit is set.  The leaps make up
for what is not computed: after any number of steps the walk is where direct addressing would be,
and words are wide enough for all of it if they are wide enough for the last offset.

* `iterate_nextPairOffset` — the walk on numbers;
* `Guarded.iterate_nextPairOffset` — the walk on words;
* `groups_gate1_eq_map` — the pairs that a worker visits;
* `stride_walk_agrees_with_direct_addressing` — the two ways of addressing.
-/

namespace ShotSim

namespace BasisIndex

/-- `t` steps from a pair lead to the pair `t` items further on. -/
theorem iterate_nextPairOffset (q item t : Nat) :
    (nextPairOffset · (1 <<< q))^[t] (pairOffset item q) = pairOffset (item + t) q := by
  induction t with
  | zero => rfl
  | succ t ih => rw [Function.iterate_succ_apply', ih, nextPairOffset_pairOffset, Nat.add_assoc]

/-- The bit of the qubit is clear in every offset. -/
theorem pairOffset_and_stride (item q : Nat) : pairOffset item q &&& 1 <<< q = 0 := by
  have hclear : (pairOffset item q).testBit q = false := by
    rw [testBit_pairOffset, if_neg (Nat.lt_irrefl q), if_pos rfl]
  rw [Nat.one_shiftLeft, Nat.and_two_pow, hclear, Bool.toNat_false, Nat.zero_mul]

end BasisIndex

open BasisIndex

/-- A guarded walk succeeds if the offset after its last step fits. -/
theorem Guarded.iterate_nextPairOffset {q item t : Nat} (hq : q + 1 < indexBits)
    (h : BasisIndex.pairOffset (item + t) q < 2 ^ indexBits) :
    (fun offset : Guarded Nat => offset >>= (nextPairOffset · (1 <<< q)))^[t] (pairOffset item q) =
      .ok (BasisIndex.pairOffset (item + t) q) := by
  induction t with
  | zero => exact pairOffset_eq hq h
  | succ t ih =>
      -- Offsets rise with their items, so the one before the last fits as well.
      have hbefore : BasisIndex.pairOffset (item + t) q < 2 ^ indexBits :=
        Nat.lt_of_le_of_lt (pairOffset_mono q (Nat.le_succ _)) h
      rw [Function.iterate_succ_apply', ih hbefore, ok_bind]
      exact nextPairOffset_eq h

/-- The pairs of a worker, addressed by their work items. -/
theorem groups_gate1_eq_map (q q2 q3 perThread worker : Nat) :
    groups .gate1 q q2 q3 perThread worker =
      (workerItems worker (perThread / 2)).map fun item => pairMembers (pairOffset item q) q := by
  rw [groups, pairWalk_eq_map, List.map_map]
  rfl

/-- Walking by stride agrees with direct addressing. From the offset of a pair, `t` steps lead to
the offset of the pair `t` items further on, in which the bit of the qubit is clear; on words this
holds as long as that offset fits. Hence pair `j` of a worker is the one directly addressed by its
work item `j`, and the worker enumerates its pairs without a breach. -/
theorem stride_walk_agrees_with_direct_addressing (q item t : Nat) :
    (nextPairOffset · (1 <<< q))^[t] (pairOffset item q) = pairOffset (item + t) q ∧
    pairOffset (item + t) q &&& 1 <<< q = 0 ∧
    (q + 1 < indexBits → pairOffset (item + t) q < 2 ^ indexBits →
      (fun offset : Guarded Nat => offset >>= (Guarded.nextPairOffset · (1 <<< q)))^[t]
        (Guarded.pairOffset item q) = .ok (pairOffset (item + t) q) ∧
      Guarded.pairOffset (item + t) q = .ok (pairOffset (item + t) q)) ∧
    ∀ q2 q3 perThread worker : Nat,
      let pairs := groups .gate1 q q2 q3 perThread worker
      let items := workerItems worker (perThread / 2)
      pairs.length = items.length ∧
      (∀ j item : Nat, items[j]? = some item →
        pairs[j]? = some [pairOffset item q, pairOffset item q ||| 1 <<< q] ∧
        pairOffset item q &&& 1 <<< q = 0) ∧
      (q + 1 < indexBits → pairOffset ((worker + 1) * (perThread / 2)) q < 2 ^ indexBits →
        Guarded.groups .gate1 q q2 q3 perThread worker = .ok pairs) := by
  refine ⟨iterate_nextPairOffset q item t, pairOffset_and_stride _ q, ?_, ?_⟩
  · intro hq hfits
    exact ⟨Guarded.iterate_nextPairOffset hq hfits, Guarded.pairOffset_eq hq hfits⟩
  · intro q2 q3 perThread worker pairs items
    have hpairs : pairs = items.map fun item => pairMembers (pairOffset item q) q :=
      groups_gate1_eq_map q q2 q3 perThread worker
    refine ⟨by rw [hpairs, List.length_map], ?_,
      fun hq hfits => Guarded.groups_gate1_eq hq q2 q3 hfits⟩
    intro j item hitem
    refine ⟨?_, pairOffset_and_stride item q⟩
    rw [hpairs, List.getElem?_map, hitem]
    rfl

/-- Two steps near the end of the words, the first over a half of `2 ^ 61` offsets. -/
theorem stride_walk_agrees_with_direct_addressing_far_out :
    pairOffset (2 ^ 61 - 1) 61 = 2 ^ 61 - 1 ∧
      (fun offset : Guarded Nat => offset >>= (Guarded.nextPairOffset · (1 <<< 61)))^[2]
        (Guarded.pairOffset (2 ^ 61 - 1) 61) = .ok (2 ^ 62 + 1) ∧
      Guarded.groups .gate1 9 0 0 8 100 = .ok (groups .gate1 9 0 0 8 100) := by
  obtain ⟨_, _, hwords, _⟩ := stride_walk_agrees_with_direct_addressing 61 (2 ^ 61 - 1) 2
  obtain ⟨_, _, _, hworkers⟩ := stride_walk_agrees_with_direct_addressing 9 400 3
  refine ⟨by decide, (hwords (by decide) (by decide)).1, ?_⟩
  exact (hworkers 0 0 8 100).2.2 (by decide) (by decide)

end ShotSim
