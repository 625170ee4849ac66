import Mathlib.Data.List.Perm.Subperm
import Mathlib.Data.List.Nodup
import Mathlib.Tactic.Ring
import ShotSim.Proofs.Placement
import ShotSim.Sweep

/-!
# Partition — who touches which amplitude

The work of a step is cut twice: over workgroups, and within a workgroup over threads.  For the
layouts that a run can have, the groups of all workers together name every index exactly once, and a
workgroup whose operands lie low enough stays within its own stretch.

* `Layout.Tiled` — the shape of those layouts: all counts are powers of two;
* `groups_eq_map_group` — a worker goes over consecutive work items, whatever the mode;
* `perm_flatten_groups` — the groups of a step cover the block without overlap;
* `div_eq_of_mem_workgroup` — a workgroup with low operands stays in its stretch.
-/

namespace ShotSim

open BasisIndex

/-! ## Layouts -/

namespace Layout

/-- All counts of the layout are powers of two, with at least eight amplitudes per thread. -/
structure Tiled (l : Layout) (e w : Nat) : Prop where
  three_le : 3 ≤ e
  le_seven : e ≤ 7
  perThread : l.entriesPerThread = 2 ^ e
  workgroups : l.workgroups = 2 ^ w
  qubits : l.qubitCount = w + (e + 5)

theorem entriesPerShot_eq (l : Layout) : l.entriesPerShot = 2 ^ l.qubitCount := rfl

/-- Every layout of a circuit is tiled by powers of two. -/
theorem exists_tiled_ofCircuit (n : Nat) {m : Nat} (hmin : minQubitsPerWorkgroup ≤ m)
    (hmax : m ≤ maxQubitsPerWorkgroup) : ∃ e w, (ofCircuit n m).Tiled e w := by
  have hm : 8 ≤ m ∧ m ≤ 12 := ⟨hmin, hmax⟩
  have hcap : min m maxQubitsPerWorkgroup = m := Nat.min_eq_left hmax
  have hn : 10 ≤ max n minQubitCount := Nat.le_max_right _ _
  generalize hN : max n minQubitCount = N at hn
  by_cases hfit : N ≤ m
  · -- One workgroup takes the whole shot.
    refine ⟨N - 5, 0, ?_⟩
    have hsplit : 2 ^ N = 2 ^ (N - 5) * 32 := by
      rw [show N = N - 5 + 5 by omega, Nat.pow_add, Nat.add_sub_cancel]
    exact
      { three_le := by omega
        le_seven := by omega
        perThread := by
          simp only [ofCircuit, hN, hcap, if_pos hfit, threadsPerWorkgroup, Nat.div_one,
            Nat.pow_eq, hsplit]
          exact Nat.mul_div_cancel _ (by omega)
        workgroups := by simp only [ofCircuit, hN, hcap, if_pos hfit, Nat.pow_zero]
        qubits := by
          simp only [ofCircuit, hN]
          omega }
  · refine ⟨m - 5, N - m, ?_⟩
    have hsplit : 2 ^ N = 2 ^ (N - m) * (2 ^ (m - 5) * 32) := by
      rw [show (32 : Nat) = 2 ^ 5 by rfl, ← Nat.pow_add, ← Nat.pow_add]
      congr 1
      omega
    exact
      { three_le := by omega
        le_seven := by omega
        perThread := by
          simp only [ofCircuit, hN, hcap, if_neg hfit, threadsPerWorkgroup, Nat.pow_eq, hsplit]
          rw [Nat.mul_div_cancel_left _ (Nat.two_pow_pos _), Nat.mul_div_cancel _ (by omega)]
        workgroups := by simp only [ofCircuit, hN, hcap, if_neg hfit, Nat.pow_eq]
        qubits := by
          simp only [ofCircuit, hN]
          omega }

theorem twosIn_two_pow {k fuel : Nat} (h : k < fuel) : twosIn fuel (2 ^ k) = k := by
  induction k generalizing fuel with
  | zero =>
      cases fuel with
      | zero => omega
      | succ fuel => simp [twosIn]
  | succ k ih =>
      cases fuel with
      | zero => omega
      | succ fuel =>
          have hodd : 2 ^ (k + 1) % 2 = 0 := by
            rw [Nat.pow_succ]
            exact Nat.mul_mod_left _ _
          have hhalf : 2 ^ (k + 1) / 2 = 2 ^ k := by
            rw [Nat.pow_succ]
            exact Nat.mul_div_cancel _ (by omega)
          rw [twosIn, if_pos hodd, hhalf, ih (by omega)]

namespace Tiled

variable {l : Layout} {e w : Nat}

theorem entriesPerWorkgroup (h : l.Tiled e w) : l.entriesPerWorkgroup = 2 ^ (e + 5) := by
  rw [Layout.entriesPerWorkgroup, h.perThread, threadsPerWorkgroup, Nat.pow_add]

theorem shardBits (h : l.Tiled e w) : l.shardBits = e + 5 := by
  have hle := h.le_seven
  rw [Layout.shardBits, trailingZeros, h.entriesPerWorkgroup, twosIn_two_pow (by omega)]

theorem entriesPerShot (h : l.Tiled e w) : l.entriesPerShot = 2 ^ w * 2 ^ (e + 5) := by
  rw [entriesPerShot_eq, h.qubits, Nat.pow_add]

/-- The workgroups of a tiled layout make up the shot. -/
theorem workgroups_mul (h : l.Tiled e w) :
    l.workgroups * l.entriesPerWorkgroup = l.entriesPerShot := by
  rw [h.workgroups, h.entriesPerWorkgroup, h.entriesPerShot]

end Tiled
end Layout

/-! ## Groups of work items -/

namespace BasisIndex

theorem length_group (qs : List Nat) (item : Nat) : (group qs item).length = 2 ^ qs.length := by
  simp [group]

theorem localIndex_zero (qs : List Nat) : localIndex qs 0 = 0 := by
  induction qs with
  | nil => rfl
  | cons q rest ih => simp [localIndex, ih]

/-- The base of a group is its member of local index zero. -/
theorem place_base_zero {qs : List Nat} (hlen : qs.length ≤ 3) (hqs : qs.Nodup) (item : Nat) :
    place qs (spread (rising qs) item) 0 = spread (rising qs) item := by
  have hzero : localIndex qs (spread (rising qs) item) = 0 := by
    rw [← localIndex_zero qs]
    apply localIndex_congr
    intro q hq
    rw [testBit_base hlen hqs hq, Nat.zero_testBit]
  have hback := place_localIndex qs (spread (rising qs) item)
  rwa [hzero] at hback

/-- The members of a group are distinct. -/
theorem nodup_group {qs : List Nat} (hqs : qs.Nodup) (item : Nat) : (group qs item).Nodup := by
  apply List.Nodup.map_on _ List.nodup_range
  intro v hv w hw h
  exact place_injOn hqs (List.mem_range.1 hv) (List.mem_range.1 hw) h

/-- A member determines its whole group, and its place in it is its local index. -/
theorem group_eq_of_mem {qs : List Nat} (hqs : qs.Nodup) {item i : Nat} (h : i ∈ group qs item) :
    group qs item = (List.range (2 ^ qs.length)).map (place qs i) ∧
      (group qs item)[localIndex qs i]? = some i := by
  rcases List.mem_map.1 h with ⟨v, hv, rfl⟩
  have hvlt : v < 2 ^ qs.length := List.mem_range.1 hv
  constructor
  · apply List.map_congr_left
    intro l _
    exact (place_place qs _ v l).symm
  · have hlocal : localIndex qs (place qs (spread (rising qs) item) v) = v := by
      rw [localIndex_place hqs, Nat.mod_eq_of_lt hvlt]
    rw [hlocal, group, List.getElem?_map, List.getElem?_range hvlt]
    rfl

/-- Groups of different items have no member in common. -/
theorem item_eq_of_mem {qs : List Nat} (hlen : qs.length ≤ 3) (hqs : qs.Nodup) {item item' i : Nat}
    (h : i ∈ group qs item) (h' : i ∈ group qs item') : item = item' := by
  have hbase : ∀ {k}, i ∈ group qs k → place qs i 0 = spread (rising qs) k := by
    intro k hk
    rcases List.mem_map.1 hk with ⟨v, _, rfl⟩
    rw [place_place, place_base_zero hlen hqs]
  exact spread_injective (rising qs) ((hbase h).symm.trans (hbase h'))

/-- The members of a group are below `2 ^ n`. -/
theorem group_lt {qs : List Nat} {n item i : Nat} (hn : ∀ q ∈ qs, q < n) (hroom : qs.length ≤ n)
    (hitem : item < 2 ^ (n - qs.length)) (h : i ∈ group qs item) : i < 2 ^ n := by
  rcases List.mem_map.1 h with ⟨v, _, rfl⟩
  apply place_lt _ hn
  have hlt := spread_lt (rising qs) hitem
  rwa [length_rising, Nat.sub_add_cancel hroom] at hlt

/-- With all operands below `s`, the bits of a member from `s` on are those of its item. -/
theorem div_eq_of_mem_group {qs : List Nat} (hlen : qs.length ≤ 3) (hqs : qs.Nodup) {s item i : Nat}
    (hs : ∀ q ∈ qs, q < s) (h : i ∈ group qs item) : i / 2 ^ s = item / 2 ^ (s - qs.length) := by
  rcases List.mem_map.1 h with ⟨v, _, rfl⟩
  have hs' : ∀ q ∈ rising qs, q < s := fun q hq => hs q ((mem_rising hlen).1 hq)
  rw [place_div hs, spread_div (pairwise_rising hlen hqs) hs', length_rising]

/-- There are at most `n` distinct operands below `n`. -/
theorem length_le_of_forall_lt {qs : List Nat} {n : Nat} (hqs : qs.Nodup) (hn : ∀ q ∈ qs, q < n) :
    qs.length ≤ n := by
  have hsub : qs ⊆ List.range n := fun q hq => List.mem_range.2 (hn q hq)
  simpa using (hqs.subperm hsub).length_le

/-- The groups of all items cover the indices below `2 ^ n`, each of them once. -/
theorem perm_flatten_map_group {qs : List Nat} (hlen : qs.length ≤ 3) (hqs : qs.Nodup) {n : Nat}
    (hn : ∀ q ∈ qs, q < n) :
    (((List.range (2 ^ (n - qs.length))).map (group qs)).flatten).Perm (List.range (2 ^ n)) := by
  have hroom : qs.length ≤ n := length_le_of_forall_lt hqs hn
  have hnodup : (((List.range (2 ^ (n - qs.length))).map (group qs)).flatten).Nodup := by
    rw [← List.flatMap_def, List.nodup_flatMap]
    refine ⟨fun item _ => nodup_group hqs item, ?_⟩
    apply List.Pairwise.imp _ List.pairwise_lt_range
    intro item item' hlt i hi hi'
    exact absurd (item_eq_of_mem hlen hqs hi hi') (Nat.ne_of_lt hlt)
  have hsub : ((List.range (2 ^ (n - qs.length))).map (group qs)).flatten ⊆ List.range (2 ^ n) := by
    intro i hi
    rcases List.mem_flatten.1 hi with ⟨g, hg, hig⟩
    rcases List.mem_map.1 hg with ⟨item, hitem, rfl⟩
    exact List.mem_range.2 (group_lt hn hroom (List.mem_range.1 hitem) hig)
  have hcount : (((List.range (2 ^ (n - qs.length))).map (group qs)).flatten).length = 2 ^ n := by
    rw [List.length_flatten, List.map_map]
    have hconst : (List.length ∘ group qs) = fun _ => 2 ^ qs.length := by
      funext item
      exact length_group qs item
    rw [hconst, List.map_const', List.sum_replicate_nat, List.length_range, ← Nat.pow_add,
      Nat.sub_add_cancel hroom]
  -- Without repetition, within the range and as long as it: nothing can be missing.
  exact (hnodup.subperm hsub).perm_of_length_le (by rw [hcount, List.length_range])

/-- The items of consecutive workers are consecutive. -/
theorem flatMap_workerItems (start count c : Nat) :
    (List.range' start count).flatMap (workerItems · c) = List.range' (start * c) (count * c) := by
  induction count generalizing start with
  | zero => simp
  | succ count ih =>
      rw [List.range'_succ, List.flatMap_cons, ih, workerItems, Nat.add_mul start 1 c, Nat.one_mul]
      rw [List.range'_append_1, Nat.add_mul, Nat.one_mul, Nat.add_comm c]

end BasisIndex

/-! ## Groups of a step -/

namespace Mode

def operands {R : Type} (mode : Mode) (op : Op R) : List Nat :=
    [op.q1, op.q2, op.q3].take mode.arity

theorem arity_le (mode : Mode) : mode.arity ≤ 3 := by
  cases mode <;> decide

theorem length_operands {R : Type} (mode : Mode) (op : Op R) :
    (mode.operands op).length = mode.arity := by
  have hle := mode.arity_le
  simp only [operands, List.length_take, List.length_cons, List.length_nil]
  omega

theorem length_operands_le {R : Type} (mode : Mode) (op : Op R) :
    (mode.operands op).length ≤ 3 := by
  rw [length_operands]
  exact mode.arity_le

end Mode

/-- In every mode a worker visits the groups of consecutive work items. -/
theorem groups_eq_map_group {R : Type} (mode : Mode) (op : Op R) (h : (mode.operands op).Nodup)
    (perThread worker : Nat) :
    groups mode op.q1 op.q2 op.q3 perThread worker =
      (workerItems worker (perThread / 2 ^ mode.arity)).map (group (mode.operands op)) := by
  cases mode with
  | resetAll | extract | scaleOnly =>
      simp only [groups, Mode.operands, Mode.arity, Nat.pow_zero, Nat.div_one, List.take_zero]
      apply List.map_congr_left
      intro index _
      rfl
  | gate1 =>
      simp only [groups, Mode.operands, Mode.arity, Nat.pow_one, workerItems, pairWalk_eq_map,
        List.map_map]
      apply List.map_congr_left
      intro item _
      exact pairMembers_eq_group item op.q1
  | gate2 =>
      simp only [groups, Mode.arity]
      apply List.map_congr_left
      intro item _
      exact quadMembers_eq_group h item
  | gate3 =>
      simp only [groups, Mode.arity]
      apply List.map_congr_left
      intro item _
      exact octetMembers_eq_group h item

/-- The groups visited by the workers of a workgroup, in thread order. -/
def workgroupGroups {R : Type} (mode : Mode) (op : Op R) (perThread workgroup : Nat) :
    List (List Nat) :=
  (workerItems workgroup threadsPerWorkgroup).flatMap
    (groups mode op.q1 op.q2 op.q3 perThread)

section Workgroups

variable {R : Type} {l : Layout} {e w : Nat} (ht : l.Tiled e w) {mode : Mode} {op : Op R}
  (hqs : (mode.operands op).Nodup)

include ht hqs

/-- The groups of a workgroup are those of its work items. -/
theorem workgroupGroups_eq_map (workgroup : Nat) :
    workgroupGroups mode op l.entriesPerThread workgroup =
      (workerItems workgroup (2 ^ (e + 5 - mode.arity))).map (group (mode.operands op)) := by
  have hk : mode.arity ≤ e := Nat.le_trans mode.arity_le ht.three_le
  have hper : l.entriesPerThread / 2 ^ mode.arity = 2 ^ (e - mode.arity) := by
    rw [ht.perThread, Nat.pow_div hk (by omega)]
  have hitems : threadsPerWorkgroup * 2 ^ (e - mode.arity) = 2 ^ (e + 5 - mode.arity) := by
    rw [threadsPerWorkgroup, show (32 : Nat) = 2 ^ 5 by rfl, ← Nat.pow_add]
    congr 1
    omega
  have hgroups : groups mode op.q1 op.q2 op.q3 l.entriesPerThread = fun worker =>
      (workerItems worker (2 ^ (e - mode.arity))).map (group (mode.operands op)) := by
    funext worker
    rw [groups_eq_map_group mode op hqs, hper]
  rw [workgroupGroups, hgroups, ← List.map_flatMap, workerItems, flatMap_workerItems, workerItems,
    ← hitems, Nat.mul_assoc]

/-- The groups of all workgroups partition the block. -/
theorem perm_flatten_groups (hn : ∀ q ∈ mode.operands op, q < l.qubitCount) :
    (((List.range l.workgroups).flatMap
      (workgroupGroups mode op l.entriesPerThread)).flatten).Perm
        (List.range l.entriesPerShot) := by
  have hk : mode.arity ≤ e := Nat.le_trans mode.arity_le ht.three_le
  have hall : (List.range l.workgroups).flatMap (workgroupGroups mode op l.entriesPerThread) =
      (List.range (2 ^ (l.qubitCount - (mode.operands op).length))).map
      (group (mode.operands op)) := by
    have hgroups : workgroupGroups mode op l.entriesPerThread = fun workgroup =>
        (workerItems workgroup (2 ^ (e + 5 - mode.arity))).map (group (mode.operands op)) := by
      funext workgroup
      exact workgroupGroups_eq_map ht hqs workgroup
    have hcount : l.workgroups * 2 ^ (e + 5 - mode.arity) = 2 ^ (l.qubitCount - mode.arity) := by
      rw [ht.workgroups, ht.qubits, ← Nat.pow_add]
      congr 1
      omega
    rw [hgroups, ← List.map_flatMap, List.range_eq_range', flatMap_workerItems,
      Nat.zero_mul, hcount, Mode.length_operands, List.range_eq_range']
  rw [hall, Layout.entriesPerShot_eq]
  exact perm_flatten_map_group (mode.length_operands_le op) hqs hn

/-- With all operands below the shard bits, a workgroup stays within its own stretch. -/
theorem div_eq_of_mem_workgroup (hs : ∀ q ∈ mode.operands op, q < l.shardBits) {workgroup i : Nat}
    (hi : i ∈ (workgroupGroups mode op l.entriesPerThread workgroup).flatten) :
    i / l.entriesPerWorkgroup = workgroup := by
  rw [workgroupGroups_eq_map ht hqs] at hi
  rcases List.mem_flatten.1 hi with ⟨g, hg, hig⟩
  rcases List.mem_map.1 hg with ⟨item, hitem, rfl⟩
  rw [ht.shardBits] at hs
  rw [ht.entriesPerWorkgroup, div_eq_of_mem_group (mode.length_operands_le op) hqs hs hig,
    Mode.length_operands]
  have hbounds := List.mem_range'_1.1 hitem
  rw [Nat.div_eq_iff (Nat.two_pow_pos _)]
  omega

end Workgroups

end ShotSim
