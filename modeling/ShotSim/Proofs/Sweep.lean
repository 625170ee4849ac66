import Mathlib.Algebra.Group.Nat.Defs
import Mathlib.Data.List.Nodup
import Mathlib.Data.List.Perm.Basic
import ShotSim.Sweep

/-!
# Sweeps over groups that do not overlap

A sweep writes in place, so a group could in principle read what an earlier group has left.  When no
index is named twice this cannot happen: every group sees the amplitudes from before the sweep.

* `Window.Owns` — the indices that a window holds;
* `getElem?_act_eq_get_sweep` — each member ends up with its entry of what the action makes of its
  group;
* `sweep_visits` — what was seen is what the action makes of the amplitudes from before the sweep;
* `sweep_perm` — the order of the groups does not matter.
-/

namespace ShotSim

variable {R : Type}

/-! ## Windows -/

namespace Window

/-- The window contains the index. -/
def Owns (w : Window R) (i : Nat) : Prop := w.base ≤ i ∧ i - w.base < w.amps.size

@[simp] theorem base_set (w : Window R) (i : Nat) (a : Cplx R) : (w.set i a).base = w.base := rfl

@[simp] theorem size_set (w : Window R) (i : Nat) (a : Cplx R) :
    (w.set i a).amps.size = w.amps.size := by
  simp [set]

@[simp] theorem owns_set {w : Window R} {i j : Nat} {a : Cplx R} : (w.set i a).Owns j ↔
    w.Owns j := by
  simp [Owns]

@[simp] theorem base_scatter (w : Window R) (members : List Nat) (amps : List (Cplx R)) :
    (w.scatter members amps).base = w.base := by
  fun_induction scatter w members amps with
  | case1 w index members amp amps ih => rw [ih, base_set]
  | case2 => rfl

@[simp] theorem size_scatter (w : Window R) (members : List Nat) (amps : List (Cplx R)) :
    (w.scatter members amps).amps.size = w.amps.size := by
  fun_induction scatter w members amps with
  | case1 w index members amp amps ih => rw [ih, size_set]
  | case2 => rfl

@[simp] theorem owns_scatter {w : Window R} {members : List Nat} {amps : List (Cplx R)} {j : Nat} :
    (w.scatter members amps).Owns j ↔ w.Owns j := by
  simp [Owns]

variable [Scalar R]

/-- Reading after writing one amplitude. -/
theorem get_set {w : Window R} {i j : Nat} (hi : w.Owns i) (hj : w.Owns j) (a : Cplx R) :
    (w.set i a).get j = if j = i then a else w.get j := by
  have hiff : i - w.base = j - w.base ↔ j = i := by
    have h1 := hi.1
    have h2 := hj.1
    omega
  have hbound := hj.2
  simp only [get, set, Array.getD_eq_getD_getElem?, Array.getElem?_setIfInBounds, hiff]
  by_cases hij : j = i
  · subst hij
    simp [hbound]
  · simp [hij]

/-- Writing back an amplitude is the identity. -/
theorem set_get (w : Window R) (i : Nat) : w.set i (w.get i) = w := by
  obtain ⟨base, amps⟩ := w
  simp only [set, get, Window.mk.injEq, true_and]
  apply Array.ext
  · simp
  · intro j hj hj'
    rw [Array.getElem_setIfInBounds hj']
    split
    · rename_i heq
      subst heq
      simp [hj']
    · rfl

omit [Scalar R] in
theorem owns_set_of_cons {w : Window R} {index : Nat} {members : List Nat}
    (h : ∀ i ∈ index :: members, w.Owns i) (amp : Cplx R) :
    ∀ i ∈ members, (w.set index amp).Owns i := by
  intro i hi
  exact owns_set.2 (h i (List.mem_cons_of_mem _ hi))

/-- `scatter` keeps the amplitudes outside its members. -/
theorem get_scatter_of_notMem {w : Window R} {members : List Nat} (amps : List (Cplx R)) {j : Nat}
    (hown : ∀ i ∈ members, w.Owns i) (hj : w.Owns j) (hmem : j ∉ members) :
    (w.scatter members amps).get j = w.get j := by
  fun_induction scatter w members amps with
  | case1 w index members amp amps ih =>
      have hne : j ≠ index := fun e => hmem (e ▸ List.mem_cons_self)
      rw [ih (owns_set_of_cons hown amp) (owns_set.2 hj) (fun h => hmem (List.mem_cons_of_mem _ h)),
        get_set (hown index List.mem_cons_self) hj, if_neg hne]
  | case2 => rfl

/-- `scatter` writes entry `l` to member `l`. -/
theorem getElem?_eq_get_scatter {w : Window R} {members : List Nat} {amps : List (Cplx R)}
    (hown : ∀ i ∈ members, w.Owns i) (hnodup : members.Nodup) (hlen : amps.length = members.length)
    {p i : Nat} (hp : members[p]? = some i) :
    amps[p]? = some ((w.scatter members amps).get i) := by
  induction members generalizing w amps p with
  | nil => simp at hp
  | cons index members ih =>
      cases amps with
      | nil => simp at hlen
      | cons amp amps =>
          have hcons := List.nodup_cons.1 hnodup
          have hrest := owns_set_of_cons hown amp
          cases p with
          | zero =>
              -- Later members differ from this one, so its entry stays.
              have hi : index = i := by simpa using hp
              subst hi
              have hself : w.Owns index := hown index List.mem_cons_self
              rw [scatter, get_scatter_of_notMem amps hrest (owns_set.2 hself) hcons.1,
                get_set hself hself, if_pos rfl]
              rfl
          | succ p =>
              have htail : members[p]? = some i := by simpa using hp
              have hlen' : amps.length = members.length := by simpa using hlen
              simpa [scatter] using ih hrest hcons.2 hlen' htail

/-- Writing back a group is the identity. -/
theorem scatter_get (w : Window R) (members : List Nat) :
    w.scatter members (members.map w.get) = w := by
  induction members with
  | nil => rfl
  | cons index members ih => rw [List.map_cons, scatter, set_get, ih]

/-- Windows with the same owned amplitudes are equal. -/
theorem ext_get {w w' : Window R} (hbase : w.base = w'.base) (hsize : w.amps.size = w'.amps.size)
    (h : ∀ i, w.Owns i → w.get i = w'.get i) : w = w' := by
  obtain ⟨base, amps⟩ := w
  obtain ⟨base', amps'⟩ := w'
  simp only at hbase hsize
  subst hbase
  congr 1
  apply Array.ext hsize
  intro j hj hj'
  have hown : (⟨base, amps⟩ : Window R).Owns (base + j) := by
    refine ⟨Nat.le_add_right _ _, ?_⟩
    simpa using hj
  have hget := h _ hown
  simpa [get, hj, hj'] using hget

end Window

variable [Scalar R]

/-! ## Actions on a group -/

namespace Operator

theorem length_apply (op : Operator R) (amps : List (Cplx R)) :
    (op.apply amps).length = amps.length := by
  unfold apply
  split <;> simp

end Operator

namespace Action

theorem length_act (action : Action R) {members : List Nat} {amps : List (Cplx R)}
    (h : amps.length = members.length) : (action.act members amps).length = members.length := by
  cases action with
  | ground => simp [act]
  | look => exact h
  | rescale factor => simpa [act] using h
  | gate operator factor => simpa [act, Operator.length_apply] using h

/-- The visited amplitudes of a group of `w`. -/
def visits (action : Action R) (w : Window R) (members : List Nat) : List (Visit R) :=
  members.zipWith (fun index amp => ⟨index, amp.normSqr⟩) (action.act members (members.map w.get))

/-- `visits` depends on the amplitudes of the group only. -/
theorem visits_congr (action : Action R) {w w' : Window R} {members : List Nat}
    (h : ∀ i ∈ members, w.get i = w'.get i) :
    action.visits w members = action.visits w' members := by
  have hmap : members.map w.get = members.map w'.get := List.map_congr_left h
  rw [visits, visits, hmap]

end Action

/-! ## Sweeps -/

/-- Sweeps compose. -/
theorem sweep_append (action : Action R) (gs gs' : List (List Nat)) (w : Window R) :
    sweep action (gs ++ gs') w =
      ((sweep action gs' (sweep action gs w).1).1,
        (sweep action gs w).2 ++ (sweep action gs' (sweep action gs w).1).2) := by
  induction gs generalizing w with
  | nil => rfl
  | cons members rest ih => simp only [List.cons_append, sweep, ih, List.append_assoc]

@[simp] theorem base_sweep (action : Action R) (gs : List (List Nat)) (w : Window R) :
    (sweep action gs w).1.base = w.base := by
  induction gs generalizing w with
  | nil => rfl
  | cons members rest ih => simp only [sweep, ih, Window.base_scatter]

@[simp] theorem size_sweep (action : Action R) (gs : List (List Nat)) (w : Window R) :
    (sweep action gs w).1.amps.size = w.amps.size := by
  induction gs generalizing w with
  | nil => rfl
  | cons members rest ih => simp only [sweep, ih, Window.size_scatter]

@[simp] theorem owns_sweep {action : Action R} {gs : List (List Nat)} {w : Window R} {i : Nat} :
    (sweep action gs w).1.Owns i ↔ w.Owns i := by
  simp [Window.Owns]

/-- A sweep that only looks is the identity on windows. -/
theorem sweep_look (gs : List (List Nat)) (w : Window R) : (sweep .look gs w).1 = w := by
  induction gs generalizing w with
  | nil => rfl
  | cons members rest ih => simp only [sweep, Action.act, Window.scatter_get, ih]

omit [Scalar R] in
theorem owns_of_mem_head {w : Window R} {members : List Nat} {rest : List (List Nat)}
    (h : ∀ i ∈ (members :: rest).flatten, w.Owns i) : ∀ i ∈ members, w.Owns i := by
  intro i hi
  exact h i (List.mem_append_left _ hi)

omit [Scalar R] in
theorem owns_scatter_of_mem_rest {w : Window R} {members : List Nat} {rest : List (List Nat)}
    (h : ∀ i ∈ (members :: rest).flatten, w.Owns i) (amps : List (Cplx R)) :
    ∀ i ∈ rest.flatten, (w.scatter members amps).Owns i := by
  intro i hi
  exact Window.owns_scatter.2 (h i (List.mem_append_right _ hi))

/-- A sweep keeps the amplitudes outside its groups. -/
theorem get_sweep_of_notMem {action : Action R} {gs : List (List Nat)} {w : Window R} {j : Nat}
    (hown : ∀ i ∈ gs.flatten, w.Owns i) (hj : w.Owns j) (hmem : j ∉ gs.flatten) :
    (sweep action gs w).1.get j = w.get j := by
  induction gs generalizing w with
  | nil => rfl
  | cons members rest ih =>
      rw [List.flatten_cons, List.mem_append, not_or] at hmem
      simp only [sweep]
      rw [ih (owns_scatter_of_mem_rest hown _) (Window.owns_scatter.2 hj) hmem.2,
        Window.get_scatter_of_notMem _ (owns_of_mem_head hown) hj hmem.1]

section Disjoint

variable {action : Action R} {members : List Nat} {rest : List (List Nat)} {w : Window R}

/-- Writing the first group keeps the amplitudes of the others. -/
theorem get_scatter_eq_of_mem_rest (hnodup : (members :: rest).flatten.Nodup)
    (hown : ∀ i ∈ (members :: rest).flatten, w.Owns i) {i : Nat} (hi : i ∈ rest.flatten)
    (amps : List (Cplx R)) : (w.scatter members amps).get i = w.get i := by
  have hdisj := List.disjoint_of_nodup_append hnodup
  apply Window.get_scatter_of_notMem amps
  · exact owns_of_mem_head hown
  · exact hown i (List.mem_append_right _ hi)
  · exact fun hmem => hdisj hmem hi

end Disjoint

/-- The visits of a sweep in terms of the initial window. -/
theorem sweep_visits (action : Action R) {gs : List (List Nat)} {w : Window R}
    (hnodup : gs.flatten.Nodup) (hown : ∀ i ∈ gs.flatten, w.Owns i) :
    (sweep action gs w).2 = gs.flatMap (action.visits w) := by
  induction gs generalizing w with
  | nil => rfl
  | cons members rest ih =>
      have hrest : rest.flatten.Nodup := (List.nodup_append.1 hnodup).2.1
      -- The first group writes only to itself, so the others see what was there before.
      have hsame : rest.flatMap (action.visits
            (w.scatter members (action.act members (members.map w.get)))) =
          rest.flatMap (action.visits w) := by
        apply List.flatMap_congr
        intro g hg
        apply action.visits_congr
        intro i hi
        exact get_scatter_eq_of_mem_rest hnodup hown (List.mem_flatten.2 ⟨g, hg, hi⟩) _
      simp only [sweep, List.flatMap_cons]
      rw [ih hrest (owns_scatter_of_mem_rest hown _), hsame]
      rfl

/-- After a sweep each member holds its entry of the action on its group. -/
theorem getElem?_act_eq_get_sweep (action : Action R) {gs : List (List Nat)} {w : Window R}
    (hnodup : gs.flatten.Nodup) (hown : ∀ i ∈ gs.flatten, w.Owns i) {g : List Nat} (hg : g ∈ gs)
    {p i : Nat} (hp : g[p]? = some i) :
    (action.act g (g.map w.get))[p]? = some ((sweep action gs w).1.get i) := by
  induction gs generalizing w with
  | nil => cases hg
  | cons members rest ih =>
      have happ := List.nodup_append.1 hnodup
      have hhead := owns_of_mem_head hown
      have htail := owns_scatter_of_mem_rest hown (action.act members (members.map w.get))
      rcases List.mem_cons.1 hg with rfl | hrest
      · -- The group itself: later groups do not touch what it has written.
        have hmem : i ∈ g := List.mem_of_getElem? hp
        have hlater : i ∉ rest.flatten := fun h => List.disjoint_of_nodup_append hnodup hmem h
        simp only [sweep]
        rw [get_sweep_of_notMem htail (Window.owns_scatter.2 (hhead i hmem)) hlater]
        exact Window.getElem?_eq_get_scatter hhead happ.1 (action.length_act (by simp)) hp
      · -- A later group: it reads what was there before the first one.
        have hread : g.map (w.scatter members (action.act members (members.map w.get))).get =
            g.map w.get := by
          apply List.map_congr_left
          intro j hj
          exact get_scatter_eq_of_mem_rest hnodup hown (List.mem_flatten.2 ⟨g, hrest, hj⟩) _
        have hfound := ih happ.2.1 htail hrest
        rw [hread] at hfound
        exact hfound

/-- Windows that agree on a group agree on it after a sweep. -/
theorem get_sweep_congr (action : Action R) {gs gs' : List (List Nat)} {w w' : Window R}
    (hnodup : gs.flatten.Nodup) (hnodup' : gs'.flatten.Nodup) (hown : ∀ i ∈ gs.flatten, w.Owns i)
    (hown' : ∀ i ∈ gs'.flatten, w'.Owns i) {g : List Nat} (hg : g ∈ gs) (hg' : g ∈ gs')
    (hsame : ∀ i ∈ g, w.get i = w'.get i) {i : Nat} (hi : i ∈ g) :
    (sweep action gs w).1.get i = (sweep action gs' w').1.get i := by
  obtain ⟨p, hp⟩ := List.getElem?_of_mem hi
  have hleft := getElem?_act_eq_get_sweep action hnodup hown hg hp
  have hright := getElem?_act_eq_get_sweep action hnodup' hown' hg' hp
  rw [List.map_congr_left hsame, hright] at hleft
  exact (Option.some.inj hleft).symm

/-- A sweep over disjoint groups is independent of their order. -/
theorem sweep_perm (action : Action R) {gs gs' : List (List Nat)} (hperm : gs.Perm gs')
    {w : Window R} (hnodup : gs.flatten.Nodup) (hown : ∀ i ∈ gs.flatten, w.Owns i) :
    (sweep action gs w).1 = (sweep action gs' w).1 := by
  have hflat : gs.flatten.Perm gs'.flatten := hperm.flatten
  have hnodup' : gs'.flatten.Nodup := hflat.nodup_iff.1 hnodup
  have hown' : ∀ i ∈ gs'.flatten, w.Owns i := fun i hi => hown i (hflat.mem_iff.2 hi)
  apply Window.ext_get
  · rw [base_sweep, base_sweep]
  · rw [size_sweep, size_sweep]
  · intro i hi
    have hi' : w.Owns i := owns_sweep.1 hi
    by_cases hmem : i ∈ gs.flatten
    · rcases List.mem_flatten.1 hmem with ⟨g, hg, hig⟩
      exact get_sweep_congr action hnodup hnodup' hown hown' hg (hperm.mem_iff.1 hg)
        (fun _ _ => rfl) hig
    · have hmem' : i ∉ gs'.flatten := fun h => hmem (hflat.mem_iff.2 h)
      rw [get_sweep_of_notMem hown hi' hmem, get_sweep_of_notMem hown' hi' hmem']

/-! ## Reports -/

theorem reports_cons (factor threshold : R) (w : Window R) (index : Nat) (rest : List Nat) :
    reports factor threshold w (index :: rest) =
      if Scalar.lt threshold ((w.get index).normSqr * (factor * factor)) then
        ⟨index, (w.get index).normSqr * (factor * factor)⟩ :: reports factor threshold w rest
      else reports factor threshold w rest := by
  by_cases hlt : Scalar.lt threshold ((w.get index).normSqr * (factor * factor)) = true
  · simp [reports, hlt]
  · simp [reports, hlt]

/-- Reports over appended indices are appended. -/
theorem reports_append (factor threshold : R) (w : Window R) (is js : List Nat) :
    reports factor threshold w (is ++ js) =
      reports factor threshold w is ++ reports factor threshold w js :=
  List.filterMap_append

/-- Reports depend on the amplitudes of their indices only. -/
theorem reports_congr (factor threshold : R) {w w' : Window R} {indices : List Nat}
    (h : ∀ i ∈ indices, w.get i = w'.get i) :
    reports factor threshold w indices = reports factor threshold w' indices := by
  apply List.filterMap_congr
  intro i hi
  rw [h i hi]

omit [Scalar R] in
/-- Every pushed record moves the cursor, kept or not. -/
theorem cursor_foldl_push (records : List (Record R)) (log : ReportLog R) :
    (records.foldl ReportLog.push log).cursor = log.cursor + UInt32.ofNat records.length := by
  induction records generalizing log with
  | nil => simp
  | cons record rest ih =>
      rw [List.foldl_cons, ih, ReportLog.push, List.length_cons, UInt32.ofNat_add, UInt32.add_assoc,
        UInt32.add_comm (UInt32.ofNat rest.length)]
      rfl

omit [Scalar R] in
theorem toNat_cursor_foldl_push {records : List (Record R)} {log : ReportLog R}
    (h : log.cursor.toNat + records.length < 2 ^ 32) :
    (records.foldl ReportLog.push log).cursor.toNat = log.cursor.toNat + records.length := by
  rw [cursor_foldl_push, UInt32.toNat_add, UInt32.toNat_ofNat_of_lt' (by change _ < 2 ^ 32; omega)]
  exact Nat.mod_eq_of_lt h

end ShotSim
