import Mathlib.Algebra.Group.Nat.Defs
import Mathlib.Data.List.Nodup
import Mathlib.Data.List.Perm.Basic
import ShotSim.Proofs.Sweep

/-!
# Interleaving — workers that report at the same time

The workers of a shot share one log.  A worker that has something to report takes a number from the
cursor, and then writes first the index and then the probability to the slot of that number, if
there is one. Between any two of these moves the others may make moves of their own.  The cursor is
read and moved on in one go, and nothing else that one worker writes is read by another.

* `Reporter.step`, `Crew.run` — one move of a worker, and a crew whose workers move in any order;
* `run_worker_by_worker`, `exists_run_idle` — each worker to its end, before the next begins;
* `settle`, `Crew.Sound` — the log once every store that is under way has been made;
* `Reporter.step_cases`, `Sound.step`, `Sound.run` — what a move can do, and what all moves
  preserve;
* `exists_told_of_idle`, `log_eq_of_sorted` — in the end the log holds all reports, in some order,
  and worker by worker in the order of the workers.
-/

namespace ShotSim

variable {R : Type}

/-! ## Stores -/

namespace ReportLog

def reserve (log : ReportLog R) : ReportLog R := { log with cursor := log.cursor + 1 }

/-- Modifies the record in a slot, if the slot exists. -/
def edit (log : ReportLog R) (slot : Nat) (f : Record R → Record R) : ReportLog R :=
  { log with slots := log.slots.modify slot f }

def storeIndex (log : ReportLog R) (slot index : Nat) : ReportLog R :=
  log.edit slot fun record => { record with index := index }

def storeProbability (log : ReportLog R) (slot : Nat) (probability : R) : ReportLog R :=
  log.edit slot fun record => { record with probability := probability }

/-- Edits of distinct slots commute. -/
theorem edit_comm (log : ReportLog R) {a b : Nat} (h : a ≠ b) (f g : Record R → Record R) :
    (log.edit a f).edit b g = (log.edit b g).edit a f := by
  have hslots : (log.slots.modify a f).modify b g = (log.slots.modify b g).modify a f := by
    apply Array.ext_getElem?
    intro i
    simp only [Array.getElem?_modify]
    by_cases hb : b = i
    · subst hb
      rw [if_pos rfl, if_neg h, if_neg h, if_pos rfl]
    · rw [if_neg hb, if_neg hb]
  exact congrArg (ReportLog.mk log.cursor) hslots

/-- `push` reserves a slot and then makes both stores. -/
theorem push_eq_stores (log : ReportLog R) (record : Record R) :
    log.push record = (log.reserve.storeIndex log.cursor.toNat record.index).storeProbability
      log.cursor.toNat record.probability := by
  have hslots : log.slots.setIfInBounds log.cursor.toNat record =
      (log.slots.modify log.cursor.toNat fun old => { old with index := record.index }).modify
        log.cursor.toNat fun old => { old with probability := record.probability } := by
    apply Array.ext_getElem?
    intro i
    simp only [Array.getElem?_modify, Array.getElem?_setIfInBounds]
    by_cases hi : log.cursor.toNat = i
    · by_cases hroom : i < log.slots.size
      · simp [hi, hroom]
      · simp [hi, hroom]
    · rw [if_neg hi, if_neg hi, if_neg hi]
  exact congrArg (ReportLog.mk (log.cursor + 1)) hslots

/-- `reserve` increments the cursor as long as it does not wrap. -/
theorem toNat_cursor_reserve {log : ReportLog R} (h : log.cursor.toNat + 1 < 2 ^ 32) :
    log.reserve.cursor.toNat = log.cursor.toNat + 1 := by
  rw [reserve, UInt32.toNat_add]
  exact Nat.mod_eq_of_lt h

end ReportLog

/-! ## Workers -/

/-- The pending stores of a worker. -/
inductive Errand (R : Type)
  | free
  /-- A number has been taken, and nothing has been written. -/
  | storing (slot : Nat) (record : Record R)
  /-- The index has been written. -/
  | finishing (slot : Nat) (probability : R)

namespace Errand

def slot? : Errand R → Option Nat
  | free => none
  | storing slot _ => some slot
  | finishing slot _ => some slot

def complete : Errand R → ReportLog R → ReportLog R
  | free, log => log
  | storing slot record,
      log => (log.storeIndex slot record.index).storeProbability slot record.probability
  | finishing slot probability, log => log.storeProbability slot probability

theorem cursor_complete (errand : Errand R) (log : ReportLog R) :
    (errand.complete log).cursor = log.cursor := by
  cases errand <;> rfl

/-- Completing an errand commutes with `reserve`. -/
theorem complete_reserve (errand : Errand R) (log : ReportLog R) :
    errand.complete log.reserve = (errand.complete log).reserve := by
  cases errand <;> rfl

/-- Completing an errand commutes with edits of other slots. -/
theorem complete_edit {errand : Errand R} {slot : Nat} (h : errand.slot? ≠ some slot)
    (log : ReportLog R) (f : Record R → Record R) :
    errand.complete (log.edit slot f) = (errand.complete log).edit slot f := by
  cases errand with
  | free => rfl
  | storing other record =>
      have hne : slot ≠ other := fun e => h (congrArg some e.symm)
      simp only [complete, ReportLog.storeIndex, ReportLog.storeProbability]
      rw [ReportLog.edit_comm _ hne, ReportLog.edit_comm _ hne]
  | finishing other probability =>
      have hne : slot ≠ other := fun e => h (congrArg some e.symm)
      exact ReportLog.edit_comm _ hne _ _

end Errand

/-- A worker that scans its indices and reports. -/
structure Reporter (R : Type) where
  window : Window R
  todo : List Nat
  errand : Errand R

/-- Workers sharing a log. -/
structure Crew (R : Type) where
  workers : List (Reporter R)
  log : ReportLog R

section Moves

variable [Scalar R] (factor threshold : R)

namespace Reporter

/-- The reports of a worker without a reserved slot. -/
def pending (worker : Reporter R) : List (Record R) :=
  reports factor threshold worker.window worker.todo

/-- One move of a worker: a store, or a look at the next index. -/
def step (worker : Reporter R) (log : ReportLog R) : Reporter R × ReportLog R :=
  match worker.errand with
  | .storing slot record =>
    ({ worker with errand := .finishing slot record.probability }, log.storeIndex slot record.index)
  | .finishing slot probability =>
    ({ worker with errand := .free }, log.storeProbability slot probability)
  | .free =>
    match worker.todo with
    | [] => (worker, log)
    | index :: rest =>
      let probability := (worker.window.get index).normSqr * (factor * factor)
      if Scalar.lt threshold probability then
        (⟨worker.window, rest, .storing log.cursor.toNat ⟨index, probability⟩⟩, log.reserve)
      else (⟨worker.window, rest, .free⟩, log)

/-- A move keeps the window of the worker. -/
theorem window_step (worker : Reporter R) (log : ReportLog R) :
    (worker.step factor threshold log).1.window = worker.window := by
  unfold step
  split
  · rfl
  · rfl
  · split
    · rfl
    · dsimp only
      split <;> rfl

/-- A move is silent, reserves a slot for the next report, or makes the next store of the errand. -/
theorem step_cases (worker : Reporter R) (log : ReportLog R) :
    let moved := worker.step factor threshold log
    (moved.2 = log ∧ moved.1.errand = worker.errand ∧
      moved.1.pending factor threshold = worker.pending factor threshold) ∨
    (∃ record, worker.errand = .free ∧ moved.1.errand = .storing log.cursor.toNat record ∧
      moved.2 = log.reserve ∧
      worker.pending factor threshold = record :: moved.1.pending factor threshold) ∨
    ∃ slot f, worker.errand.slot? = some slot ∧ moved.2 = log.edit slot f ∧
      (moved.1.errand.slot? = some slot ∨ moved.1.errand.slot? = none) ∧
      (∀ log, moved.1.errand.complete (log.edit slot f) = worker.errand.complete log) ∧
      moved.1.pending factor threshold = worker.pending factor threshold := by
  obtain ⟨window, todo, errand⟩ := worker
  cases errand with
  | storing slot record => exact .inr (.inr ⟨slot, _, rfl, rfl, .inl rfl, fun _ => rfl, rfl⟩)
  | finishing slot probability => exact .inr (.inr ⟨slot, _, rfl, rfl, .inr rfl, fun _ => rfl, rfl⟩)
  | free =>
      cases todo with
      | nil => exact .inl ⟨rfl, rfl, rfl⟩
      | cons index rest =>
          intro moved
          by_cases hlt : Scalar.lt threshold ((window.get index).normSqr * (factor * factor)) = true
          · have hmoved : moved = (⟨window, rest, .storing log.cursor.toNat
                ⟨index, (window.get index).normSqr * (factor * factor)⟩⟩, log.reserve) := if_pos hlt
            rw [hmoved]
            exact .inr (.inl ⟨_, rfl, rfl, rfl, by simp [pending, reports, hlt]⟩)
          · have hmoved : moved = (⟨window, rest, .free⟩, log) := if_neg hlt
            rw [hmoved]
            exact .inl ⟨rfl, rfl, by simp [pending, reports, hlt]⟩

end Reporter

namespace Crew

/-- The reports without a reserved slot, worker by worker. -/
def pending (crew : Crew R) : List (Record R) :=
  crew.workers.flatMap (·.pending factor threshold)

/-- One move of the worker at a position. -/
def step (crew : Crew R) (turn : Nat) : Crew R :=
  match crew.workers[turn]? with
  | none => crew
  | some worker =>
    let moved := worker.step factor threshold crew.log
    ⟨crew.workers.set turn moved.1, moved.2⟩

def run (crew : Crew R) (schedule : List Nat) : Crew R :=
    schedule.foldl (step factor threshold) crew

/-- Schedules compose. -/
theorem run_append (crew : Crew R) (first later : List Nat) :
    crew.run factor threshold (first ++ later) =
      (crew.run factor threshold first).run factor threshold later := List.foldl_append

def Idle {R : Type} (crew : Crew R) : Prop :=
  ∀ worker ∈ crew.workers, worker.todo = [] ∧ worker.errand = .free

/-- A step of the crew moves one worker and keeps the others. -/
theorem step_cases (crew : Crew R) (turn : Nat) :
    crew.step factor threshold turn = crew ∨
      ∃ before worker after, crew.workers = before ++ worker :: after ∧ before.length = turn ∧
        crew.step factor threshold turn =
          ⟨before ++ (worker.step factor threshold crew.log).1 :: after,
            (worker.step factor threshold crew.log).2⟩ := by
  unfold step
  split
  · exact .inl rfl
  · rename_i worker hworker
    obtain ⟨hlt, rfl⟩ := List.getElem?_eq_some_iff.1 hworker
    let moved := (crew.workers[turn].step factor threshold crew.log).1
    obtain ⟨before, after, hsplit, hplace, hset⟩ : ∃ before after,
        crew.workers = before ++ crew.workers[turn] :: after ∧ before.length = turn ∧
          crew.workers.set turn moved = before ++ moved :: after := List.exists_of_set hlt
    exact .inr ⟨before, crew.workers[turn], after, hsplit, hplace, congrArg (Crew.mk · _) hset⟩

/-- A run keeps all windows. -/
theorem windows_run (crew : Crew R) (schedule : List Nat) :
    (crew.run factor threshold schedule).workers.map (·.window) = crew.workers.map (·.window) := by
  induction schedule generalizing crew with
  | nil => rfl
  | cons turn rest ih =>
      refine (ih _).trans ?_
      rcases crew.step_cases factor threshold turn with hsame | ⟨before, worker, after,
        hworkers, _, hstep⟩
      · rw [hsame]
      · rw [hstep, hworkers]
        simp [Reporter.window_step]

/-- Workers that are not scheduled keep their state. -/
theorem take_workers_run (crew : Crew R) {count : Nat} {schedule : List Nat}
    (h : ∀ turn ∈ schedule, count ≤ turn) :
    (crew.run factor threshold schedule).workers.take count = crew.workers.take count := by
  induction schedule generalizing crew with
  | nil => rfl
  | cons turn rest ih =>
      refine (ih (crew.step factor threshold turn) fun other hother =>
        h other (List.mem_cons_of_mem _ hother)).trans ?_
      rcases crew.step_cases factor threshold turn with hsame | ⟨before, worker, after, hworkers,
        hplace, hstep⟩
      · rw [hsame]
      · have hcount : count ≤ before.length := hplace ▸ h turn List.mem_cons_self
        rw [hstep, hworkers, List.take_append_of_le_length hcount,
          List.take_append_of_le_length hcount]

/-! ## Worker by worker -/

/-- A step of the worker at a split of the crew. -/
theorem step_at (before after : List (Reporter R)) (worker : Reporter R) (log : ReportLog R) :
    (⟨before ++ worker :: after, log⟩ : Crew R).step factor threshold before.length =
      ⟨before ++ (worker.step factor threshold log).1 :: after,
        (worker.step factor threshold log).2⟩ := by
  simp [step]

/-- A worker scheduled often enough becomes idle. -/
theorem run_alone (before after : List (Reporter R)) (worker : Reporter R) (log : ReportLog R) :
    ∃ count log', (⟨before ++ worker :: after, log⟩ : Crew R).run factor threshold
        (List.replicate count before.length) =
      ⟨before ++ ⟨worker.window, [], .free⟩ :: after, log'⟩ := by
  obtain ⟨window, todo, errand⟩ := worker
  -- Once its stores are made, it goes from index to index, with two stores for each report.
  have hfree : ∀ log, ∃ count log',
      (⟨before ++ ⟨window, todo, .free⟩ :: after, log⟩ : Crew R).run factor threshold
        (List.replicate count before.length) = ⟨before ++ ⟨window, [], .free⟩ :: after, log'⟩ := by
    induction todo with
    | nil => exact fun log => ⟨0, log, rfl⟩
    | cons index rest ih =>
        intro log
        by_cases hlt : Scalar.lt threshold ((window.get index).normSqr * (factor * factor)) = true
        · obtain ⟨count, log', hrun⟩ :=
            ih ((log.reserve.storeIndex log.cursor.toNat index).storeProbability
            log.cursor.toNat ((window.get index).normSqr * (factor * factor)))
          refine ⟨count + 3, log', ?_⟩
          simpa only [run, List.replicate_succ, List.foldl_cons, step_at, Reporter.step, if_pos hlt]
            using hrun
        · obtain ⟨count, log', hrun⟩ := ih log
          refine ⟨count + 1, log', ?_⟩
          simpa only [run, List.replicate_succ, List.foldl_cons, step_at, Reporter.step, if_neg hlt]
            using hrun
  cases errand with
  | free => exact hfree log
  | storing slot record =>
      obtain ⟨count, log', hrun⟩ := hfree ((Errand.storing slot record).complete log)
      refine ⟨count + 2, log', ?_⟩
      simpa only [run, List.replicate_succ, List.foldl_cons, step_at, Reporter.step,
        Errand.complete]
        using hrun
  | finishing slot probability =>
      obtain ⟨count, log', hrun⟩ := hfree ((Errand.finishing slot probability).complete log)
      refine ⟨count + 1, log', ?_⟩
      simpa only [run, List.replicate_succ, List.foldl_cons, step_at, Reporter.step,
        Errand.complete]
        using hrun

/-- Scheduling the workers in order, each until idle, makes the crew idle. -/
theorem run_worker_by_worker (finished workers : List (Reporter R)) (log : ReportLog R) :
    ∃ schedule log', schedule.Pairwise (· ≤ ·) ∧ (∀ turn ∈ schedule, finished.length ≤ turn) ∧
      (⟨finished ++ workers, log⟩ : Crew R).run factor threshold schedule =
        ⟨finished ++ workers.map fun worker => ⟨worker.window, [], .free⟩, log'⟩ := by
  induction workers generalizing finished log with
  | nil => exact ⟨[], log, List.Pairwise.nil, by simp, rfl⟩
  | cons worker rest ih =>
      obtain ⟨count, log₁, hfirst⟩ := run_alone factor threshold finished rest worker log
      obtain ⟨later, log₂, hsorted, hle, hlater⟩ :=
        ih (finished ++ [⟨worker.window, [], .free⟩]) log₁
      simp only [List.length_append, List.length_singleton, List.append_assoc,
        List.singleton_append]
        at hle hlater
      refine ⟨List.replicate count finished.length ++ later, log₂, ?_, ?_, ?_⟩
      · refine List.pairwise_append.2 ⟨List.pairwise_replicate.2 (.inr (Nat.le_refl _)),
          hsorted, ?_⟩
        intro a ha b hb
        rw [List.eq_of_mem_replicate ha]
        exact Nat.le_of_succ_le (hle b hb)
      · intro turn hturn
        rcases List.mem_append.1 hturn with hown | hother
        · exact Nat.le_of_eq (List.eq_of_mem_replicate hown).symm
        · exact Nat.le_of_succ_le (hle turn hother)
      · rw [run_append, hfirst]
        exact hlater

/-- From every state some schedule makes the crew idle. -/
theorem exists_run_idle (crew : Crew R) :
    ∃ schedule, schedule.Pairwise (· ≤ ·) ∧ (crew.run factor threshold schedule).Idle := by
  obtain ⟨schedule, log', hsorted, _, hrun⟩ :=
    run_worker_by_worker factor threshold [] crew.workers crew.log
  simp only [List.nil_append] at hrun
  refine ⟨schedule, hsorted, ?_⟩
  rw [hrun]
  intro worker hworker
  obtain ⟨old, _, rfl⟩ := List.mem_map.1 hworker
  exact ⟨rfl, rfl⟩

end Crew

end Moves

/-! ## Stores that are under way -/

/-- Makes all pending stores. -/
def settle (workers : List (Reporter R)) (log : ReportLog R) : ReportLog R :=
  workers.foldl (fun log worker => worker.errand.complete log) log

def held (workers : List (Reporter R)) : List Nat := workers.filterMap (·.errand.slot?)

section Settle

variable {workers : List (Reporter R)} {log : ReportLog R}

/-- `settle` at a split of the crew. -/
theorem settle_append_cons (before after : List (Reporter R)) (worker : Reporter R)
    (log : ReportLog R) :
    settle (before ++ worker :: after) log =
      settle after (worker.errand.complete (settle before log)) := by
  rw [settle, List.foldl_append, List.foldl_cons]
  rfl

/-- `held` at a split of the crew. -/
theorem held_append_cons (before after : List (Reporter R)) (worker : Reporter R) :
    held (before ++ worker :: after) =
      held before ++ (worker.errand.slot?.toList ++ held after) := by
  rw [held, List.filterMap_append, List.filterMap_cons]
  cases worker.errand.slot? <;> rfl

theorem cursor_settle (workers : List (Reporter R)) (log : ReportLog R) :
    (settle workers log).cursor = log.cursor := by
  induction workers generalizing log with
  | nil => rfl
  | cons worker rest ih => exact (ih _).trans (worker.errand.cursor_complete log)

/-- Without reservations, `settle` is the identity. -/
theorem settle_of_free (h : ∀ worker ∈ workers, worker.errand = .free) :
    settle workers log = log := by
  induction workers with
  | nil => rfl
  | cons worker rest ih =>
      have hrest := ih fun other hother => h other (List.mem_cons_of_mem _ hother)
      rw [settle, List.foldl_cons, h worker List.mem_cons_self]
      exact hrest

/-- `settle` commutes with `reserve`. -/
theorem settle_reserve (workers : List (Reporter R)) (log : ReportLog R) :
    settle workers log.reserve = (settle workers log).reserve := by
  induction workers generalizing log with
  | nil => rfl
  | cons worker rest ih =>
      simp only [settle, List.foldl_cons] at ih ⊢
      rw [Errand.complete_reserve, ih]

/-- `settle` commutes with edits of slots that no worker holds. -/
theorem settle_edit {slot : Nat} (h : slot ∉ held workers) (f : Record R → Record R) :
    settle workers (log.edit slot f) = (settle workers log).edit slot f := by
  induction workers generalizing log with
  | nil => rfl
  | cons worker rest ih =>
      rw [← List.nil_append (worker :: rest), held_append_cons] at h
      simp only [held, List.filterMap_nil, List.nil_append, List.mem_append, Option.mem_toList,
        not_or] at h
      simp only [settle, List.foldl_cons] at ih ⊢
      rw [Errand.complete_edit h.1, ih h.2]

/-- `settle` commutes with `push` if no worker holds the next slot. -/
theorem settle_push (h : log.cursor.toNat ∉ held workers) (record : Record R) :
    settle workers (log.push record) = (settle workers log).push record := by
  rw [ReportLog.push_eq_stores, ReportLog.push_eq_stores, cursor_settle]
  simp only [ReportLog.storeIndex, ReportLog.storeProbability]
  rw [settle_edit h, settle_edit h, settle_reserve]

end Settle

/-! ## All moves -/

section Sound

variable [Scalar R] {factor threshold : R} {start : ReportLog R} {all : List (Record R)}

/-- `told` lists the records with reserved slots, in the order of reservation. With the pending ones
they are all records; with the pending stores made, the log is `start` with `told` pushed; and no
two pending stores share a slot. -/
structure Crew.Sound (factor threshold : R) (start : ReportLog R) (all told : List (Record R))
    (crew : Crew R) : Prop where
  settled : settle crew.workers crew.log = told.foldl ReportLog.push start
  shared : (told ++ crew.pending factor threshold).Perm all
  apart : (held crew.workers).Nodup
  below : ∀ slot ∈ held crew.workers, slot < crew.log.cursor.toNat

namespace Crew.Sound

variable {told : List (Record R)}

/-- The cursor counts the reserved slots without wrapping. -/
theorem toNat_cursor {crew : Crew R} (h : crew.Sound factor threshold start all told)
    (hword : start.cursor.toNat + all.length < 2 ^ 32) :
    crew.log.cursor.toNat = start.cursor.toNat + told.length := by
  have hlength := h.shared.length_eq
  rw [List.length_append] at hlength
  rw [← cursor_settle crew.workers, h.settled]
  exact toNat_cursor_foldl_push (by omega)

variable {before after : List (Reporter R)} {worker moved : Reporter R} {log : ReportLog R}
  (h : Sound factor threshold start all told ⟨before ++ worker :: after, log⟩)

include h

/-- A silent move preserves `Sound`. -/
theorem look (herrand : moved.errand = worker.errand)
    (hpending : moved.pending factor threshold = worker.pending factor threshold) :
    Sound factor threshold start all told ⟨before ++ moved :: after, log⟩ where
  settled := by
    rw [settle_append_cons, herrand, ← settle_append_cons]
    exact h.settled
  shared := by
    have hshared := h.shared
    simp only [pending, List.flatMap_append, List.flatMap_cons] at hshared ⊢
    rw [hpending]
    exact hshared
  apart := by
    rw [held_append_cons, herrand, ← held_append_cons]
    exact h.apart
  below := by
    rw [held_append_cons, herrand, ← held_append_cons]
    exact h.below

/-- A reservation preserves `Sound`, with one more record in the sequence. -/
theorem reserve (hword : start.cursor.toNat + all.length < 2 ^ 32) {record : Record R}
    (hfree : worker.errand = .free) (herrand : moved.errand = .storing log.cursor.toNat record)
    (hpending : worker.pending factor threshold = record :: moved.pending factor threshold) :
    Sound factor threshold start all (told ++ [record])
      ⟨before ++ moved :: after, log.reserve⟩ := by
  have hheld : held (before ++ worker :: after) = held before ++ held after := by
    rw [held_append_cons, hfree]
    rfl
  have hapart := h.apart
  have hbelow := h.below
  rw [hheld] at hapart hbelow
  have hfresh : log.cursor.toNat ∉ held before ++ held after := fun hmem =>
    Nat.lt_irrefl _ (hbelow _ hmem)
  -- The record was pending, so the numbers have not run out.
  have hnext : log.reserve.cursor.toNat = log.cursor.toNat + 1 := by
    have hcursor := h.toNat_cursor hword
    have hlength := h.shared.length_eq
    simp only [pending, List.flatMap_append, List.flatMap_cons, hpending, List.length_append,
      List.length_cons] at hlength
    dsimp only at hcursor
    exact ReportLog.toNat_cursor_reserve (by omega)
  refine ⟨?_, ?_, ?_, ?_⟩
  · -- Nobody holds the slot of the new number, so the report may as well come last.
    have hlast : (settle before log).cursor.toNat ∉ held after := by
      rw [cursor_settle]
      exact fun hmem => hfresh (List.mem_append_right _ hmem)
    calc settle (before ++ moved :: after) log.reserve
        = settle after ((settle before log).push record) := by
          rw [settle_append_cons, herrand, settle_reserve, ReportLog.push_eq_stores, cursor_settle]
          rfl
      _ = (settle after (settle before log)).push record := settle_push hlast record
      _ = (settle (before ++ worker :: after) log).push record := by
          rw [settle_append_cons, hfree]
          rfl
      _ = (told ++ [record]).foldl ReportLog.push start := by
          rw [List.foldl_append, ← h.settled]
          rfl
  · refine List.Perm.trans ?_ h.shared
    simp only [pending, List.flatMap_append, List.flatMap_cons, hpending, List.append_assoc,
      List.singleton_append]
    exact List.Perm.append_left told List.perm_middle.symm
  · rw [held_append_cons, herrand]
    exact List.nodup_middle.2 (List.nodup_cons.2 ⟨hfresh, hapart⟩)
  · rw [held_append_cons, herrand, hnext]
    intro slot hslot
    rcases List.mem_cons.1 (List.perm_middle.mem_iff.1 hslot) with rfl | hold
    · exact Nat.lt_succ_self _
    · exact Nat.lt_succ_of_lt (hbelow slot hold)

/-- A store preserves `Sound`. -/
theorem store {slot : Nat} {f : Record R → Record R} (hslot : worker.errand.slot? = some slot)
    (hleft : moved.errand.slot? = some slot ∨ moved.errand.slot? = none)
    (hcomplete : ∀ log, moved.errand.complete (log.edit slot f) = worker.errand.complete log)
    (hpending : moved.pending factor threshold = worker.pending factor threshold) :
    Sound factor threshold start all told ⟨before ++ moved :: after, log.edit slot f⟩ := by
  have hheld : held (before ++ worker :: after) = held before ++ slot :: held after := by
    rw [held_append_cons, hslot]
    rfl
  have hsub : (held (before ++ moved :: after)).Sublist (held (before ++ worker :: after)) := by
    rw [hheld, held_append_cons]
    apply List.Sublist.append_left
    rcases hleft with hsame | hnone
    · rw [hsame]
      exact List.Sublist.refl _
    · rw [hnone]
      exact List.sublist_cons_self _ _
  have hothers : slot ∉ held before := by
    have hapart := h.apart
    rw [hheld] at hapart
    intro hmem
    exact List.disjoint_of_nodup_append hapart hmem List.mem_cons_self
  refine ⟨?_, ?_, h.apart.sublist hsub, fun other hother => h.below other (hsub.subset hother)⟩
  · -- The store can wait until those before the worker have made theirs, and then it is the
    -- worker's own.
    rw [settle_append_cons, settle_edit hothers, hcomplete, ← settle_append_cons]
    exact h.settled
  · have hshared := h.shared
    simp only [pending, List.flatMap_append, List.flatMap_cons] at hshared ⊢
    rw [hpending]
    exact hshared

end Crew.Sound

/-- Every move preserves `Sound`. If all workers before the moving one are finished, records are
appended in worker order. -/
theorem Crew.Sound.step (hword : start.cursor.toNat + all.length < 2 ^ 32) {told : List (Record R)}
    {crew : Crew R} (h : crew.Sound factor threshold start all told) (turn : Nat) :
    ∃ told', (crew.step factor threshold turn).Sound factor threshold start all told' ∧
      ((∀ worker ∈ crew.workers.take turn, worker.pending factor threshold = []) →
        told' ++ (crew.step factor threshold turn).pending factor threshold =
          told ++ crew.pending factor threshold) := by
  rcases crew.step_cases factor threshold turn with hsame | ⟨before, worker, after, hworkers,
    hplace, hstep⟩
  · exact ⟨told, by rw [hsame]; exact h, fun _ => by rw [hsame]⟩
  · obtain ⟨workers, log⟩ := crew
    dsimp only at hworkers hstep ⊢
    subst hworkers
    rw [hstep]
    simp only [pending, List.flatMap_append, List.flatMap_cons]
    rcases worker.step_cases factor threshold log with ⟨hlog, herrand, hpending⟩ |
      ⟨record, hfree, herrand, hlog, hpending⟩ | ⟨slot, f, hslot, hlog, hleft, hcomplete, hpending⟩
    · exact ⟨told, by rw [hlog]; exact h.look herrand hpending, fun _ => by rw [hpending]⟩
    · refine ⟨told ++ [record], by rw [hlog]; exact h.reserve hword hfree herrand hpending, ?_⟩
      intro hbefore
      rw [← hplace, List.take_left] at hbefore
      rw [List.flatMap_eq_nil_iff.2 hbefore, hpending]
      simp
    · exact ⟨told, by rw [hlog]; exact h.store hslot hleft hcomplete hpending,
        fun _ => by rw [hpending]⟩

/-- Every schedule preserves `Sound`. -/
theorem Crew.Sound.run (hword : start.cursor.toNat + all.length < 2 ^ 32) {told : List (Record R)}
    {crew : Crew R} (h : crew.Sound factor threshold start all told) (schedule : List Nat) :
    ∃ told', (crew.run factor threshold schedule).Sound factor threshold start all told' := by
  induction schedule generalizing crew told with
  | nil => exact ⟨told, h⟩
  | cons turn rest ih =>
      obtain ⟨_, hnext, _⟩ := h.step hword turn
      exact ih hnext

/-- An idle crew has nothing pending. -/
theorem Crew.pending_of_idle {crew : Crew R} (hidle : crew.Idle) :
    crew.pending factor threshold = [] := by
  rw [pending, List.flatMap_eq_nil_iff]
  intro worker hworker
  rw [Reporter.pending, (hidle worker hworker).1]
  rfl

/-- The log of an idle crew is the start log with the recorded sequence pushed. -/
theorem Crew.Sound.log_of_idle {told : List (Record R)} {crew : Crew R}
    (h : crew.Sound factor threshold start all told) (hidle : crew.Idle) :
    crew.log = told.foldl ReportLog.push start := by
  rw [← h.settled, settle_of_free fun worker hworker => (hidle worker hworker).2]

/-- Under a worker-by-worker schedule the recorded sequence is in worker order. -/
theorem Crew.Sound.log_of_sorted (hword : start.cursor.toNat + all.length < 2 ^ 32)
    {told : List (Record R)} {crew : Crew R} (h : crew.Sound factor threshold start all told)
    {schedule : List Nat} (hsorted : schedule.Pairwise (· ≤ ·))
    (hidle : (crew.run factor threshold schedule).Idle) :
    (crew.run factor threshold schedule).log =
      (told ++ crew.pending factor threshold).foldl ReportLog.push start := by
  induction schedule generalizing crew told with
  | nil =>
      have hdone : crew.pending factor threshold = [] := pending_of_idle hidle
      rw [hdone, List.append_nil]
      exact h.log_of_idle hidle
  | cons turn rest ih =>
      obtain ⟨told', hnext, hkeeps⟩ := h.step hword turn
      have hlater := List.pairwise_cons.1 hsorted
      refine (ih hnext hlater.2 hidle).trans ?_
      rw [hkeeps]
      -- Whoever comes before has had all its turns, and so is already where it is in the end.
      intro worker hworker
      have hturns : ∀ other ∈ turn :: rest, turn ≤ other := by
        intro other hother
        rcases List.mem_cons.1 hother with rfl | hmem
        · exact Nat.le_refl _
        · exact hlater.1 other hmem
      rw [← crew.take_workers_run factor threshold hturns] at hworker
      rw [Reporter.pending, (hidle worker (List.mem_of_mem_take hworker)).1]
      rfl

end Sound

section Begin

variable [Scalar R] {factor threshold : R} {crew : Crew R}
  (hfree : ∀ worker ∈ crew.workers, worker.errand = .free)

include hfree

/-- A crew without reservations is sound. -/
theorem Crew.sound_of_free :
    crew.Sound factor threshold crew.log (crew.pending factor threshold) [] := by
  have hnone : held crew.workers = [] := by
    rw [held, List.filterMap_eq_nil_iff]
    intro worker hworker
    rw [hfree worker hworker]
    rfl
  exact ⟨settle_of_free hfree, List.Perm.refl _, by rw [hnone]; exact List.nodup_nil,
    by simp [hnone]⟩

variable (hword : crew.log.cursor.toNat + (crew.pending factor threshold).length < 2 ^ 32)
  {schedule : List Nat} (hidle : (crew.run factor threshold schedule).Idle)

include hword hidle

/-- A crew that starts without reservations and becomes idle under any schedule has pushed a
permutation of its pending reports. -/
theorem Crew.exists_told_of_idle :
    ∃ told : List (Record R), told.Perm (crew.pending factor threshold) ∧
      (crew.run factor threshold schedule).log = told.foldl ReportLog.push crew.log := by
  obtain ⟨told, hend⟩ := (sound_of_free hfree).run hword schedule
  have hshared := hend.shared
  rw [pending_of_idle hidle, List.append_nil] at hshared
  exact ⟨told, hshared, hend.log_of_idle hidle⟩

/-- Under a worker-by-worker schedule that permutation is the identity. -/
theorem Crew.log_eq_of_sorted (hsorted : schedule.Pairwise (· ≤ ·)) :
    (crew.run factor threshold schedule).log =
      (crew.pending factor threshold).foldl ReportLog.push crew.log :=
  (sound_of_free hfree).log_of_sorted hword hsorted hidle

end Begin

end ShotSim
