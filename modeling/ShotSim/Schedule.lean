/-!
# Schedules

The workgroups of a step run on the threads of a pool and report to one log. A report takes the next
number of the log in one go, so all that a pool decides is the order in which the reports arrive:
each workgroup has an order of its own, and the pool interleaves them.
-/

namespace ShotSim

/-- Interleaves queues by a list of turns. A turn pops the next item of its queue, if any; the
remaining items follow queue by queue. -/
def interleave {α : Type} : List Nat → List (List α) → List α
  | [], queues => queues.flatten
  | turn :: turns, queues =>
    match queues[turn]? with
    | some (item :: rest) => item :: interleave turns (queues.set turn rest)
    | _ => interleave turns queues

/-- The workgroups that report, turn by turn, by shot id and operation index. -/
def Schedule : Type := UInt32 → Nat → List Nat

namespace Schedule

/-- Every workgroup reports before the next one. -/
def inOrder : Schedule := fun _ _ => []

end Schedule

/-- The threads of the processor and the schedule they follow. -/
structure Pool where
  threads : Nat := 1
  schedule : Schedule := .inOrder

end ShotSim
