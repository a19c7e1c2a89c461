import Caret.Change

/-!
# Runs of the change log

A log is cut into maximal runs that one pass over sorted positions can replay: forward runs, in
which every change lies behind its predecessor, and backward runs, in which it lies before it.

* `forwardLength`, `backwardLength`: how far a run of either direction reaches.
* `splitRuns`: the log as a sequence of runs, a forward run preferred where both reach equally far.
* `flatMap_splitRuns`: the runs put together are the log.
-/

namespace Caret

/-- The order in which the changes of a run follow each other in the text. -/
inductive Direction
  | forward
  | backward
  deriving DecidableEq, Repr, Inhabited

/-- A stretch of the log to be replayed in one pass. -/
structure Run where
  direction : Direction
  changes : List Change
  deriving DecidableEq, Repr, Inhabited

namespace Run

/-- The length of the longest beginning of the log in which every change starts behind the frontier
of its predecessor. -/
def forwardLength : List Change → Nat
  | [] => 0
  | [_] => 1
  | a :: b :: rest => if b.start ≤ a.frontier then 1 else forwardLength (b :: rest) + 1

/-- The length of the longest beginning of the log in which every change lies before its
predecessor. -/
def backwardLength : List Change → Nat
  | [] => 0
  | [_] => 1
  | a :: b :: rest => if a.start < b.stop then 1 else backwardLength (b :: rest) + 1

theorem forwardLength_cons_pos (a : Change) (rest : List Change) :
    0 < forwardLength (a :: rest) := by
  cases rest with
  | nil => simp [forwardLength]
  | cons b rest => unfold forwardLength; split <;> omega

theorem backwardLength_cons_pos (a : Change) (rest : List Change) :
    0 < backwardLength (a :: rest) := by
  cases rest with
  | nil => simp [backwardLength]
  | cons b rest => unfold backwardLength; split <;> omega

/-- The run at the beginning of a log. -/
def first (log : List Change) : Run :=
  if backwardLength log ≤ forwardLength log then ⟨.forward, log.take (forwardLength log)⟩
  else ⟨.backward, log.take (backwardLength log)⟩

/-- The number of changes in the run at the beginning of a log. -/
def firstLength (log : List Change) : Nat := max (forwardLength log) (backwardLength log)

theorem firstLength_cons_pos (a : Change) (rest : List Change) :
    0 < firstLength (a :: rest) :=
  Nat.lt_of_lt_of_le (forwardLength_cons_pos a rest) (Nat.le_max_left _ _)

theorem first_changes (log : List Change) : (first log).changes = log.take (firstLength log) := by
  unfold first firstLength
  split <;> rename_i h
  · rw [Nat.max_eq_left h]
  · rw [Nat.max_eq_right (Nat.le_of_not_le h)]

end Run

/-- The log cut into runs. -/
def splitRuns (log : List Change) : List Run :=
  match log with
  | [] => []
  | a :: rest => Run.first (a :: rest) :: splitRuns ((a :: rest).drop (Run.firstLength (a :: rest)))
termination_by log.length
decreasing_by
  have := Run.firstLength_cons_pos a rest
  simp only [List.length_drop, List.length_cons]
  omega

/-- The runs put together are the log. -/
theorem flatMap_splitRuns (log : List Change) : (splitRuns log).flatMap Run.changes = log := by
  induction log using splitRuns.induct with
  | case1 => simp [splitRuns]
  | case2 a rest ih =>
    rw [splitRuns, List.flatMap_cons, ih, Run.first_changes, List.take_append_drop]

end Caret
