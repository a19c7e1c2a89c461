import Caret.Change
import Caret.Text

/-!
# Undo history

Recorded edits are collected in an open group. Closed groups lie on an undo stack of limited depth;
undone groups lie on a redo stack until the next recorded edit.

* `RecordedEdit.inverse`: the edit that takes a recorded edit back.
* `History.record`, `History.commit`: filling and closing the open group.
* `History.popDone`, `History.popUndone`: taking the next group to revert or to reapply.
-/

namespace Caret

/-- A recorded edit: `content` inserted or erased at `start`. -/
structure RecordedEdit where
  kind : EditKind
  start : Coord
  content : Text
  deriving DecidableEq, Repr, Inhabited

/-- The edit that takes this one back. -/
def RecordedEdit.inverse (m : RecordedEdit) : RecordedEdit := { m with kind := m.kind.inverse }

/-- Edits that are undone together, in the order in which they were made. -/
abbrev EditGroup := List RecordedEdit

/-- Groups of recorded edits. Both stacks have their top first. -/
structure History where
  /-- At most this many groups are kept for undo. -/
  depth : Nat
  undone : List EditGroup := []
  done : List EditGroup := []
  /-- Edits recorded since the last group was closed. -/
  current : EditGroup := []
  deriving DecidableEq, Repr, Inhabited

namespace History

/-- Adds an edit to the open group. What was undone before can no longer be redone. -/
def record (h : History) (m : RecordedEdit) : History :=
  { h with current := h.current ++ [m], undone := [] }

/-- Puts a group on the undo stack, dropping the oldest groups past the depth. -/
def pushDone (h : History) (group : EditGroup) : History :=
  { h with done := (group :: h.done).take h.depth }

/-- Puts a group on the redo stack. -/
def pushUndone (h : History) (group : EditGroup) : History :=
  { h with undone := group :: h.undone }

/-- Closes the open group. An empty one leaves no trace. -/
def commit (h : History) : History :=
  if h.current.isEmpty then h else { h with current := [] }.pushDone h.current

/-- The group to revert next. The open group is closed first. -/
def popDone (h : History) : Option EditGroup × History :=
  let h := h.commit
  match h.done with
  | [] => (none, h)
  | group :: rest => (some group, { h with done := rest })

/-- The group to reapply next. -/
def popUndone (h : History) : Option EditGroup × History :=
  match h.undone with
  | [] => (none, h)
  | group :: rest => (some group, { h with undone := rest })

/-- Whether something is recorded that was not undone. -/
def canUndo (h : History) : Bool := !h.done.isEmpty || !h.current.isEmpty

/-- Whether something was undone that can be reapplied. -/
def canRedo (h : History) : Bool := !h.undone.isEmpty

/-- The number of groups that can be undone, the open one included unless it is empty. -/
def groupCount (h : History) : Nat := h.done.length + if h.current.isEmpty then 0 else 1

end History

end Caret
