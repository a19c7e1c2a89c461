import Caret.Coord

/-!
# Errors of edits and descriptions

The failures a caller is expected to handle, with their wording. `Failure` joins them with the
faults of `Caret.Fault`.
-/

namespace Caret

/-- Why an edit or a selection description is refused. -/
inductive EditError
  /-- The buffer is flagged read-only. -/
  | readOnly
  /-- The coordinate does not address a position in the buffer. -/
  | invalidCoord (coord : Coord)
  /-- A malformed selection description. -/
  | invalidSelection (reason : String)
  /-- A list description without selections. -/
  | emptySelectionList
  /-- The index of the main selection is past the end of the list. -/
  | invalidMainIndex (main count : Nat)
  /-- A timestamp newer than the buffer it refers to. -/
  | invalidTimestamp (timestamp current : Nat)
  deriving DecidableEq, Repr, Inhabited

/-- The wording shown to the user. -/
def EditError.message : EditError → String
  | .readOnly => "buffer is read-only"
  | .invalidCoord c => s!"invalid coordinate {c}"
  | .invalidSelection reason => s!"invalid selection description: {reason}"
  | .emptySelectionList => "empty selection list description"
  | .invalidMainIndex main count => s!"main index {main} out of range for {count} selections"
  | .invalidTimestamp timestamp current =>
    s!"timestamp {timestamp} is ahead of buffer timestamp {current}"

/-- Why an operation did not finish. -/
inductive Failure
  | error (e : EditError)
  | fault (f : Fault)
  deriving DecidableEq, Repr, Inhabited

/-- A computation that can only break a contract, among those that can also be refused. -/
def Failure.ofFault {α : Type} : Except Fault α → Except Failure α
  | .ok a => .ok a
  | .error f => .error (.fault f)

end Caret
