import Caret.Change.Tracker
import Caret.EditError
import Caret.History

/-!
# Buffers

A text with the log of all changes made to it, an undo history and a few options. The timestamp of
a buffer is the length of its log, so that whoever has seen the buffer at an earlier timestamp can
catch up on the rest of the log.

* `Buffer.timestamp`, `Buffer.logSince`: the log as seen by someone who catches up.
* `Buffer.undo`, `Buffer.redo` and the other edits are in `Caret.Buffer.Edit`.
-/

namespace Caret

/-- Tells buffers apart. Numbers are given out in order of creation. -/
abbrev BufferId := Nat

/-- How a buffer takes edits. -/
structure Flags where
  /-- Edits are refused. -/
  readOnly : Bool := false
  /-- Edits are not recorded for undo. -/
  noUndo : Bool := false
  deriving DecidableEq, Repr, Inhabited

/-- Settings of a buffer. -/
structure Options where
  flags : Flags := {}
  /-- The number of undo groups that are kept. -/
  maxHistory : Nat := 1000
  /-- The distance of tab stops in display columns. -/
  tabstop : Nat := 8
  deriving DecidableEq, Repr, Inhabited

/-- A text together with its past. -/
structure Buffer where
  id : BufferId
  options : Options
  text : Text
  /-- All changes so far, oldest first. -/
  log : List Change
  history : History
  deriving DecidableEq, Repr, Inhabited

namespace Buffer

/-- A buffer without a past. -/
def ofText (id : BufferId) (text : Text) (options : Options) : Buffer :=
  { id, options, text, log := [], history := { depth := options.maxHistory } }

/-- The number of changes made so far. -/
def timestamp (b : Buffer) : Nat := b.log.length

/-- The changes made at or after a timestamp, oldest first. -/
def logSince (b : Buffer) (timestamp : Nat) : Except Fault (List Change) := do
  Fault.futureTimestamp.unless (timestamp ≤ b.timestamp)
  return b.log.drop timestamp

/-- Whether there is a group of edits to undo. -/
def canUndo (b : Buffer) : Bool := b.history.canUndo

/-- Whether there is a group of edits to redo. -/
def canRedo (b : Buffer) : Bool := b.history.canRedo

end Buffer

/-- Takes in all changes that a buffer logged since a timestamp. -/
def Tracker.catchUp (t : Tracker) (b : Buffer) (timestamp : Nat) : Except Fault Tracker := do
  t.feedAll (← b.logSince timestamp)

end Caret
