import Caret.Line.Modification

/-!
# Line watchers

Follows a buffer from query to query and reports which lines were modified in between.
-/

namespace Caret

/-- A buffer, and the timestamp of the last query. -/
structure LineWatcher where
  buffer : BufferId
  timestamp : Nat
  deriving DecidableEq, Repr, Inhabited

namespace LineWatcher

/-- Watches a buffer from its present state on. -/
def ofBuffer (b : Buffer) : LineWatcher := ⟨b.id, b.timestamp⟩

/-- The line modifications since the last query. -/
def query (w : LineWatcher) (b : Buffer) : Except Fault (List LineModification × LineWatcher) := do
  Fault.foreignBuffer.unless (w.buffer = b.id)
  return (← b.lineModifications w.timestamp, { w with timestamp := b.timestamp })

/-- What a query tells. -/
def queryNotes (w : LineWatcher) (b : Buffer) : List Note :=
  if w.buffer = b.id then b.lineModificationNotes w.timestamp else []

end LineWatcher

end Caret
