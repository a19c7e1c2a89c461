import Caret.Registry
import Caret.Selection.List

/-!
# Live selection lists

Selections that follow every edit as it happens. A live list is registered as a listener on its
buffer, and each change moves its anchors and cursors one by one.

* `LiveList.follow`: what a change does to the list.
* `LiveList.snapshot`: the selections as a list that catches up on use.
-/

namespace Caret

/-- Selections kept current by a registration on a buffer. -/
structure LiveList where
  /-- The identity under which the list is registered. -/
  key : ListenerKey
  group : Selections
  buffer : BufferId
  /-- The registration, if there is one. -/
  registration : Option ListenerId
  deriving DecidableEq, Repr, Inhabited

namespace LiveList

/-- Selections to be tracked on a buffer: there is at least one, the main one is among them, and all
are put at positions of the text. -/
def track (b : Buffer) (group : Selections) : Except Fault Selections := do
  group.check
  return group.clamp b.text

/-- A selection moved across a change, each end on its own. -/
def followOne (change : Change) (s : Selection) : Except Fault Selection := do
  return { s with anchor := ← change.move s.anchor, cursor := ← change.move s.cursor }

/-- The list after a change of its buffer. -/
def follow (change : Change) (l : LiveList) : Except Fault LiveList := do
  let items ← l.group.items.mapM (followOne change)
  return { l with group := { l.group with items } }

/-- The list must be bound to `b`. -/
def checkBuffer (l : LiveList) (b : Buffer) : Except Fault Unit :=
  Fault.foreignBuffer.unless (l.buffer = b.id)

/-- The tracked selections as a list that is current with the buffer, sorted and merged. -/
def snapshot (l : LiveList) (b : Buffer) : Except Fault SelectionList := do
  return (← SelectionList.ofSelections b l.group).mapGroup Selections.normalize

/-- Checks what holds of a live list at any time: a main selection of its own buffer, and selections
at positions of the text. -/
def verify (l : LiveList) (b : Buffer) : Except Fault Unit := do
  l.checkBuffer b
  l.group.check
  Fault.invalidPosition.unless (l.group.items.all (SelectionList.endsValid b.text) = true)

end LiveList

end Caret
