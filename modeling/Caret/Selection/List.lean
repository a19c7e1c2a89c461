import Caret.Notice
import Caret.Selection.Group

/-!
# Selection lists

Selections bound to a buffer and valid at one timestamp of it. A list is brought up to date when
it is used, by moving it across the changes that the buffer logged in the meantime.

* `SelectionList.update`: the list at the current timestamp of its buffer.
* `SelectionList.updateMerging`: all selections as ranges, merged wherever they come to overlap.
* `SelectionList.updateSeparately`: every anchor and cursor on its own, order and count kept.
* `SelectionList.verify`: what holds of a list between two edits.
-/

namespace Caret

/-- Selections that are valid at a timestamp of a buffer. -/
structure SelectionList where
  group : Selections
  buffer : BufferId
  timestamp : Nat
  deriving DecidableEq, Repr, Inhabited

namespace SelectionList

/-- Selections valid at an older timestamp of a buffer. The last one is main. -/
def ofTimestamp (b : Buffer) (items : List Selection) (timestamp : Nat) :
    Except Fault SelectionList := do
  Fault.emptySelections.unless (items ≠ [])
  Fault.futureTimestamp.unless (timestamp ≤ b.timestamp)
  return { group := { items, main := items.length - 1 }, buffer := b.id, timestamp }

/-- Selections that are current with a buffer. The last one is main. -/
def ofItems (b : Buffer) (items : List Selection) : Except Fault SelectionList :=
  ofTimestamp b items b.timestamp

/-- Selections that are current with a buffer. -/
def ofSelections (b : Buffer) (group : Selections) : Except Fault SelectionList := do
  let list ← ofItems b group.items
  return { list with group := ← list.group.setMain group.main }

/-- A single selection that is current with a buffer. -/
def single (b : Buffer) (s : Selection) : SelectionList :=
  { group := { items := [s], main := 0 }, buffer := b.id, timestamp := b.timestamp }

/-- Changes the selections and nothing else. -/
def mapGroup (f : Selections → Selections) (l : SelectionList) : SelectionList :=
  { l with group := f l.group }

/-- The list must be bound to `b`. -/
def checkBuffer (l : SelectionList) (b : Buffer) : Except Fault Unit :=
  Fault.foreignBuffer.unless (l.buffer = b.id)

/-- The list must be bound to `b` and current with it. -/
def checkCurrent (l : SelectionList) (b : Buffer) : Except Fault Unit := do
  l.checkBuffer b
  Fault.stale.unless (l.timestamp = b.timestamp)

/-- Replaces all selections by others that are current with the buffer. -/
def reset (l : SelectionList) (b : Buffer) (items : List Selection) (main : Nat) :
    Except Fault SelectionList := do
  l.checkBuffer b
  Fault.outOfRange.unless (main < items.length)
  return { l with group := Selections.normalize { items, main }, timestamp := b.timestamp }

/-- The same selections of the same buffer, wherever the main one and the timestamp are. -/
def agrees (a b : SelectionList) : Bool :=
  a.buffer == b.buffer && a.group.items.isEqv b.group.items Selection.agrees

/-! ## Catching up -/

/-- One end of a selection, to be moved on its own. -/
structure SelectionEnd where
  coord : Coord
  /-- The index of the selection. -/
  index : Nat
  isCursor : Bool
  deriving DecidableEq, Repr, Inhabited

instance : Tracked SelectionEnd where
  first e := e.coord
  last e := e.coord
  withEnds e first _ := { e with coord := first }

/-- Both ends of the selection of index `i`. -/
def SelectionEnd.both (s : Selection) (i : Nat) : List SelectionEnd :=
  [⟨s.anchor, i, false⟩, ⟨s.cursor, i, true⟩]

/-- A selection with this end put where it belongs. The column it aims for is kept. -/
def SelectionEnd.place (e : SelectionEnd) (s : Selection) : Selection :=
  if e.isCursor then { s with cursor := e.coord } else { s with anchor := e.coord }

/-- The selections moved across a stretch of the log as ranges. They are merged where they overlap,
before the first run and after every run. -/
def sweepMerging (log : List Change) (s : Selections) : Except Fault Selections :=
  (splitRuns log).foldlM
    (fun s run => do return { s with items := ← run.sweep s.items : Selections }.mergeOverlapping)
    s.normalize

/-- The selections moved across a stretch of the log end by end, and each end put at the nearest
position of the text. -/
def sweepEndpoints (log : List Change) (t : Text) (items : List Selection) :
    Except Fault (List Selection) := do
  let ends := (items.mapIdx fun i s => SelectionEnd.both s i).flatten
  let moved ← sweepLog log (ends.mergeSort fun a b => decide (a.coord ≤ b.coord))
  return moved.foldl
    (fun items e => items.modify e.index { e with coord := t.clamp e.coord : SelectionEnd }.place) items

/-- The list at the current timestamp of its buffer, its selections moved as ranges. They come out
sorted and disjoint. -/
def updateMerging (l : SelectionList) (b : Buffer) : Except Fault SelectionList := do
  l.checkBuffer b
  let log ← b.logSince l.timestamp
  if l.timestamp = b.timestamp then return l
  let group ← sweepMerging log l.group
  return { l with group := (group.clamp b.text).mergeOverlapping, timestamp := b.timestamp }

/-- The list at the current timestamp of its buffer, every anchor and every cursor moved on its own.
Order and number of the selections stay. -/
def updateSeparately (l : SelectionList) (b : Buffer) : Except Fault SelectionList := do
  l.checkBuffer b
  let log ← b.logSince l.timestamp
  if l.timestamp = b.timestamp then return l
  let items ← sweepEndpoints log b.text l.group.items
  return { l with group := { l.group with items }, timestamp := b.timestamp }

/-- The list at the current timestamp of its buffer, with or without merging. -/
def update (l : SelectionList) (b : Buffer) (merge : Bool) : Except Fault SelectionList :=
  if merge then l.updateMerging b else l.updateSeparately b

/-- What an update tells before it begins. -/
def updateNotes (l : SelectionList) (b : Buffer) (merge : Bool) : List Note :=
  if l.buffer = b.id ∧ l.timestamp < b.timestamp then
    [⟨.debug, s!"updating {l.group.items.length} selections across " ++
      s!"{b.timestamp - l.timestamp} changes (merge: {merge})"⟩]
  else []

/-! ## Invariant -/

/-- Selections in the order of their starts. -/
def inOrder : List Selection → Bool
  | a :: b :: rest => decide (a.low ≤ b.low) && inOrder (b :: rest)
  | _ => true

/-- Whether both ends of a selection are positions of the text. -/
def endsValid (t : Text) (s : Selection) : Bool :=
  decide (t.Valid s.anchor) && decide (t.Valid s.cursor)

/-- Checks what holds of a list between two edits: a main selection of its own buffer and, when the
list is current, selections in order at positions of the text. -/
def verify (l : SelectionList) (b : Buffer) : Except Fault Unit := do
  l.group.check
  l.checkBuffer b
  Fault.futureTimestamp.unless (l.timestamp ≤ b.timestamp)
  if l.timestamp = b.timestamp then
    Fault.unsorted.unless (inOrder l.group.items = true)
    Fault.invalidPosition.unless (l.group.items.all (endsValid b.text) = true)

end SelectionList

end Caret
