import Caret.Selection.List

/-!
# Edited ranges

Selections over the text that changed since a timestamp. Inserted text is selected whole, and an
erasure leaves a selection of one character where the text used to be. Ranges that overlap or touch
are merged.

* `Buffer.editedRanges`: the selections, sorted and disjoint.
-/

namespace Caret

namespace Edited

/-- Changes in the order of their positions, each expressed through the ones before it. -/
def expressAll (t : Tracker) : List Change → Except Fault (List Change)
  | [] => .ok []
  | change :: rest => do
    let expressed ← t.express change
    return expressed :: (← expressAll (← t.feed expressed) rest)

/-- The changes of a run in the coordinates of the state that the run leads to, in the order of
their positions. -/
def settled (run : Run) : Except Fault (List Change) :=
  match run.direction with
  | .forward => .ok run.changes
  | .backward => expressAll .start run.changes.reverse

/-- The range that a change leaves in the text. -/
def range (change : Change) : Selection :=
  match change.kind with
  | .insert => { anchor := change.start, cursor := change.stop }
  | .erase => .point change.start

/-- Selections in order, by start and then by end. -/
def inOrder : List Selection → Bool
  | a :: b :: rest => a.le b && inOrder (b :: rest)
  | _ => true

/-- Neighbours merged where they overlap. -/
def mergeOverlapping (ranges : List Selection) : List Selection :=
  (Selections.mergeOverlapping { items := ranges, main := 0 }).items

/-- The ranges found so far moved across a run, together with the ranges of its own changes. -/
def extend (ranges : List Selection) (run : Run) : Except Fault (List Selection) := do
  Fault.unsorted.unless (inOrder ranges = true)
  let moved ← run.sweep ranges
  let added := (← settled run).map range
  Fault.unsorted.unless (inOrder added = true)
  return mergeOverlapping ((mergeOverlapping moved ++ added).mergeSort Selection.le)

/-- A range with its ends no further than the end of the text. -/
def bounded (stop : Coord) (s : Selection) : Selection :=
  { s with anchor := min s.anchor stop, cursor := min s.cursor stop }

/-- Whether a range reaches the one behind it, or the end of the text. -/
def touches (t : Text) (a b : Selection) : Except Fault Bool :=
  if a.high = t.endCoord then .ok true
  else do return decide (b.low ≤ (← t.nextCoord a.high))

/-- The selection of the characters of a range: its last character takes the place of its end. -/
def select (t : Text) (s : Selection) : Except Fault Selection := do
  Fault.invalidPosition.unless (SelectionList.endsValid t s = true)
  let last ← t.previousCoord t.endCoord
  let anchor := if t.isEnd s.anchor then last else s.anchor
  let cursor := if t.isEnd s.cursor then last else s.cursor
  if anchor = cursor then return { s with anchor, cursor }
  else return { s with anchor, cursor := ← t.previousCoord cursor }

end Edited

/-- Selections over the text that changed since a timestamp. There are none if nothing changed. -/
def Buffer.editedRanges (b : Buffer) (timestamp : Nat) : Except Fault (List Selection) := do
  let log ← b.logSince timestamp
  let ranges ← (splitRuns log).foldlM Edited.extend []
  let ranges := ranges.map (Edited.bounded b.text.endCoord)
  let merged ← Selections.mergeBy (Edited.touches b.text) { items := ranges, main := 0 }
  merged.items.mapM (Edited.select b.text)

/-- What the search for modified ranges tells at its end. -/
def Buffer.editedNote (ranges : List Selection) (timestamp : Nat) : Note :=
  ⟨.debug, s!"{ranges.length} modified ranges since timestamp {timestamp}"⟩

end Caret
