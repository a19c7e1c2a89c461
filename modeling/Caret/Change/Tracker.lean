import Caret.Change

/-!
# Tracking one pass over changes

A tracker replays changes in the order of their positions and knows, for the text behind the last
of them, how far it moved between a reference state and the current one.

* `Tracker.feed`: takes in one change.
* `Tracker.toReference`, `Tracker.toCurrent`: the two directions between the states.
* `Tracker.landing`: the forward direction for text that the changes consumed as well.
* `Tracker.concerns`: whether a change has to be taken in before a coordinate can be moved.
-/

namespace Caret

/-- One position in both states: `current` after the changes fed so far, `reference` before them. -/
structure Tracker where
  current : Coord
  reference : Coord
  deriving DecidableEq, Repr, Inhabited

namespace Tracker

/-- A tracker that has seen no change. -/
def start : Tracker := ⟨Coord.zero, Coord.zero⟩

/-- The coordinate of the reference state that `c`, at or behind `current`, comes from. -/
def toReference (t : Tracker) (c : Coord) : Except Fault Coord := do
  Fault.outOfOrder.unless (t.current ≤ c)
  let moved ← c.carry t.current t.reference
  Fault.outOfOrder.unless (t.reference ≤ moved)
  return moved

/-- The coordinate of the current state that `c`, at or behind `reference`, has become. -/
def toCurrent (t : Tracker) (c : Coord) : Except Fault Coord := do
  Fault.outOfOrder.unless (t.reference ≤ c)
  let moved ← c.carry t.reference t.current
  Fault.outOfOrder.unless (t.current ≤ moved)
  return moved

/-- As `toCurrent`; a coordinate that the changes consumed lands on `current`. -/
def landing (t : Tracker) (c : Coord) : Except Fault Coord :=
  if c < t.reference then .ok t.current else t.toCurrent c

/-- Takes in one change, which must not lie before `current`. -/
def feed (t : Tracker) (change : Change) : Except Fault Tracker := do
  Fault.outOfOrder.unless (t.current ≤ change.start)
  match change.kind with
  | .insert => return ⟨change.stop, ← t.toReference change.start⟩
  | .erase => return ⟨change.start, ← t.toReference change.stop⟩

/-- Takes in the changes one after the other. -/
def feedAll (t : Tracker) (changes : List Change) : Except Fault Tracker :=
  changes.foldlM feed t

/-- Whether `change` has to be fed before `c`, a coordinate of the reference state, can be moved.
An insert at the position pushes it; an erase that starts at the position does not. -/
def concerns (t : Tracker) (change : Change) (c : Coord) : Except Fault Bool := do
  let moved ← t.landing c
  match change.kind with
  | .insert => return decide (change.start ≤ moved)
  | .erase => return decide (change.start < moved)

/-- The change expressed through the changes fed so far. -/
def express (t : Tracker) (change : Change) : Except Fault Change := do
  return ⟨change.kind, ← t.toCurrent change.start, ← t.toCurrent change.stop⟩

end Tracker

end Caret
