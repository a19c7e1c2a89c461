import Caret.Buffer
import Caret.Change.Sweep
import Caret.Column

/-!
# Selections

A selection is a pair of an anchor and a cursor. It covers the characters from the smaller of the
two through the larger one, both included, and is forward when the anchor is the smaller.

* `Selection.overlaps`: whether two selections have a coordinate in common.
* `Selection.cover`: the smallest selection that holds two others.
* `Selection.le`: the order of selections by start, then by end.
* `Selection.moveLines`: the cursor a few lines further, in the column it aims for.
-/

namespace Caret

/-- An anchor and a cursor. -/
structure Selection where
  anchor : Coord
  cursor : Coord
  /-- The display column that vertical motion aims for. -/
  target : Option Nat := none
  captures : List String := []
  deriving DecidableEq, Repr, Inhabited

namespace Selection

/-- A selection of a single character. -/
def point (c : Coord) : Selection := { anchor := c, cursor := c }

/-- The start of a selection. -/
def low (s : Selection) : Coord := min s.anchor s.cursor

/-- The last coordinate of a selection. -/
def high (s : Selection) : Coord := max s.anchor s.cursor

/-- Whether the anchor comes first. -/
def isForward (s : Selection) : Bool := decide (s.anchor ≤ s.cursor)

/-- Whether two selections have the same anchor and cursor, whatever else they carry. -/
def agrees (a b : Selection) : Bool := a.anchor == b.anchor && a.cursor == b.cursor

/-- Moves the cursor and forgets the column it aimed for. -/
def setCursor (s : Selection) (c : Coord) : Selection := { s with cursor := c, target := none }

/-- Moves both ends and forgets the column the cursor aimed for. -/
def set (s : Selection) (anchor cursor : Coord) : Selection :=
  { s with anchor := anchor }.setCursor cursor

/-- The same selection from `low` to `high`, in its present direction. -/
def withEnds (s : Selection) (low high : Coord) : Selection :=
  if s.isForward then { s with anchor := low, cursor := high }
  else { s with anchor := high, cursor := low }

/-- As `withEnds`, for ends that are in order. -/
def stretch (s : Selection) (low high : Coord) : Except Fault Selection := do
  Fault.reversed.unless (low ≤ high)
  return s.withEnds low high

/-- Extends towards `other`: the cursor goes to the other's cursor, and the anchor only ever moves
outwards. -/
def extendTo (s other : Selection) : Selection :=
  { s with
    anchor := if s.isForward then min s.anchor other.anchor else max s.anchor other.anchor
    cursor := other.cursor }

/-- Both ends at the nearest positions of a text. -/
def clamp (t : Text) (s : Selection) : Selection :=
  { s with anchor := t.clamp s.anchor, cursor := t.clamp s.cursor }

/-- Whether two selections have a coordinate in common. -/
def overlaps (a b : Selection) : Bool := decide (a.low ≤ b.high) && decide (b.low ≤ a.high)

/-- By start, then by end. -/
def compare (a b : Selection) : Ordering :=
  (Ord.compare a.low b.low).then (Ord.compare a.high b.high)

/-- At or before in the order by start, then by end. -/
def le (a b : Selection) : Bool := (a.compare b).isLE

/-- The smallest selection that holds both, with all else as in the first. -/
def cover (a b : Selection) : Selection := a.withEnds (min a.low b.low) (max a.high b.high)

/-- The text that a selection covers. -/
def content (t : Text) (s : Selection) : Except Fault Text := do
  t.between s.low (← t.nextCoord s.high)

instance : Tracked Selection where
  first := low
  last := high
  withEnds := withEnds

/-- Moves the cursor some lines, keeping to the column it aims for or else to the one it is in.
Unless the selection is extended the anchor goes along. -/
def moveLines (r : Rendering) (b : Buffer) (lines : Int) (extend : Bool) (s : Selection) :
    Except Fault Selection := do
  let tabstop := b.options.tabstop
  let target ← match s.target with
    | some column => pure column
    | none => r.columnOf b.text s.cursor tabstop
  let cursor ← r.verticalMove b.text s.cursor lines (some target) tabstop
  return { s with
    anchor := if extend then s.anchor else cursor
    cursor
    target := some target }

end Selection

end Caret
