import Caret.Coord

/-!
# Changes

One primitive edit as a buffer logs it, and what it does to a single coordinate.

* `Coord.acrossInsert`, `Coord.acrossErase`: a coordinate moved across inserted or erased text.
* `Change.move`: the same for a logged change.
-/

namespace Caret

/-- What an edit did. -/
inductive EditKind
  | insert
  | erase
  deriving DecidableEq, Repr, Inhabited

/-- The kind of edit that takes an edit of this kind back. -/
def EditKind.inverse : EditKind → EditKind
  | .insert => .erase
  | .erase => .insert

/-- One primitive edit. For an insert, `start` to `stop` is the new text in the resulting state;
for an erase, the removed text in the prior state. -/
structure Change where
  kind : EditKind
  start : Coord
  stop : Coord
  deriving DecidableEq, Repr, Inhabited

namespace Coord

/-- A coordinate moved across text inserted from `start` to `stop`. A coordinate at the insertion
point is pushed behind the new text. -/
def acrossInsert (c start stop : Coord) : Except Fault Coord :=
  if c < start then .ok c else c.carry start stop

/-- A coordinate moved across the removal of the text from `start` to `stop`. A coordinate inside
collapses onto `start`. -/
def acrossErase (c start stop : Coord) : Except Fault Coord :=
  if c < start then .ok c else if c ≤ stop then .ok start else c.carry stop start

end Coord

namespace Change

/-- The coordinate `c` moved across this change. -/
def move (change : Change) (c : Coord) : Except Fault Coord :=
  match change.kind with
  | .insert => c.acrossInsert change.start change.stop
  | .erase => c.acrossErase change.start change.stop

/-- The position the change leaves behind in the resulting state: all text after it is untouched. -/
def frontier (change : Change) : Coord :=
  match change.kind with
  | .insert => change.stop
  | .erase => change.start

end Change

end Caret
