import Caret.Selection

/-!
# Groups of selections

Several selections, one of which is main. Sorting permutes them and merging joins neighbours; both
keep track of the main one.

* `Selections.sort`: stable, by start and then by end.
* `Selections.mergeBy`: neighbours for which a test holds become the selection that covers both.
* `Selections.normalize`: sorted, with overlapping selections merged.
-/

namespace Caret

/-- Selections and the index of the main one. -/
structure Selections where
  items : List Selection
  main : Nat
  deriving DecidableEq, Repr, Inhabited

/-- A selection that took in neighbours, and from how many of a list it is made. -/
structure Cover where
  selection : Selection
  size : Nat
  deriving DecidableEq, Repr, Inhabited

namespace Cover

/-- Joins to `c` the selections that follow it as long as the test holds, then starts anew. -/
def join {m : Type → Type} [Monad m] (test : Selection → Selection → m Bool) (c : Cover) :
    List Selection → m (List Cover)
  | [] => return [c]
  | s :: rest => do
    if ← test c.selection s then join test ⟨c.selection.cover s, c.size + 1⟩ rest
    else return c :: (← join test ⟨s, 1⟩ rest)

/-- The selections of a list joined with their neighbours. -/
def joinAll {m : Type → Type} [Monad m] (test : Selection → Selection → m Bool) :
    List Selection → m (List Cover)
  | [] => return []
  | s :: rest => join test ⟨s, 1⟩ rest

/-- The index of the cover that took in the selection of index `i`. -/
def indexOf : List Cover → Nat → Nat
  | [], _ => 0
  | c :: rest, i => if i < c.size then 0 else indexOf rest (i - c.size) + 1

end Cover

namespace Selections

/-- At least one selection, and the main index in range. -/
def check (s : Selections) : Except Fault Unit := do
  Fault.emptySelections.unless (s.items ≠ [])
  Fault.outOfRange.unless (s.main < s.items.length)

/-- The selection at an index. -/
def item (s : Selections) (i : Nat) : Except Fault Selection :=
  match s.items[i]? with
  | some selection => .ok selection
  | none => .error .outOfRange

/-- The main selection. -/
def mainItem (s : Selections) : Except Fault Selection := s.item s.main

/-- Makes another selection main. -/
def setMain (s : Selections) (i : Nat) : Except Fault Selections := do
  Fault.outOfRange.unless (i < s.items.length)
  return { s with main := i }

/-- Puts another selection in the place of the one at an index. -/
def put (s : Selections) (i : Nat) (selection : Selection) : Except Fault Selections := do
  Fault.outOfRange.unless (i < s.items.length)
  return { s with items := s.items.set i selection }

/-- Adds a selection at the end. -/
def push (s : Selections) (selection : Selection) : Selections :=
  { s with items := s.items ++ [selection] }

/-- Takes out a selection that is not the only one. Main stays the same selection if it is still
there, and otherwise is the one that comes to stand at its index, or the last. -/
def remove (s : Selections) (i : Nat) : Except Fault (Selection × Selections) := do
  Fault.lastSelection.unless (1 < s.items.length)
  let removed ← s.item i
  let items := s.items.eraseIdx i
  let main := if i < s.main ∨ s.main = items.length then s.main - 1 else s.main
  return (removed, { items, main })

/-- Changes every selection. -/
def map (f : Selection → Selection) (s : Selections) : Selections :=
  { s with items := s.items.map f }

/-- Every selection at the nearest positions of a text. -/
def clamp (t : Text) (s : Selections) : Selections := s.map (Selection.clamp t)

/-- Sorted by start and then by end; equal selections keep their order. -/
def sort (s : Selections) : Selections :=
  let indexed := s.items.zipIdx.mergeSort fun a b => a.1.le b.1
  { items := indexed.map Prod.fst, main := indexed.findIdx fun entry => entry.2 == s.main }

/-- Neighbours for which the test holds are merged into the selection that covers them, which has
the direction and the captures of the first. -/
def mergeBy {m : Type → Type} [Monad m] (test : Selection → Selection → m Bool) (s : Selections) :
    m Selections := do
  let covers ← Cover.joinAll test s.items
  return { items := covers.map Cover.selection, main := Cover.indexOf covers s.main }

/-- Merges neighbours that overlap. -/
def mergeOverlapping (s : Selections) : Selections :=
  Id.run (s.mergeBy fun a b => pure (a.overlaps b))

/-- Merges neighbours without a character in between. -/
def mergeConsecutive (t : Text) (s : Selections) : Except Fault Selections :=
  s.mergeBy fun a b => do return decide (b.low ≤ (← t.nextCoord a.high))

/-- Sorted, with overlapping selections merged. -/
def normalize (s : Selections) : Selections := s.sort.mergeOverlapping

/-- Every selection moved some lines, with or without its anchor. -/
def moveLines (r : Rendering) (b : Buffer) (lines : Int) (extend : Bool) (s : Selections) :
    Except Fault Selections := do
  return { s with items := ← s.items.mapM (Selection.moveLines r b lines extend) }

end Selections

end Caret
