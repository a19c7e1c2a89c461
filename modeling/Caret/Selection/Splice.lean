import Caret.Selection.Visit

/-!
# Editing at every selection

One text per selection of a list, the last text repeating: put in next to the selections, put in
their place, or nothing put in their place.

* `SelectionList.insert`: texts put in before, at or behind the selections.
* `SelectionList.replace`: texts put in the place of the selections, which cover them afterwards.
* `SelectionList.erase`: the text of the selections taken out.
-/

namespace Caret

/-- Where a text goes relative to a selection. -/
inductive Placement
  /-- Before the selection. -/
  | before
  /-- At the cursor. -/
  | atCursor
  /-- Behind the selection. -/
  | behind
  /-- At the start of the first line of the selection. -/
  | lineBegin
  /-- At the end of the last line of the selection. -/
  | lineEnd
  deriving DecidableEq, Repr, Inhabited

/-- The position at which a text goes in for a selection. -/
def Placement.resolve (placement : Placement) (t : Text) (s : Selection) : Except Fault Coord :=
  match placement with
  | .before => .ok s.low
  | .atCursor => .ok s.cursor
  | .behind => t.nextCoord s.high
  | .lineBegin => .ok ⟨s.low.line, 0⟩
  | .lineEnd => .ok ⟨s.high.line, t.lineLength s.high.line⟩

namespace Script

/-- Inserts a text next to the visited selection, which stays on its own text. -/
def insertNear (placement : Placement) (new : Text) : Script :=
  look fun b s => given (placement.resolve b.text s) fun start =>
    insert start new fun span =>
      if span.start = span.stop then done
      else look fun b s =>
        given (s.anchor.acrossInsert span.start span.stop) fun anchor =>
        given (s.cursor.acrossInsert span.start span.stop) fun cursor =>
        select { s with anchor := b.text.clamp anchor, cursor := b.text.clamp cursor } done

/-- Puts a text in the place of the visited selection, which covers it then. Without a text the
selection becomes a point. -/
def replaceWith (new : Text) : Script :=
  look fun b s => given (b.text.nextCoord s.high) fun stop =>
    replace s.low stop new fun span => look fun b s =>
      if span.start = span.stop then
        let left := b.text.clamp span.start
        select (s.set left left) done
      else
        given (b.text.previousCoord span.stop) fun last =>
        given (s.stretch span.start last) fun s =>
        select s done

/-- Takes out the text of the visited selection, which becomes a point. -/
def eraseText : Script :=
  look fun b s => given (b.text.nextCoord s.high) fun stop =>
    erase s.low stop fun left => select { Selection.point left with captures := s.captures } done

end Script

namespace SelectionList

/-- The text for the selection of index `i`: the last one serves all further selections. -/
def textFor (texts : List Text) (i : Nat) : Text :=
  (texts[min i (texts.length - 1)]?).getD []

/-- What comes of a list that is not visited at all. -/
def unvisited (l : SelectionList) : Visited := { list := l, handed := [], refusal := none }

/-- After a removal selections may lie past the last character. -/
def pullInside (v : Visited) : EditM Visited := do
  let t := (← EditM.buffer).text
  return { v with list := v.list.mapGroup fun g => (g.clamp t).mergeOverlapping }

/-- Puts in one text per selection. Without a text nothing happens. -/
def insert (l : SelectionList) (texts : List Text) (placement : Placement) : EditM Visited :=
  if texts.isEmpty then return l.unvisited
  else l.visitAll false fun i => Script.insertNear placement (textFor texts i)

/-- Puts one text in the place of each selection. Without a text nothing happens. -/
def replace (l : SelectionList) (texts : List Text) : EditM Visited :=
  if texts.isEmpty then return l.unvisited
  else do pullInside (← l.visitAll false fun i => Script.replaceWith (textFor texts i))

/-- Takes out the text of all selections. -/
def erase (l : SelectionList) : EditM Visited := do
  pullInside (← l.visitAll false fun _ => Script.eraseText)

end SelectionList

end Caret
