import Caret.Selection.Description
import Caret.Workspace

/-!
# Selection lists of a workspace

* `WorkspaceM.alterList`: any operation on a list.
* `WorkspaceM.visitList`: any operation that edits the buffer of a list.
-/

namespace Caret.WorkspaceM

/-- Puts a list under a name. -/
def putList (name : String) (l : SelectionList) : WorkspaceM Unit :=
  modify fun w => { w with lists := w.lists.put name l }

/-- The list under a name. -/
def list (name : String) : WorkspaceM SelectionList := named (·.lists) name

/-- Puts the outcome of an operation in the place of the list under a name. -/
def alterList (name : String) (f : SelectionList → Except Fault SelectionList) : WorkspaceM Unit := do
  putList name (← require (f (← list name)))

/-- Puts the selections that an operation leads to in the place of those of a list. -/
def alterSelections (name : String) (f : Selections → Except Fault Selections) : WorkspaceM Unit :=
  alterList name fun l => return { l with group := ← f l.group }

/-- Takes a selection out of a list. -/
def removeFromList (name : String) (i : Nat) : WorkspaceM Selection := do
  let l ← list name
  let (removed, group) ← require (l.group.remove i)
  putList name { l with group }
  return removed

/-- Brings a list up to date with the buffer under a name. -/
def updateList (name buffer : String) (merge : Bool) : WorkspaceM Unit := do
  let l ← list name
  let b ← WorkspaceM.buffer buffer
  note (l.updateNotes b merge)
  putList name (← require (l.update b merge))

/-- Reads a list from descriptions and brings it up to date. -/
def readList (name buffer : String) (descriptions : List String) (timestamp main : Nat) :
    WorkspaceM Unit := do
  let b ← WorkspaceM.buffer buffer
  let l ← ExceptT.mk (pure (SelectionList.ofDescriptionsThen b descriptions timestamp main))
  note (l.updateNotes b true)
  putList name (← require (l.refresh b))

/-- Visits the selections of a list with edits of the buffer under a name. -/
def visitList (name buffer : String) (act : SelectionList → EditM SelectionList.Visited) :
    WorkspaceM SelectionList.Visited := do
  let l ← list name
  note (l.updateNotes (← WorkspaceM.buffer buffer) true)
  let visited ← edit buffer (act l)
  putList name visited.list
  return visited

/-- As `visitList`, failing with the error that ended the visits. -/
def spliceList (name buffer : String) (act : SelectionList → EditM SelectionList.Visited) :
    WorkspaceM Unit := do
  if let some e := (← visitList name buffer act).refusal then throw (.error e)

/-- Puts in one text per selection of a list. -/
def insertAtList (name buffer : String) (texts : List Text) (placement : Placement) :
    WorkspaceM Unit := do
  unless texts.isEmpty do spliceList name buffer (·.insert texts placement)

/-- Puts one text in the place of each selection of a list. -/
def replaceList (name buffer : String) (texts : List Text) : WorkspaceM Unit := do
  unless texts.isEmpty do spliceList name buffer (·.replace texts)

/-- Takes out the text of the selections of a list. -/
def eraseList (name buffer : String) : WorkspaceM Unit := spliceList name buffer (·.erase)

end Caret.WorkspaceM
