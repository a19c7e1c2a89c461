import Caret.Workspace.Lists

/-!
# Live lists of a workspace

Each live list is registered exactly once while its buffer exists, and its registration is released
when it is dropped or bound to another buffer.

* `WorkspaceM.trackSelections`, `WorkspaceM.copyLive`, `WorkspaceM.dropLive`: the life of a list.
* `WorkspaceM.rebindLive`: other selections, perhaps on another buffer.
* `WorkspaceM.visitLive`: visiting the selections with edits.
-/

namespace Caret.WorkspaceM

/-- The live list under a name. -/
def liveList (name : String) : WorkspaceM LiveList := named (·.liveLists) name

/-- Puts a live list under a name that is free or that it has already. -/
def setLive (name : String) (l : LiveList) : WorkspaceM Unit :=
  modify fun w => { w with liveLists := w.liveLists.put name l }

/-- Puts a new live list under a name and releases the one that had the name. -/
def putLive (name : String) (l : LiveList) : WorkspaceM Unit := do
  let old := (← get).liveLists.get? name
  setLive name l
  if let some l := old then release l

/-- Tracks selections on a buffer. -/
def trackSelections (name buffer : String) (group : Selections) : WorkspaceM Unit := do
  let b ← WorkspaceM.buffer buffer
  let group ← require (LiveList.track b group)
  let key ← newKey
  let id ← register buffer key
  putLive name { key, group, buffer := b.id, registration := some id }

/-- Tracks selections on a buffer, the last one main. -/
def trackItems (name buffer : String) (items : List Selection) : WorkspaceM Unit :=
  trackSelections name buffer { items, main := items.length - 1 }

/-- Tracks a copy of a list that is current with the buffer. -/
def trackList (name buffer : String) (listName : String) : WorkspaceM Unit := do
  let l ← list listName
  require (l.checkCurrent (← WorkspaceM.buffer buffer))
  trackSelections name buffer l.group

/-- Makes a copy of a live list, registered on its own if the buffer still exists. -/
def copyLive (name target : String) : WorkspaceM Unit := do
  let l ← liveList name
  let key ← newKey
  let registration ← match ← nameOf? l.buffer with
    | some buffer => some <$> register buffer key
    | none => pure none
  putLive target { l with key, registration }

/-- Drops a live list, and answers whether there was one. -/
def dropLive (name : String) : WorkspaceM Bool := do
  match (← get).liveLists.get? name with
  | none => return false
  | some l =>
    release l
    modify fun w => { w with liveLists := w.liveLists.drop name }
    return true

/-- Changes the selections of a live list. -/
def alterLive (name : String) (f : Selections → Except Fault Selections) : WorkspaceM Unit := do
  let l ← liveList name
  setLive name { l with group := ← require (f l.group) }

/-- Adds a selection to a live list, at the nearest positions of the buffer. -/
def pushLive (name buffer : String) (s : Selection) : WorkspaceM Unit := do
  let l ← liveList name
  let b ← WorkspaceM.buffer buffer
  require (l.checkBuffer b)
  setLive name { l with group := l.group.push (s.clamp b.text) }

/-- Takes a selection out of a live list. -/
def removeFromLive (name : String) (i : Nat) : WorkspaceM Selection := do
  let l ← liveList name
  let (removed, group) ← require (l.group.remove i)
  setLive name { l with group }
  return removed

/-- Moves the registration of a live list to a buffer, unless the list is registered there. -/
def bindLive (name buffer : String) : WorkspaceM Unit := do
  let l ← liveList name
  let b ← WorkspaceM.buffer buffer
  if l.buffer ≠ b.id ∨ l.registration = none then
    release l
    let id ← register buffer l.key
    setLive name { l with buffer := b.id, registration := some id }
    note [⟨.debug, s!"dynamic selection list bound to buffer {b.id}"⟩]

/-- Tracks other selections on a buffer, the last one main. -/
def rebindLive (name buffer : String) (items : List Selection) : WorkspaceM Unit := do
  bindLive name buffer
  let b ← WorkspaceM.buffer buffer
  let group ← require (LiveList.track b { items, main := items.length - 1 })
  setLive name { (← liveList name) with group }

/-- Tracks the selections of a list that is current with the buffer, its main selection main. -/
def resetLive (name buffer listName : String) : WorkspaceM Unit := do
  let l ← list listName
  require (l.checkCurrent (← WorkspaceM.buffer buffer))
  rebindLive name buffer l.group.items
  alterLive name (·.setMain l.group.main)

/-- Puts the tracked selections under a name as a list that is current with the buffer. There is
none when the live list is bound to another buffer; the answer says which it is. -/
def snapshotLive (name buffer listName : String) : WorkspaceM Bool := do
  let l ← liveList name
  let b ← WorkspaceM.buffer buffer
  if l.buffer ≠ b.id then return false
  putList listName (← require (l.snapshot b))
  return true

/-- Visits the selections of a live list, sorted and merged, with edits of its buffer. While the edits
are made the tracked selections go on following them; what comes of the visits then replaces them,
at the nearest positions, also when a visit is refused. -/
def visitLive (name buffer : String) (mayQueue : Bool) (callback : Nat → Script) :
    WorkspaceM SelectionList.Visited := do
  let l ← liveList name
  let b ← WorkspaceM.buffer buffer
  require (l.checkBuffer b)
  let batch ← require (l.snapshot b)
  let visited ← edit buffer (batch.visitAll mayQueue callback)
  let group ← require (LiveList.track (← WorkspaceM.buffer buffer) visited.list.group)
  setLive name { (← liveList name) with group }
  return visited

/-- Inserts a text while the selections of a live list are held, so that the list cannot be told. -/
def insertHolding (name buffer : String) (start : Coord) (new : Text) : WorkspaceM Span := do
  editHolding (some (← liveList name).key) buffer (EditM.insert start new)

end Caret.WorkspaceM
