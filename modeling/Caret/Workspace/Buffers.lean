import Caret.Selection.Edited
import Caret.Workspace

/-!
# Buffers of a workspace

* `WorkspaceM.openBuffer`, `WorkspaceM.closeBuffer`: making and dropping a buffer.
* `WorkspaceM.undo`, `WorkspaceM.redo`: history, with the events that go with it.
-/

namespace Caret.WorkspaceM

/-- What dropping a buffer tells: objects and listeners that still refer to it. -/
def dropNotes (id : BufferId) (handles listeners : Nat) : List Note :=
  if handles = 0 ∧ listeners = 0 then []
  else [⟨.warn,
    s!"buffer {id} dropped with {handles} live handles and {listeners} listeners"⟩]

/-- Tells what there is to tell about a buffer that is being dropped, and answers with the number of
handles that it leaves dangling. -/
def bury (h : Host) : WorkspaceM Nat := do
  let handles := (← get).handleCount h.buffer.id
  let listeners ← require h.registry.active
  note (dropNotes h.buffer.id handles listeners)
  return handles

/-- Makes a buffer under a name. The buffer that had the name is dropped, which no handle may still
refer to. -/
def openBuffer (name : String) (text : Text) (options : Options) : WorkspaceM Buffer := do
  let w ← get
  let b := Buffer.ofText w.nextBuffer text options
  let old := w.hosts.get? name
  set { w with nextBuffer := w.nextBuffer + 1, hosts := w.hosts.put name { buffer := b } }
  if let some h := old then
    let handles ← bury h
    require (Fault.danglingHandles.unless (handles = 0))
  return b

/-- Drops the buffer under a name, and answers whether a handle still refers to it. -/
def closeBuffer (name : String) : WorkspaceM Bool := do
  let handles ← bury (← named (·.hosts) name)
  modify fun w => { w with hosts := w.hosts.drop name }
  return handles != 0

/-- Makes a step through the history known. -/
def announceStep (event : String) : Option Nat → WorkspaceM Bool
  | none => return false
  | some n => do
    announce event s!"\x7b\"modifications\":{n}\x7d"
    return true

/-- Reverts the last undo group, and answers whether there was one. -/
def undo (name : String) : WorkspaceM Bool := do
  announceStep "buffer.undo" (← edit name EditM.undo)

/-- Reapplies the last undone group, and answers whether there was one. -/
def redo (name : String) : WorkspaceM Bool := do
  announceStep "buffer.redo" (← edit name EditM.redo)

/-- Selections over the text that changed since a timestamp. -/
def editedRanges (name : String) (timestamp : Nat) : WorkspaceM (List Selection) := do
  let ranges ← require ((← buffer name).editedRanges timestamp)
  note [Buffer.editedNote ranges timestamp]
  return ranges

/-- The line modifications since a timestamp. -/
def lineModifications (name : String) (timestamp : Nat) : WorkspaceM (List LineModification) := do
  let b ← buffer name
  note (b.lineModificationNotes timestamp)
  require (b.lineModifications timestamp)

end Caret.WorkspaceM
