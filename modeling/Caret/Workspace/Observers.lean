import Caret.Workspace

/-!
# Watchers, word indexes and recorders of a workspace
-/

namespace Caret.WorkspaceM

/-- Watches the buffer under a name. -/
def watch (name buffer : String) : WorkspaceM Unit := do
  let b ← WorkspaceM.buffer buffer
  modify fun w => { w with watchers := w.watchers.put name (.ofBuffer b) }

/-- The line modifications since the last query of a watcher. -/
def queryWatcher (name buffer : String) : WorkspaceM (List LineModification) := do
  let watcher ← named (·.watchers) name
  let b ← WorkspaceM.buffer buffer
  note (watcher.queryNotes b)
  let (mods, watcher) ← require (watcher.query b)
  modify fun w => { w with watchers := w.watchers.put name watcher }
  return mods

/-- Indexes the words of the buffer under a name. -/
def indexWords (split : Text → List Word) (name buffer : String) : WorkspaceM Unit := do
  let b ← WorkspaceM.buffer buffer
  modify fun w => { w with indexes := w.indexes.put name (.ofBuffer split b) }

/-- Brings a word index up to date. -/
def updateIndex (split : Text → List Word) (name buffer : String) : WorkspaceM Unit := do
  let index ← named (·.indexes) name
  let b ← WorkspaceM.buffer buffer
  note (index.updateNotes split b)
  let index ← require (index.update split b)
  modify fun w => { w with indexes := w.indexes.put name index }

/-- Registers a recorder once more, after making one if there is none under the name. -/
def record (name buffer : String) : WorkspaceM Unit := do
  let recorder ← match (← get).recorders.get? name with
    | some recorder => pure recorder
    | none => pure { key := ← newKey }
  modify fun w => { w with recorders := w.recorders.put name recorder }
  let id ← register buffer recorder.key
  let registrations := recorder.registrations ++ [id]
  modify fun w => { w with recorders := w.recorders.put name { recorder with registrations } }

/-- Releases a registration on a buffer by the place that its number has among all registrations of
a recorder, and answers whether the buffer had it. -/
def unrecord (name buffer : String) (i : Nat) : WorkspaceM Bool := do
  let recorder ← named (·.recorders) name
  let h ← named (·.hosts) buffer
  match recorder.registrations[i]?.bind (h.registry.remove ·) with
  | some registry =>
    setRegistry buffer h registry
    return true
  | none => return false

/-- What a recorder saw since it was last asked. -/
def takeSeen (name : String) : WorkspaceM (List Sighting) := do
  let recorder ← named (·.recorders) name
  modify fun w => { w with recorders := w.recorders.put name { recorder with seen := [] } }
  return recorder.seen

end Caret.WorkspaceM
