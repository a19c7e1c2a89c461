import Caret.LiveList
import Caret.Selection.Splice
import Caret.WordIndex

/-!
# Workspaces

Buffers and all that refers to them, under names. Lists, watchers, indexes and handles know their
buffer by its number only, so that they may outlive it.

* `WorkspaceM`: a computation on a workspace. What was done before a failure stays done.
* `Workspace.handleCount`: how many objects refer to a buffer.
* `WorkspaceM.edit`: an edit of a buffer, made known to the listeners of the buffer.
-/

namespace Caret

/-- Values under names, in the order in which the names were first used. -/
abbrev Table (α : Type) := List (String × α)

namespace Table

/-- The value under a name. -/
def get? {α : Type} (t : Table α) (name : String) : Option α := t.lookup name

/-- Puts a value under a name, in the place of the one that was there. -/
def put {α : Type} (name : String) (a : α) : Table α → Table α
  | [] => [(name, a)]
  | (n, b) :: rest => if n = name then (name, a) :: rest else (n, b) :: put name a rest

/-- Frees a name. -/
def drop {α : Type} (t : Table α) (name : String) : Table α := t.filter (·.1 ≠ name)

/-- The values. -/
def values {α : Type} (t : Table α) : List α := t.map Prod.snd

/-- Changes all values. -/
def mapValues {α : Type} (f : α → Except Fault α) (t : Table α) : Except Fault (Table α) :=
  t.mapM fun entry => do return (entry.1, ← f entry.2)

end Table

/-- A buffer with its listeners. -/
structure Host where
  buffer : Buffer
  registry : Registry := {}
  deriving DecidableEq, Repr, Inhabited

/-- What a recorder saw of a change: the change, and size and timestamp of the buffer right after
it. -/
structure Sighting where
  change : Change
  size : Nat
  timestamp : Nat
  deriving DecidableEq, Repr, Inhabited

/-- A listener that writes down what it is told. -/
structure Recorder where
  key : ListenerKey
  /-- Its registrations, on whatever buffers, oldest first. -/
  registrations : List ListenerId := []
  seen : List Sighting := []
  deriving DecidableEq, Repr, Inhabited

/-- The recorder after it was told about a revision. -/
def Recorder.see (recorder : Recorder) (r : Revision) : Recorder :=
  { recorder with seen := recorder.seen ++ [⟨r.change, r.after.text.size, r.after.timestamp⟩] }

/-- Buffers and what refers to them. -/
structure Workspace where
  journal : Journal := {}
  /-- The number of the next buffer. -/
  nextBuffer : BufferId := 1
  /-- The identity of the next listener. -/
  nextListener : ListenerKey := 0
  hosts : Table Host := []
  lists : Table SelectionList := []
  liveLists : Table LiveList := []
  watchers : Table LineWatcher := []
  indexes : Table WordIndex := []
  handles : Table BufferId := []
  recorders : Table Recorder := []
  deriving Repr, Inhabited

namespace Workspace

/-- The number of objects that refer to a buffer. -/
def handleCount (w : Workspace) (id : BufferId) : Nat :=
  w.lists.values.countP (·.buffer == id) + w.liveLists.values.countP (·.buffer == id) +
    w.watchers.values.countP (·.buffer == id) +
    w.indexes.values.countP (·.watcher.buffer == id) + w.handles.values.countP (· == id)

/-- Whether a buffer still exists. -/
def isLive (w : Workspace) (id : BufferId) : Bool := w.hosts.values.any (·.buffer.id == id)

/-- Whether a live list still receives the edits of its buffer. -/
def isFollowing (w : Workspace) (l : LiveList) : Bool := l.registration.isSome && w.isLive l.buffer

/-- Whether a listener still exists. -/
def listenerAlive (w : Workspace) (key : ListenerKey) : Bool :=
  w.liveLists.values.any (·.key == key) || w.recorders.values.any (·.key == key)

end Workspace

/-- A computation on a workspace. -/
abbrev WorkspaceM := ExceptT Failure (StateM Workspace)

namespace WorkspaceM

/-- A step that can only break a contract. -/
def require {α : Type} (x : Except Fault α) : WorkspaceM α := ExceptT.mk (pure (Failure.ofFault x))

/-- The value under a name, which must be in use. -/
def named {α : Type} (table : Workspace → Table α) (name : String) : WorkspaceM α := do
  match (table (← get)).get? name with
  | some a => return a
  | none => throw (.fault .unknownName)

/-- Tells the host of the library. -/
def note (ns : List Note) : WorkspaceM Unit :=
  modify fun w => { w with journal := w.journal.noteAll ns }

/-- Makes an event known. -/
def announce (name data : String) : WorkspaceM Unit :=
  modify fun w => { w with journal := w.journal.announce ⟨name, data⟩ }

/-- The buffer under a name. -/
def buffer (name : String) : WorkspaceM Buffer := do return (← named (·.hosts) name).buffer

/-- A number that no listener has had. -/
def newKey : WorkspaceM ListenerKey := do
  let w ← get
  set { w with nextListener := w.nextListener + 1 }
  return w.nextListener

/-! ## Registrations -/

/-- What pruning a registry tells. -/
def pruneNotes (id : BufferId) (pruned : Nat) : List Note :=
  if pruned = 0 then []
  else [⟨.warn, s!"buffer {id}: pruned {pruned} listeners dropped without unregistering"⟩]

/-- Puts a changed registry in the place of that of a buffer. -/
def setRegistry (name : String) (h : Host) (registry : Registry) : WorkspaceM Unit :=
  modify fun w => { w with hosts := w.hosts.put name { h with registry } }

/-- Registers a listener on the buffer under a name. -/
def register (name : String) (key : ListenerKey) : WorkspaceM ListenerId := do
  let h ← named (·.hosts) name
  let alive := (← get).listenerAlive
  setRegistry name h (h.registry.add alive key)
  note (pruneNotes h.buffer.id (h.registry.deadCount alive))
  return h.registry.nextId

/-- The name under which a buffer is kept, if it still exists. -/
def nameOf? (id : BufferId) : WorkspaceM (Option String) := do
  return (((← get).hosts.find? fun entry => entry.2.buffer.id == id)).map Prod.fst

/-- Releases the registration of a live list. One on a buffer that no longer exists is gone. -/
def release (l : LiveList) : WorkspaceM Unit := do
  match l.registration, ← nameOf? l.buffer with
  | some id, some name =>
    let h ← named (·.hosts) name
    match h.registry.remove id with
    | some registry => setRegistry name h registry
    | none => throw (.fault .unregistered)
  | _, _ => return ()

/-! ## Edits -/

/-- Tells one listener about a revision. The listener must not be the one that its owner holds. -/
def notify (held : Option ListenerKey) (r : Revision) (key : ListenerKey) : WorkspaceM Unit := do
  if held = some key then throw (.fault .busyListener)
  let w ← get
  let liveLists ← require (w.liveLists.mapValues fun l =>
    if l.key = key then l.follow r.change else pure l)
  let recorders ← require (w.recorders.mapValues fun recorder =>
    pure (if recorder.key = key then recorder.see r else recorder))
  set { w with liveLists, recorders }

/-- Makes a revision known to the living listeners of a buffer, in the order of their
registrations. -/
def publish (name : String) (held : Option ListenerKey) (r : Revision) : WorkspaceM Unit := do
  let h ← named (·.hosts) name
  let alive := (← get).listenerAlive
  let registry := h.registry.prune alive
  setRegistry name h registry
  note (pruneNotes h.buffer.id (h.registry.deadCount alive))
  registry.entries.forM fun e => notify held r e.listener

/-- Edits the buffer under a name and makes all revisions known, also those made before a failure.
Listeners have no influence on the edit. The listener `held`, if any, cannot be told anything. -/
def editHolding {α : Type} (held : Option ListenerKey) (name : String) (act : EditM α) :
    WorkspaceM α := do
  let h ← named (·.hosts) name
  let (outcome, draft) := act.exec h.buffer
  modify fun w => { w with hosts := w.hosts.put name { h with buffer := draft.buffer } }
  draft.revisions.forM (publish name held)
  ExceptT.mk (pure outcome)

/-- Edits the buffer under a name and makes all revisions known. -/
def edit {α : Type} (name : String) (act : EditM α) : WorkspaceM α := editHolding none name act

end WorkspaceM

end Caret
