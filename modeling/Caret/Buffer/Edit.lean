import Caret.Buffer

/-!
# Edits

Edits are steps of an `EditM` computation. It carries the buffer and keeps, for those who watch the
buffer, a snapshot right after each logged change; both survive a failure, so that what was done
before a refused edit stays done and known.

* `EditM.insert`, `EditM.erase`, `EditM.replace`: the checked edits.
* `EditM.undo`, `EditM.redo`: replaying the groups of the history.
-/

namespace Caret

/-- A logged change and the buffer as it was left by that change. -/
structure Revision where
  change : Change
  after : Buffer
  deriving DecidableEq, Repr, Inhabited

/-- A buffer being edited and the revisions made so far, oldest first. -/
structure Draft where
  buffer : Buffer
  revisions : List Revision := []
  deriving DecidableEq, Repr, Inhabited

/-- A computation that edits a buffer. -/
abbrev EditM := ExceptT Failure (StateM Draft)

namespace EditM

/-- The outcome of editing `b` and what the edits left behind. -/
def exec {α : Type} (act : EditM α) (b : Buffer) : Except Failure α × Draft :=
  StateT.run (ExceptT.run act) { buffer := b }

/-- The buffer as it is now. -/
def buffer : EditM Buffer := do return (← get).buffer

/-- Alters the buffer without touching its text. -/
def modifyBuffer (f : Buffer → Buffer) : EditM Unit :=
  modify fun d => { d with buffer := f d.buffer }

/-- Ends with an error. -/
def refuse {α : Type} (e : EditError) : EditM α := throw (.error e)

/-- A step that can only break a contract. -/
def require {α : Type} (x : Except Fault α) : EditM α := ExceptT.mk (pure (Failure.ofFault x))

/-- Refuses to go on with a read-only buffer. -/
def checkWritable : EditM Unit := do
  if (← buffer).options.flags.readOnly then refuse .readOnly

/-- Refuses a coordinate that is not a position of the buffer. -/
def checkCoord (c : Coord) : EditM Unit := do
  unless (← buffer).text.Valid c do refuse (.invalidCoord c)

/-- Adds an edit to the history unless the buffer is not to be undone. -/
def record (m : RecordedEdit) : EditM Unit :=
  modifyBuffer fun b =>
    if b.options.flags.noUndo then b else { b with history := b.history.record m }

/-- Takes over the text that a change led to, and logs the change. -/
def commitChange (text : Text) (change : Change) : EditM Unit :=
  modify fun d =>
    let after := { d.buffer with text, log := d.buffer.log ++ [change] }
    { buffer := after, revisions := d.revisions ++ [⟨change, after⟩] }

/-- Puts in a text that is not empty, without any check of the position. -/
def putText (start : Coord) (new : Text) : EditM Span := do
  let old := (← buffer).text
  let n ← require (old.offset start)
  let text ← require (old.insertAt n new)
  let stop := text.coordAt (n + new.size)
  commitChange text ⟨.insert, start, stop⟩
  return ⟨start, stop⟩

/-- Takes out the text between two coordinates, without any check of these. -/
def cutText (start stop : Coord) : EditM Coord := do
  let old := (← buffer).text
  let low ← require (old.offset start)
  let high ← require (old.offset stop)
  let text ← require (old.removeRange low high)
  commitChange text ⟨.erase, start, stop⟩
  return start

/-- Inserts a text and answers with its extent. An empty text leaves no trace. -/
def insert (start : Coord) (new : Text) : EditM Span := do
  checkWritable
  checkCoord start
  if new.isEmpty then return ⟨start, start⟩
  record ⟨.insert, start, new⟩
  putText start new

/-- Erases the text between two positions and answers with the position that is left of it. -/
def erase (start stop : Coord) : EditM Coord := do
  checkWritable
  checkCoord start
  checkCoord stop
  if stop < start then refuse (.invalidCoord stop)
  if start = stop then return start
  let content ← require ((← buffer).text.between start stop)
  record ⟨.erase, start, content⟩
  cutText start stop

/-- Erases the text between two positions, then inserts another at the first. -/
def replace (start stop : Coord) (new : Text) : EditM Span := do
  insert (← erase start stop) new

/-- Makes a recorded edit again, or for the first time the inverse of one. -/
def reapply (m : RecordedEdit) : EditM Unit := do
  match m.kind with
  | .insert => discard (putText m.start m.content)
  | .erase =>
    let text := (← buffer).text
    let n ← require (text.offset m.start)
    discard (cutText m.start (text.coordAt (n + m.content.size)))

/-- Closes the open undo group. -/
def commitGroup : EditM Unit := modifyBuffer fun b => { b with history := b.history.commit }

/-- Reverts the last undo group, its last edit first. Answers with the number of edits reverted,
`none` when there is nothing to revert or the buffer is read-only. -/
def undo : EditM (Option Nat) := do
  let b ← buffer
  if b.options.flags.readOnly then return none
  let (group?, history) := b.history.popDone
  modifyBuffer ({ · with history })
  match group? with
  | none => return none
  | some group =>
    group.reverse.forM fun m => reapply m.inverse
    modifyBuffer fun b => { b with history := b.history.pushUndone group }
    return some group.length

/-- Makes the edits of the last undone group again. Answers as `undo` does. -/
def redo : EditM (Option Nat) := do
  let b ← buffer
  if b.options.flags.readOnly then return none
  let (group?, history) := b.history.popUndone
  modifyBuffer ({ · with history })
  match group? with
  | none => return none
  | some group =>
    group.forM reapply
    modifyBuffer fun b => { b with history := b.history.pushDone group }
    return some group.length

/-- Sets how the buffer takes edits. -/
def setFlags (flags : Flags) : EditM Unit :=
  modifyBuffer fun b => { b with options := { b.options with flags } }

end EditM

end Caret
