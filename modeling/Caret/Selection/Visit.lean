import Caret.Buffer.Edit
import Caret.Selection.List

/-!
# Visiting selections with edits

Every selection of a list is handed in turn to a callback that may edit the buffer, move the
selection and queue new ones. What a callback does is a `Script`, a finite tree of the steps it
takes, each chosen in view of all answers before it.

* `Script.run`: what a script does to the selection it visits and to the buffer.
* `SelectionList.visitAll`: the visit of a whole list. Each selection is first moved across the
  edits that were made for the selections before it.
-/

namespace Caret

/-- What a callback does with the selection it is given. -/
inductive Script
  /-- Ends in success. -/
  | done
  /-- Ends early. -/
  | fail (f : Failure)
  /-- Goes on in view of the buffer and the selection as they are now. -/
  | look (next : Buffer → Selection → Script)
  | insert (start : Coord) (new : Text) (next : Span → Script)
  | erase (start stop : Coord) (next : Coord → Script)
  | replace (start stop : Coord) (new : Text) (next : Span → Script)
  | commitGroup (next : Script)
  | undo (next : Option Nat → Script)
  | redo (next : Option Nat → Script)
  | setFlags (flags : Flags) (next : Script)
  /-- Replaces the visited selection. -/
  | select (s : Selection) (next : Script)
  /-- Queues a selection, valid in the buffer as it is now, for the end of the list. -/
  | queue (s : Selection) (next : Script)

namespace Script

/-- Goes on in view of a computation that can only break a contract. -/
def given {α : Type} (x : Except Fault α) (next : α → Script) : Script :=
  match x with
  | .ok a => next a
  | .error f => .fail (.fault f)

end Script

/-- A selection waiting for the end of the list, and the timestamp at which it was valid. -/
structure Queued where
  selection : Selection
  timestamp : Nat
  deriving DecidableEq, Repr, Inhabited

/-- What a script works on. -/
structure Visit where
  draft : Draft
  selection : Selection
  /-- Whether selections may be queued. -/
  mayQueue : Bool
  queued : List Queued := []
  deriving DecidableEq, Repr, Inhabited

namespace Visit

/-- One edit during a visit, and the rest of the visit if it succeeds. -/
def edit {α β : Type} (act : EditM α) (v : Visit) (next : α → Visit → Except Failure β × Visit) :
    Except Failure β × Visit :=
  match StateT.run (ExceptT.run act) v.draft with
  | (.ok a, draft) => next a { v with draft }
  | (.error f, draft) => (.error f, { v with draft })

end Visit

/-- Takes the steps of a script. A failure keeps what was done before it. -/
def Script.run : Script → Visit → Except Failure Unit × Visit
  | .done, v => (.ok (), v)
  | .fail f, v => (.error f, v)
  | .look next, v => (next v.draft.buffer v.selection).run v
  | .insert start new next, v => v.edit (EditM.insert start new) fun span => (next span).run
  | .erase start stop next, v => v.edit (EditM.erase start stop) fun c => (next c).run
  | .replace start stop new next, v => v.edit (EditM.replace start stop new) fun span =>
    (next span).run
  | .commitGroup next, v => v.edit EditM.commitGroup fun _ => next.run
  | .undo next, v => v.edit EditM.undo fun count => (next count).run
  | .redo next, v => v.edit EditM.redo fun count => (next count).run
  | .setFlags flags next, v => v.edit (EditM.setFlags flags) fun _ => next.run
  | .select s next, v => next.run { v with selection := s }
  | .queue s next, v =>
    if v.mayQueue then
      next.run { v with queued := v.queued ++ [⟨s, v.draft.buffer.timestamp⟩] }
    else (.error (.fault .notAppendable), v)

namespace SelectionList

/-- The visit of a list in progress. -/
structure Tour where
  draft : Draft
  /-- Moves the selections that are still to come. -/
  tracker : Tracker
  /-- How far into the log of the buffer the tracker has come. -/
  timestamp : Nat
  mayQueue : Bool
  queued : List Queued := []
  /-- The selections as they were handed out. -/
  handed : List Selection := []
  /-- The selections that the tour is through with. -/
  finished : List Selection := []
  /-- The error that ended the visits, if one did. -/
  refusal : Option EditError := none
  deriving Repr, Inhabited

namespace Tour

/-- A selection moved across the edits made so far. -/
def arrive (t : Tour) (s : Selection) : Except Fault Selection := do
  return { s with
    anchor := ← t.tracker.landing s.anchor
    cursor := ← t.tracker.landing s.cursor }

/-- Takes in the changes made since the tracker was last fed. -/
def catchUp (t : Tour) : Except Fault Unit × Tour :=
  match t.tracker.catchUp t.draft.buffer t.timestamp with
  | .error f => (.error f, t)
  | .ok tracker => (.ok (), { t with tracker, timestamp := t.draft.buffer.timestamp })

/-- Hands out one selection, unless an earlier visit was refused, and takes in the changes that
were made for it. -/
def visit (callback : Nat → Script) (t : Tour) (s : Selection) : Except Fault Unit × Tour :=
  match t.arrive s with
  | .error f => (.error f, t)
  | .ok s =>
    if t.refusal.isSome then (.ok (), { t with finished := t.finished ++ [s] })
    else
      let (outcome, v) := (callback t.finished.length).run
        { draft := t.draft, selection := s, mayQueue := t.mayQueue, queued := t.queued }
      let t := { t with
        draft := v.draft
        queued := v.queued
        handed := t.handed ++ [s]
        finished := t.finished ++ [v.selection] }
      match outcome with
      | .error (.fault f) => (.error f, t)
      | .error (.error e) => { t with refusal := some e }.catchUp
      | .ok () => t.catchUp

/-- Hands out one selection after the other. -/
def visitAll (callback : Nat → Script) : List Selection → Tour → Except Fault Unit × Tour
  | [], t => (.ok (), t)
  | s :: rest, t =>
    match visit callback t s with
    | (.ok (), t) => visitAll callback rest t
    | (.error f, t) => (.error f, t)

end Tour

/-- A queued selection as it is at the end of a tour: moved as a range across the changes made since
it was queued, and put at the nearest positions. -/
def settle (b : Buffer) (q : Queued) : Except Fault (List Selection) := do
  let moved ← sweepLog (← b.logSince q.timestamp) [q.selection]
  return moved.map (Selection.clamp b.text)

/-- What comes of visiting a list. -/
structure Visited where
  list : SelectionList
  /-- The selections as they were handed out, in order. -/
  handed : List Selection
  /-- The error that ended the visits, if one did. -/
  refusal : Option EditError
  deriving DecidableEq, Repr, Inhabited

/-- Brings the list up to date and hands its selections to `callback` in order, together with their
indices. The first error ends the visits; the list comes out up to date all the same, with the
queued selections at its end. -/
def visitAll (l : SelectionList) (mayQueue : Bool) (callback : Nat → Script) : EditM Visited := do
  let start ← get
  let l ← EditM.require (l.updateMerging start.buffer)
  let tour : Tour := {
    draft := start
    tracker := .start
    timestamp := start.buffer.timestamp
    mayQueue }
  let (outcome, tour) := tour.visitAll callback l.group.items
  set tour.draft
  EditM.require outcome
  let b := tour.draft.buffer
  let appended ← EditM.require (tour.queued.mapM (settle b))
  return {
    list := { l with
      group := { l.group with items := tour.finished ++ appended.flatten }
      timestamp := b.timestamp }
    handed := tour.handed
    refusal := tour.refusal }

end SelectionList

end Caret
