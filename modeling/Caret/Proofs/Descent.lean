import Mathlib
import Caret.Proofs.Listening
import Caret.Proofs.Succession
import Caret.Workspace.LiveLists

/-!
# The main selection in a run

Runs on a list of either kind, in which selections are added, taken out, sorted, merged, brought up to
date and visited, and buffers are edited, in any order.

* `WorkspaceM.ends_edit`, `WorkspaceM.ends_visit`: what edits and visits leave.
* `ListTask`, `ListTask.run`, `ListTask.trace`: what is done with a list, and where it takes the entries.
* `ListTask.run_followed`: the main selection is never lost.
-/

namespace Caret

namespace SelectionList

/-- A list that is current is left as it is. -/
theorem updateMerging_of_current {l l' : SelectionList} {b : Buffer} (h : l.updateMerging b = .ok l')
    (htime : l.timestamp = b.timestamp) : l' = l := by
  unfold updateMerging at h
  rw [Fault.bind_eq_ok] at h
  obtain ⟨_, -, h⟩ := h
  rw [Fault.bind_eq_ok] at h
  obtain ⟨_, -, h⟩ := h
  rw [if_pos htime] at h
  cases h
  rfl

/-- Visits end in success or break a contract. -/
theorem visitAll_cases (l : SelectionList) (mayQueue : Bool) (callback : ℕ → Script) (d : Draft) :
    (∃ f, ((l.visitAll mayQueue callback).resume d).1 = .error (.fault f)) ∨
      ∃ l' T appended, l.updateMerging d.buffer = .ok l' ∧
        Tour.visitAll callback l'.group.items
          { draft := d, tracker := .start, timestamp := d.buffer.timestamp, mayQueue } = (.ok (), T) ∧
        T.queued.mapM (settle T.draft.buffer) = .ok appended ∧
        (l.visitAll mayQueue callback).resume d = (.ok (T.visited l' appended.flatten), T.draft) := by
  unfold visitAll
  rw [EditM.resume_bind_ok (show EditM.resume get d = (.ok d, d) from rfl)]
  cases hupdate : l.updateMerging d.buffer with
  | error f => exact .inl ⟨f, rfl⟩
  | ok l' =>
    rw [EditM.resume_bind_ok (EditM.resume_require_ok l' d)]
    dsimp only
    cases htour : Tour.visitAll callback l'.group.items
        { draft := d, tracker := .start, timestamp := d.buffer.timestamp, mayQueue } with
    | mk outcome T =>
      dsimp only
      rw [EditM.resume_bind_ok (show EditM.resume (set T.draft) d = (.ok (), T.draft) from rfl)]
      cases outcome with
      | error f => exact .inl ⟨f, rfl⟩
      | ok _ =>
        rw [EditM.resume_bind_ok (EditM.resume_require_ok () T.draft)]
        cases hsettle : T.queued.mapM (settle T.draft.buffer) with
        | error f => exact .inl ⟨f, rfl⟩
        | ok appended => exact .inr ⟨l', T, appended, rfl, htour, hsettle, rfl⟩

end SelectionList

namespace LiveList

theorem of_snapshot {l : LiveList} {b : Buffer} {batch : SelectionList} (h : l.snapshot b = .ok batch) :
    batch.group = l.group.normalize ∧ batch.timestamp = b.timestamp := by
  unfold snapshot SelectionList.ofSelections SelectionList.ofItems SelectionList.ofTimestamp at h
  unfold Selections.setMain at h
  simp only [Fault.bind_eq_ok] at h
  obtain ⟨list, ⟨_, ⟨_, -, _, -, hlist⟩, group, ⟨_, -, hgroup⟩, hsame⟩, hbatch⟩ := h
  cases hlist
  cases hgroup
  cases hsame
  cases hbatch
  exact ⟨rfl, rfl⟩

theorem of_track {b : Buffer} {g g' : Selections} (h : track b g = .ok g') : g' = g.clamp b.text := by
  unfold track at h
  rw [Fault.bind_eq_ok] at h
  obtain ⟨_, -, h⟩ := h
  cases h
  rfl

theorem followCalls_eq_followAll (l : LiveList) (calls : List Call) :
    l.followCalls calls =
      l.followAll ((calls.filter (·.entry.listener == l.key)).map (·.revision.change)) := by
  unfold followCalls followAll
  rw [List.foldlM_map]

end LiveList

/-! ## Edits -/

namespace WorkspaceM

variable {w : Workspace} {name : String} {host : Host}

/-- **An edit** ends as the edit of the buffer does, and the live lists have followed, unless it breaks a
contract. -/
theorem ends_edit {α : Type} {act : EditM α} (hget : w.hosts.get? name = some host) :
    Ends (edit name act) w
      (fun a w' => (act.exec host.buffer).1 = .ok a ∧ Edited name host (act.exec host.buffer).2 w w')
      fun e w' => Broken e w' ∨
        (act.exec host.buffer).1 = .error e ∧ Edited name host (act.exec host.buffer).2 w w' := by
  unfold Ends
  cases hr : (edit name act).resume w with
  | mk outcome w' =>
    match outcome, hr with
    | .ok a, hr =>
      obtain ⟨houtcome, hedited⟩ := of_resume_edit hget hr fun f hf => by cases hf
      exact ⟨houtcome.symm, hedited⟩
    | .error (.error e), hr =>
      obtain ⟨houtcome, hedited⟩ := of_resume_edit hget hr fun f hf => by cases hf
      exact .inr ⟨houtcome.symm, hedited⟩
    | .error (.fault f), _ => exact .inl (broken_fault f w')

/-- **A visit with edits** is a tour, after which the queued selections come behind the visited ones. -/
theorem ends_visit {l : SelectionList} {mayQueue : Bool} {callback : ℕ → Script}
    (hget : w.hosts.get? name = some host) :
    Ends (edit name (l.visitAll mayQueue callback)) w
      (fun v w' => ∃ l' T appended host', l.updateMerging host.buffer = .ok l' ∧
        SelectionList.Tour.visitAll callback l'.group.items
          { draft := { buffer := host.buffer }, tracker := .start, timestamp := host.buffer.timestamp, mayQueue } =
            (.ok (), T) ∧
        T.queued.mapM (SelectionList.settle T.draft.buffer) = .ok appended ∧
        v = T.visited l' appended.flatten ∧ w'.hosts.get? name = some host' ∧ host'.buffer = T.draft.buffer)
      Broken := by
  refine (ends_edit hget).mono ?_ ?_
  · rintro v w' ⟨houtcome, hedited⟩
    rcases l.visitAll_cases mayQueue callback { buffer := host.buffer } with
      ⟨f, hf⟩ | ⟨l', T, appended, hupdate, htour, hsettle, hvisited⟩
    · cases hf.symm.trans houtcome
    · have hexec : (l.visitAll mayQueue callback).exec host.buffer = _ := hvisited
      rw [hexec] at houtcome hedited
      cases houtcome
      exact ⟨l', T, appended, _, hupdate, htour, hsettle, rfl, hedited.found, rfl⟩
  · rintro e w' (hfault | ⟨herror, -⟩)
    · exact hfault
    rcases l.visitAll_cases mayQueue callback { buffer := host.buffer } with
      ⟨f, hf⟩ | ⟨l', T, appended, -, -, -, hvisited⟩
    · cases hf.symm.trans herror
      exact broken_fault f w'
    · cases (congrArg Prod.fst hvisited).symm.trans herror

end WorkspaceM

/-! ## Tasks -/

/-- The two kinds of lists: those that catch up on use, and live ones. -/
inductive ListKind
  | batch
  | live
  deriving DecidableEq, Repr, Inhabited

/-- The selections of the list of that kind under a name. -/
def ListKind.group? (name : String) (w : Workspace) : ListKind → Option Selections
  | batch => (w.lists.get? name).map SelectionList.group
  | live => (w.liveLists.get? name).map LiveList.group

/-- Puts the selections that an operation leads to in the place of those of a list. -/
def ListKind.alter (name : String) (f : Selections → Except Fault Selections) : ListKind → WorkspaceM PUnit
  | batch => WorkspaceM.alterSelections name f
  | live => WorkspaceM.alterLive name f

/-- Takes a selection out of a list. -/
def ListKind.remove (name : String) (i : ℕ) : ListKind → WorkspaceM Selection
  | batch => WorkspaceM.removeFromList name i
  | live => WorkspaceM.removeFromLive name i

/-- What may be done with a list, and with buffers. -/
inductive ListTask : ListKind → Type
  | edit {k : ListKind} (buffer : String) (command : Command) : ListTask k
  | push (s : Selection) : ListTask .batch
  | pushOn (buffer : String) (s : Selection) : ListTask .live
  | remove {k : ListKind} (i : ℕ) : ListTask k
  | setMain {k : ListKind} (i : ℕ) : ListTask k
  | sort {k : ListKind} : ListTask k
  | mergeOverlapping {k : ListKind} : ListTask k
  | mergeConsecutive (buffer : String) : ListTask .batch
  | update (buffer : String) (merge : Bool) : ListTask .batch
  | visit {k : ListKind} (buffer : String) (mayQueue : Bool) (callback : ℕ → Script) : ListTask k

namespace ListTask

/-- A task as a computation, without its answer. -/
def act (name : String) : {k : ListKind} → ListTask k → WorkspaceM PUnit
  | _, edit buffer command => WorkspaceM.edit buffer command.act
  | _, push s => WorkspaceM.alterSelections name fun g => .ok (g.push s)
  | _, pushOn buffer s => WorkspaceM.pushLive name buffer s
  | k, remove i => discard (k.remove name i)
  | k, setMain i => k.alter name (·.setMain i)
  | k, sort => k.alter name fun g => .ok g.sort
  | k, mergeOverlapping => k.alter name fun g => .ok g.mergeOverlapping
  | _, mergeConsecutive buffer => do
    let t := (← WorkspaceM.buffer buffer).text
    WorkspaceM.alterSelections name (·.mergeConsecutive t)
  | _, update buffer merge => WorkspaceM.updateList name buffer merge
  | .batch, visit buffer mayQueue callback =>
    discard (WorkspaceM.visitList name buffer (·.visitAll mayQueue callback))
  | .live, visit buffer mayQueue callback =>
    discard (WorkspaceM.visitLive name buffer mayQueue callback)

/-- A workspace after a task, if it broke no contract. -/
def perform {k : ListKind} (name : String) (w : Workspace) (task : ListTask k) : Option Workspace :=
  Deed.settled ((task.act name).resume w)

/-- A workspace after a sequence of tasks. -/
def run {k : ListKind} (name : String) (w : Workspace) (tasks : List (ListTask k)) : Option Workspace :=
  tasks.foldlM (perform name) w

/-- The changes that a listener is told of when a buffer is edited, once for each of its registrations. -/
def told (w : Workspace) (buffer : String) (command : Command) (key : ListenerKey) : List Change :=
  (((Deed.edit command).calls buffer w).filter (·.entry.listener == key)).map (·.revision.change)

/-- Where an edit takes the entries of a list: nowhere, unless the list is a live one. -/
def followEdit (name : String) (w : Workspace) (buffer : String) (command : Command) (f : Ancestry) :
    ListKind → Option Ancestry
  | .batch => some f
  | .live => do (f.followAll (told w buffer command (← w.liveLists.get? name).key)).toOption

/-- Where catching up takes the entries of a list. -/
def followUpdate (name : String) (w : Workspace) (buffer : String) (merge : Bool) (f : Ancestry) :
    Option Ancestry := do
  let l ← w.lists.get? name
  let host ← w.hosts.get? buffer
  (if merge then f.updateMerging l host.buffer else f.updateSeparately l host.buffer).toOption

/-- Where visits take the entries of a list. Those of a live list are sorted and merged before, and put at
positions of the text afterwards. -/
def followVisit (name : String) (w : Workspace) (buffer : String) (mayQueue : Bool) (callback : ℕ → Script)
    (f : Ancestry) : ListKind → Option Ancestry
  | .batch => do
    let f ← followUpdate name w buffer true f
    let host ← w.hosts.get? buffer
    let visited ← (f.visit host.buffer mayQueue callback).toOption
    return visited.1
  | .live => do
    let f ← f.normalize.toOption
    let host ← w.hosts.get? buffer
    let (f, b) ← (f.visit host.buffer mayQueue callback).toOption
    (f.changeAll fun s => return s.clamp b.text).toOption

/-- Where a task takes the entries of a list. It is told of each entry from what the task does to it, and
not from the list that comes out. -/
def follow (name : String) (w : Workspace) (f : Ancestry) : {k : ListKind} → ListTask k → Option Ancestry
  | k, edit buffer command => followEdit name w buffer command f k
  | _, push s => some (f.append [s])
  | _, pushOn buffer s => (w.hosts.get? buffer).map fun host => f.append [s.clamp host.buffer.text]
  | _, remove i => some (f.remove i)
  | _, setMain i => some (f.choose i)
  | _, sort => some f.sort
  | _, mergeOverlapping => f.mergeOverlapping.toOption
  | _, mergeConsecutive buffer => do (f.mergeConsecutive (← w.hosts.get? buffer).buffer.text).toOption
  | _, update buffer merge => followUpdate name w buffer merge f
  | k, visit buffer mayQueue callback => followVisit name w buffer mayQueue callback f k

/-- The entries of a list after a sequence of tasks. -/
def trace {k : ListKind} (name : String) : Workspace → Ancestry → List (ListTask k) → Option Ancestry
  | _, f, [] => some f
  | w, f, task :: tasks => do
    let w' ← task.perform name w
    trace name w' (← task.follow name w f) tasks

/-- A task leaves the choice of the main entry alone: no other one is chosen, and it is not taken out. -/
def Spares {k : ListKind} (f : Ancestry) : ListTask k → Prop
  | setMain _ => False
  | remove i => ¬f.chosen ⊆ (f.entries[i]?.map Heir.origins).getD []
  | _ => True

/-- All tasks of a sequence leave the choice alone. -/
def AllSpare {k : ListKind} (name : String) : Workspace → Ancestry → List (ListTask k) → Prop
  | _, _, [] => True
  | w, f, task :: tasks => Spares f task ∧ ∀ w' f', task.perform name w = some w' →
      task.follow name w f = some f' → AllSpare name w' f' tasks

/-- What a task asks of the list. -/
def Permitted {k : ListKind} (name : String) (w : Workspace) (g : Selections) : ListTask k → Prop
  | push _ | sort | mergeOverlapping => True
  | pushOn buffer _ => ∃ l host, w.liveLists.get? name = some l ∧ w.hosts.get? buffer = some host ∧
      l.buffer = host.buffer.id
  | remove i => i < g.items.length ∧ 1 < g.items.length
  | setMain i => i < g.items.length
  | mergeConsecutive buffer => ∃ host, w.hosts.get? buffer = some host ∧
      host.buffer.text.size < Text.capacity ∧ ∀ s ∈ g.items, s.ValidIn host.buffer.text
  | edit .. | update .. | visit .. => False

end ListTask

/-! ## One task -/

/-- What holds where a computation ends is certain unless it breaks a contract. -/
theorem WorkspaceM.Ends.or_broken {act : WorkspaceM PUnit} {w : Workspace} {P : Workspace → Prop}
    (h : WorkspaceM.Ends act w (fun _ => P) WorkspaceM.Broken) :
    WorkspaceM.Ends act w (fun _ => P) fun e w' => WorkspaceM.Broken e w' ∨ P w' :=
  h.mono (fun _ _ hP => hP) fun _ _ => .inl

namespace ListKind

open WorkspaceM

variable {k : ListKind} {name : String} {w w' : Workspace} {g : Selections}

theorem group?_putList {l : SelectionList} :
    batch.group? name { w with lists := w.lists.put name l } = some l.group := by
  unfold group?
  rw [Table.get?_put]
  rfl

theorem group?_putLive {l : LiveList} :
    live.group? name { w with liveLists := w.liveLists.put name l } = some l.group := by
  unfold group?
  rw [Table.get?_put]
  rfl

/-- An operation on the selections of a list succeeds where it answers. -/
theorem ends_alter {f : Selections → Except Fault Selections} (hget : k.group? name w = some g) :
    Ends (k.alter name f) w (fun _ w' => ∃ g', f g = .ok g' ∧ k.group? name w' = some g')
      fun e _ => ∃ fault, e = .fault fault ∧ f g = .error fault := by
  cases k with
  | batch =>
    obtain ⟨l, hl, rfl⟩ := Option.map_eq_some_iff.1 hget
    unfold alter alterSelections alterList list putList
    refine bind_named_of_eq_some hl (bind_require (fun l' hl' => ?_) fun fault hfault => ?_)
    · rw [Fault.bind_eq_ok] at hl'
      obtain ⟨g', hg', hl'⟩ := hl'
      cases hl'
      exact ends_modify ⟨g', hg', group?_putList⟩
    · have hfault : (f l.group >>= fun g' => .ok { l with group := g' }) = .error fault := hfault
      cases hf : f l.group with
      | ok g' =>
        rw [hf] at hfault
        cases hfault
      | error fault' =>
        rw [hf] at hfault
        cases hfault
        exact ⟨fault, rfl, rfl⟩
  | live =>
    obtain ⟨l, hl, rfl⟩ := Option.map_eq_some_iff.1 hget
    unfold alter alterLive liveList setLive
    refine bind_named_of_eq_some hl ?_
    exact bind_require (fun g' hg' => ends_modify ⟨g', hg', group?_putLive⟩) fun fault hfault =>
      ⟨fault, rfl, hfault⟩

theorem ends_remove {i : ℕ} (hget : k.group? name w = some g) :
    Ends (k.remove name i) w (fun s w' => ∃ g', g.remove i = .ok (s, g') ∧ k.group? name w' = some g')
      fun e _ => ∃ fault, e = .fault fault ∧ g.remove i = .error fault := by
  cases k with
  | batch =>
    obtain ⟨l, hl, rfl⟩ := Option.map_eq_some_iff.1 hget
    unfold remove removeFromList list putList
    refine bind_named_of_eq_some hl ?_
    exact bind_require (fun removed hr => bind_modify (ends_pure ⟨removed.2, hr, group?_putList⟩))
      fun fault hfault => ⟨fault, rfl, hfault⟩
  | live =>
    obtain ⟨l, hl, rfl⟩ := Option.map_eq_some_iff.1 hget
    unfold remove removeFromLive liveList setLive
    refine bind_named_of_eq_some hl ?_
    exact bind_require (fun removed hr => bind_modify (ends_pure ⟨removed.2, hr, group?_putLive⟩))
      fun fault hfault => ⟨fault, rfl, hfault⟩

end ListKind

namespace ListTask

open Workspace WorkspaceM

variable {k : ListKind} {name buffer : String} {w w' : Workspace} {f : Ancestry} {g : Selections}
  {task : ListTask k} {tasks : List (ListTask k)}

/-- The entries of a list are followed, and the main one descends from the chosen one. -/
def Keeps (name : String) (w : Workspace) (f : Ancestry) (task : ListTask k) (w' : Workspace) : Prop :=
  ∃ g f', k.group? name w' = some g ∧ task.follow name w f = some f' ∧ f'.Traces g

theorem ends_edit {command : Command} (hget : k.group? name w = some g) (h : f.Traces g) :
    Ends ((edit buffer command : ListTask k).act name) w
      (fun _ => (edit buffer command : ListTask k).Keeps name w f)
      fun e w' => Broken e w' ∨ (edit buffer command : ListTask k).Keeps name w f w' := by
  cases hfound : w.hosts.get? buffer with
  | none =>
    show Ends (WorkspaceM.edit buffer command.act) _ _ _
    unfold WorkspaceM.edit editHolding
    refine bind_named (fun host hhost => ?_) fun _ => .inl (broken_fault _ w)
    cases hfound.symm.trans hhost
  | some host =>
    have hkeeps {w' : Workspace} (hedited : Edited buffer host (command.act.exec host.buffer).2 w w') :
        (edit buffer command : ListTask k).Keeps name w f w' := by
      cases k with
      | batch =>
        refine ⟨g, f, ?_, rfl, h⟩
        rw [← hget, ListKind.group?, hedited.lists]
        rfl
      | live =>
        obtain ⟨l, hl, rfl⟩ := Option.map_eq_some_iff.1 hget
        obtain ⟨l', hl', hfollow⟩ := hedited.lives name l hl
        have hcalls : (Deed.edit command).calls buffer w = Call.all
            (host.registry.prune w.listenerAlive).entries (command.act.exec host.buffer).2.revisions := by
          unfold Deed.calls
          rw [hfound]
        rw [← hcalls, LiveList.followCalls_eq_followAll] at hfollow
        obtain ⟨f', hf', h'⟩ := h.followAll hfollow
        refine ⟨l'.group, f', ?_, ?_, h'⟩
        · rw [ListKind.group?, hl']
          rfl
        · unfold follow followEdit
          rw [hl]
          exact congrArg Except.toOption hf'
    exact (WorkspaceM.ends_edit hfound).mono (fun _ _ hedited => hkeeps hedited.2) fun e w' hstop =>
      hstop.imp id fun hedited => hkeeps hedited.2

theorem ends_alter {φ : Selections → Except Fault Selections} (hget : k.group? name w = some g)
    (hkeeps : ∀ g', φ g = .ok g' → ∃ f', task.follow name w f = some f' ∧ f'.Traces g') :
    Ends (k.alter name φ) w (fun _ => task.Keeps name w f) Broken := by
  refine (ListKind.ends_alter hget).mono ?_ ?_
  · rintro _ w' ⟨g', hg', hget'⟩
    obtain ⟨f', hf', h'⟩ := hkeeps g' hg'
    exact ⟨g', f', hget', hf', h'⟩
  · rintro _ w' ⟨fault, rfl, -⟩
    exact broken_fault fault w'

theorem ends_remove {i : ℕ} (hget : k.group? name w = some g) (h : f.Traces g) :
    Ends ((remove i : ListTask k).act name) w (fun _ => (remove i : ListTask k).Keeps name w f) Broken := by
  refine Ends.discard ((ListKind.ends_remove hget).mono ?_ ?_)
  · rintro s w' ⟨g', hr, hget'⟩
    exact ⟨g', f.remove i, hget', rfl, h.remove hr⟩
  · rintro _ w' ⟨fault, rfl, -⟩
    exact broken_fault fault w'

theorem ends_pushOn {s : Selection} (hget : ListKind.live.group? name w = some g) (h : f.Traces g) :
    Ends ((pushOn buffer s).act name) w (fun _ => (pushOn buffer s).Keeps name w f) Broken := by
  obtain ⟨l, hl, rfl⟩ := Option.map_eq_some_iff.1 hget
  show Ends (pushLive name buffer s) _ _ _
  unfold pushLive liveList
  refine bind_named_of_eq_some hl ?_
  refine bind_buffer (fun host hhost => bind_require (fun _ _ => ?_) fun _ _ => broken_fault _ w)
    (broken_fault _ w)
  refine ends_modify ⟨_, f.append [s.clamp host.buffer.text], ListKind.group?_putLive, ?_, h.append _⟩
  show (w.hosts.get? buffer).map _ = _
  rw [hhost]
  rfl

theorem ends_mergeConsecutive (hget : ListKind.batch.group? name w = some g) (h : f.Traces g) :
    Ends ((mergeConsecutive buffer).act name) w
      (fun _ => (mergeConsecutive buffer).Keeps name w f) Broken := by
  refine bind_buffer (fun host hhost => ?_) (broken_fault _ w)
  refine ends_alter (k := .batch) hget fun g' hg' => ?_
  obtain ⟨f', hf', h'⟩ := h.mergeBy hg'
  refine ⟨f', ?_, h'⟩
  show (do (f.mergeConsecutive (← w.hosts.get? buffer).buffer.text).toOption) = some f'
  rw [hhost]
  exact congrArg Except.toOption hf'

theorem followUpdate_eq {merge : Bool} {l : SelectionList} {host : Host} (hl : w.lists.get? name = some l)
    (hhost : w.hosts.get? buffer = some host) : followUpdate name w buffer merge f =
      (if merge then f.updateMerging l host.buffer else f.updateSeparately l host.buffer).toOption := by
  unfold followUpdate
  rw [hl, hhost]
  rfl

theorem ends_update {merge : Bool} (hget : ListKind.batch.group? name w = some g) (h : f.Traces g) :
    Ends ((update buffer merge).act name) w (fun _ => (update buffer merge).Keeps name w f) Broken := by
  obtain ⟨l, hl, rfl⟩ := Option.map_eq_some_iff.1 hget
  show Ends (updateList name buffer merge) _ _ _
  unfold updateList list
  refine bind_named_of_eq_some hl ?_
  refine bind_buffer (fun host hhost => bind_modify ?_) (broken_fault _ w)
  refine bind_require (fun l' hl' => ?_) fun _ _ => broken_fault _ _
  refine ends_modify ?_
  obtain ⟨f', hf', h'⟩ : ∃ f', (if merge then f.updateMerging l host.buffer
      else f.updateSeparately l host.buffer) = .ok f' ∧ f'.Traces l'.group := by
    cases merge with
    | true => exact h.updateMerging hl'
    | false => exact h.updateSeparately hl'
  exact ⟨_, f', ListKind.group?_putList, (followUpdate_eq hl hhost).trans (congrArg Except.toOption hf'), h'⟩

theorem ends_visitList {mayQueue : Bool} {callback : ℕ → Script}
    (hget : ListKind.batch.group? name w = some g) (h : f.Traces g) :
    Ends ((visit buffer mayQueue callback : ListTask .batch).act name) w
      (fun _ => (visit buffer mayQueue callback : ListTask .batch).Keeps name w f) Broken := by
  obtain ⟨l, hl, rfl⟩ := Option.map_eq_some_iff.1 hget
  refine Ends.discard ?_
  unfold visitList list
  refine bind_named_of_eq_some hl ?_
  refine bind_buffer (fun host hhost => bind_modify ?_) (broken_fault _ w)
  refine Ends.bind (ends_visit hhost) ?_
  rintro visited w' ⟨l', T, appended, -, hupdate, htour, hsettle, rfl, -, -⟩
  obtain ⟨f₁, hf₁, h₁⟩ := h.updateMerging hupdate
  obtain ⟨f', hf', h'⟩ := h₁.visit htour hsettle
  refine bind_modify (ends_pure ⟨_, f', ListKind.group?_putList, ?_, h'⟩)
  have hcaught : followUpdate name w buffer true f = some f₁ :=
    (followUpdate_eq hl hhost).trans (congrArg Except.toOption hf₁)
  show followVisit name w buffer mayQueue callback f .batch = some f'
  unfold followVisit
  rw [hcaught, hhost]
  show (do return (← (f₁.visit host.buffer mayQueue callback).toOption).1) = some f'
  rw [hf']
  rfl

theorem ends_visitLive {mayQueue : Bool} {callback : ℕ → Script}
    (hget : ListKind.live.group? name w = some g) (h : f.Traces g) :
    Ends ((visit buffer mayQueue callback : ListTask .live).act name) w
      (fun _ => (visit buffer mayQueue callback : ListTask .live).Keeps name w f) Broken := by
  obtain ⟨l, hl, rfl⟩ := Option.map_eq_some_iff.1 hget
  refine Ends.discard ?_
  unfold visitLive liveList
  refine bind_named_of_eq_some hl ?_
  refine bind_buffer (fun host hhost => ?_) (broken_fault _ w)
  refine bind_require (fun _ _ => bind_require (fun batch hbatch => ?_) fun _ _ => broken_fault _ w)
    fun _ _ => broken_fault _ w
  refine Ends.bind (ends_visit hhost) ?_
  rintro visited w' ⟨l', T, appended, host', hupdate, htour, hsettle, rfl, hhost', hsame⟩
  refine bind_buffer_of_eq_some hhost' (bind_require (fun group hgroup => ?_) fun _ _ => broken_fault _ w')
  refine bind_named (fun live _ => bind_modify (ends_pure ?_)) fun _ => broken_fault _ w'
  obtain ⟨hnormal, htime⟩ := LiveList.of_snapshot hbatch
  obtain rfl := SelectionList.updateMerging_of_current hupdate htime
  obtain rfl := LiveList.of_track hgroup
  obtain ⟨f₁, hf₁, h₁⟩ := h.normalize
  rw [← hnormal] at h₁
  obtain ⟨f₂, hf₂, h₂⟩ := h₁.visit htour hsettle
  obtain ⟨f', hf', h'⟩ := h₂.clamp T.draft.buffer.text
  rw [← hsame] at h'
  refine ⟨_, f', ListKind.group?_putLive, ?_, h'⟩
  show followVisit name w buffer mayQueue callback f .live = some f'
  unfold followVisit
  rw [hf₁, hhost]
  show (do
    let (f, b) ← (f₁.visit host.buffer mayQueue callback).toOption
    (f.changeAll fun s => return s.clamp b.text).toOption) = some f'
  rw [hf₂]
  exact congrArg Except.toOption hf'

/-- **Every task** keeps track of the main entry, unless it breaks a contract. -/
theorem ends_act (hget : k.group? name w = some g) (h : f.Traces g) (task : ListTask k) :
    Ends (task.act name) w (fun _ => task.Keeps name w f)
      fun e w' => Broken e w' ∨ task.Keeps name w f w' := by
  cases task with
  | edit buffer command => exact ends_edit hget h
  | push s =>
    refine (ends_alter (k := .batch) hget fun g' hg' => ?_).or_broken
    cases hg'
    exact ⟨_, rfl, h.append [s]⟩
  | pushOn buffer s => exact (ends_pushOn hget h).or_broken
  | remove i => exact (ends_remove hget h).or_broken
  | setMain i =>
    refine (ends_alter hget fun g' hg' => ?_).or_broken
    unfold Selections.setMain at hg'
    rw [Fault.bind_eq_ok] at hg'
    obtain ⟨_, hi, hg'⟩ := hg'
    cases hg'
    exact ⟨_, rfl, h.choose (Fault.unless_eq_ok_iff.1 hi)⟩
  | sort =>
    refine (ends_alter hget fun g' hg' => ?_).or_broken
    cases hg'
    exact ⟨_, rfl, h.sort⟩
  | mergeOverlapping =>
    refine (ends_alter hget fun g' hg' => ?_).or_broken
    cases hg'
    obtain ⟨f', hf', h'⟩ := h.mergeOverlapping
    exact ⟨f', congrArg Except.toOption hf', h'⟩
  | mergeConsecutive buffer => exact (ends_mergeConsecutive hget h).or_broken
  | update buffer merge => exact (ends_update hget h).or_broken
  | visit buffer mayQueue callback =>
    cases k with
    | batch => exact (ends_visitList hget h).or_broken
    | live => exact (ends_visitLive hget h).or_broken

/-- **One task.** -/
theorem perform_keeps (hget : k.group? name w = some g) (h : f.Traces g)
    (hp : task.perform name w = some w') : task.Keeps name w f w' := by
  obtain ⟨outcome, hr, hok⟩ := Deed.settled_eq_some hp
  have hends := ends_act hget h task
  cases outcome with
  | ok _ => exact hends.ok hr
  | error e =>
    rcases hends.stop hr with ⟨fault, rfl⟩ | hkeeps
    · exact absurd rfl (hok fault)
    · exact hkeeps

/-- **A sequence of tasks.** -/
theorem run_keeps (hget : k.group? name w = some g) (h : f.Traces g) (hr : run name w tasks = some w') :
    ∃ g' f', k.group? name w' = some g' ∧ trace name w f tasks = some f' ∧ f'.Traces g' := by
  induction tasks generalizing w f g with
  | nil =>
    cases hr
    exact ⟨g, f, hget, rfl, h⟩
  | cons task tasks ih =>
    unfold run at hr
    rw [List.foldlM_cons, Option.bind_eq_bind, Option.bind_eq_some_iff] at hr
    obtain ⟨w₁, hp, hr⟩ := hr
    obtain ⟨g₁, f₁, hget₁, hf₁, h₁⟩ := perform_keeps hget h hp
    obtain ⟨g', f', hget', hf', h'⟩ := ih hget₁ h₁ hr
    refine ⟨g', f', hget', ?_, h'⟩
    rw [trace, hp]
    show (do trace name w₁ (← task.follow name w f) tasks) = some f'
    rw [hf₁]
    exact hf'

/-! ## The choice of the main entry -/

theorem chosen_of_followUpdate {f' : Ancestry} {merge : Bool}
    (hf : followUpdate name w buffer merge f = some f') : f'.chosen = f.chosen := by
  obtain ⟨l, -, hf⟩ := Option.bind_eq_some_iff.1 hf
  obtain ⟨host, -, hf⟩ := Option.bind_eq_some_iff.1 hf
  cases merge with
  | true => exact Ancestry.chosen_updateMerging (Fault.toOption_eq_some.1 hf)
  | false => exact Ancestry.chosen_updateSeparately (Fault.toOption_eq_some.1 hf)

theorem chosen_of_follow {f' : Ancestry} (hs : Spares f task) (hf : task.follow name w f = some f') :
    f'.chosen = f.chosen := by
  cases task with
  | edit buffer command =>
    cases k with
    | batch =>
      cases hf
      rfl
    | live =>
      obtain ⟨l, -, hf⟩ := Option.bind_eq_some_iff.1 hf
      exact Ancestry.chosen_followAll (Fault.toOption_eq_some.1 hf)
  | push s =>
    cases hf
    rfl
  | pushOn buffer s =>
    obtain ⟨host, -, rfl⟩ := Option.map_eq_some_iff.1
      (show (w.hosts.get? buffer).map (fun host => f.append [s.clamp host.buffer.text]) = some f' from hf)
    rfl
  | remove i =>
    have hf : f.remove i = f' := Option.some.inj hf
    unfold Ancestry.remove at hf
    rw [if_neg hs] at hf
    rw [← hf]
  | setMain i => exact hs.elim
  | sort =>
    cases hf
    rfl
  | mergeOverlapping => exact Ancestry.chosen_merge (Fault.toOption_eq_some.1 hf)
  | mergeConsecutive buffer =>
    have hf : (do (f.mergeConsecutive (← w.hosts.get? buffer).buffer.text).toOption) = some f' := hf
    obtain ⟨host, -, hf⟩ := Option.bind_eq_some_iff.1 hf
    exact Ancestry.chosen_merge (Fault.toOption_eq_some.1 hf)
  | update buffer merge => exact chosen_of_followUpdate hf
  | visit buffer mayQueue callback =>
    cases k with
    | batch =>
      obtain ⟨f₁, hf₁, hf⟩ := Option.bind_eq_some_iff.1 hf
      obtain ⟨host, -, hf⟩ := Option.bind_eq_some_iff.1 hf
      obtain ⟨visited, hvisited, hf⟩ := Option.bind_eq_some_iff.1 hf
      cases hf
      exact (Ancestry.chosen_visit (Fault.toOption_eq_some.1 hvisited)).trans (chosen_of_followUpdate hf₁)
    | live =>
      obtain ⟨f₁, hf₁, hf⟩ := Option.bind_eq_some_iff.1 hf
      obtain ⟨host, -, hf⟩ := Option.bind_eq_some_iff.1 hf
      obtain ⟨⟨f₂, b⟩, hf₂, hf⟩ := Option.bind_eq_some_iff.1 hf
      have hnormal : f₁.chosen = f.chosen := Ancestry.chosen_merge (f := f.sort) (Fault.toOption_eq_some.1 hf₁)
      have hvisited := Ancestry.chosen_visit (Fault.toOption_eq_some.1 hf₂)
      exact ((Ancestry.chosen_changeAll (Fault.toOption_eq_some.1 hf)).trans hvisited).trans hnormal

/-- **Tasks that leave the choice alone.** -/
theorem chosen_of_trace {f' : Ancestry} (hs : AllSpare name w f tasks) (ht : trace name w f tasks = some f') :
    f'.chosen = f.chosen := by
  induction tasks generalizing w f with
  | nil =>
    cases ht
    rfl
  | cons task tasks ih =>
    obtain ⟨hspares, hrest⟩ := hs
    rw [trace] at ht
    obtain ⟨w₁, hp, ht⟩ := Option.bind_eq_some_iff.1 ht
    obtain ⟨f₁, hf₁, ht⟩ := Option.bind_eq_some_iff.1 ht
    exact (ih (hrest w₁ f₁ hp hf₁) ht).trans (chosen_of_follow hspares hf₁)

theorem trace_append {tasks' : List (ListTask k)} (hr : run name w tasks = some w') :
    trace name w f (tasks ++ tasks') = (trace name w f tasks).bind fun f' => trace name w' f' tasks' := by
  induction tasks generalizing w f with
  | nil =>
    cases hr
    rfl
  | cons task tasks ih =>
    unfold run at hr
    rw [List.foldlM_cons, Option.bind_eq_bind, Option.bind_eq_some_iff] at hr
    obtain ⟨w₁, hp, hr⟩ := hr
    rw [List.cons_append, trace, trace, hp]
    show ((task.follow name w f).bind fun f₁ => trace name w₁ f₁ (tasks ++ tasks')) =
      ((task.follow name w f).bind fun f₁ => trace name w₁ f₁ tasks).bind _
    cases task.follow name w f with
    | none => rfl
    | some f₁ => exact ih hr


/-! ## Tasks that come to an end -/

/-- A computation that succeeds. -/
def Succeeds (act : WorkspaceM PUnit) (w : Workspace) : Prop := Ends act w (fun _ _ => True) fun _ _ => False

theorem Succeeds.exists_settled {act : WorkspaceM PUnit} (h : Succeeds act w) :
    ∃ w', Deed.settled (act.resume w) = some w' := by
  unfold Succeeds at h
  cases hr : act.resume w with
  | mk outcome w' =>
    cases outcome with
    | ok _ => exact ⟨w', rfl⟩
    | error _ => exact (h.stop hr).elim

theorem succeeds_alter {φ : Selections → Except Fault Selections} {g' : Selections}
    (hget : k.group? name w = some g) (hg' : φ g = .ok g') : Succeeds (k.alter name φ) w := by
  refine (ListKind.ends_alter hget).mono (fun _ _ _ => trivial) ?_
  rintro _ _ ⟨fault, -, hfault⟩
  rw [hg'] at hfault
  cases hfault

theorem succeeds_pushOn {s : Selection} (hp : Permitted name w g (pushOn buffer s)) :
    Succeeds ((pushOn buffer s).act name) w := by
  obtain ⟨l, host, hl, hhost, hbuffer⟩ := hp
  show Succeeds (pushLive name buffer s) w
  unfold Succeeds pushLive liveList
  refine bind_named_of_eq_some hl (bind_buffer_of_eq_some hhost ?_)
  refine bind_require (fun _ _ => ?_) fun fault hfault => ?_
  · exact ends_modify trivial
  · have hown : l.checkBuffer host.buffer = .ok () := Fault.unless_eq_ok_iff.2 hbuffer
    rw [hown] at hfault
    cases hfault

/-- **What is permitted is carried out.** -/
theorem exists_perform (hget : k.group? name w = some g) (hp : Permitted name w g task) :
    ∃ w', task.perform name w = some w' := by
  refine Succeeds.exists_settled ?_
  cases task with
  | edit buffer command => exact hp.elim
  | push s => exact succeeds_alter (k := .batch) hget rfl
  | pushOn buffer s => exact succeeds_pushOn hp
  | remove i =>
    obtain ⟨hi, hlen⟩ := hp
    have hremove : ∃ removed, g.remove i = .ok removed := by
      unfold Selections.remove Selections.item
      rw [Fault.unless_of hlen, List.getElem?_eq_getElem hi]
      exact ⟨_, rfl⟩
    refine Ends.discard ((ListKind.ends_remove hget).mono (fun _ _ _ => trivial) ?_)
    rintro _ _ ⟨fault, -, hfault⟩
    obtain ⟨removed, hr⟩ := hremove
    rw [hr] at hfault
    cases hfault
  | setMain i =>
    have hset : g.setMain i = .ok { g with main := i } := by
      unfold Selections.setMain
      rw [Fault.unless_of (show i < g.items.length from hp), Fault.ok_bind]
      rfl
    exact succeeds_alter hget hset
  | sort => exact succeeds_alter hget rfl
  | mergeOverlapping => exact succeeds_alter hget rfl
  | mergeConsecutive buffer =>
    obtain ⟨host, hhost, hsize, hvalid⟩ := hp
    obtain ⟨g', hg'⟩ := Selections.exists_mergeConsecutive_eq_ok hsize hvalid
    exact bind_buffer_of_eq_some hhost (succeeds_alter (k := .batch) hget hg')
  | update buffer merge => exact hp.elim
  | visit buffer mayQueue callback => exact hp.elim

/-! ## Runs -/

/-- **What a run leaves of a list**, which began with the selections `g₀` and has come to be `g`, with the
entries `f`. -/
structure Followed (name : String) (w₀ : Workspace) (g₀ : Selections) (tasks : List (ListTask k))
    (w : Workspace) (g : Selections) (f : Ancestry) : Prop where
  found : k.group? name w = some g
  traced : trace name w₀ (.start g₀) tasks = some f
  nonempty : g.items ≠ []
  main_lt : g.main < g.items.length
  lists : f.Lists g.items
  chosen : f.chosen ≠ []
  /-- The main entry, and no other, descends from the chosen one. -/
  descends : ∀ i e, f.entries[i]? = some e → (f.chosen ⊆ e.origins ↔ i = g.main)
  goesOn : ∀ task : ListTask k, Permitted name w g task → ∃ w', task.perform name w = some w'

theorem followed_of_traces {w₀ : Workspace} {g₀ : Selections} (hget : k.group? name w = some g)
    (htrace : trace name w₀ (.start g₀) tasks = some f) (h : f.Traces g) :
    Followed name w₀ g₀ tasks w g f := by
  refine ⟨hget, htrace, ?_, h.main_lt, h.lists, h.chosen, fun i e he => ?_, fun _ => exists_perform hget⟩
  · exact List.ne_nil_of_length_pos (Nat.zero_lt_of_lt h.main_lt)
  · obtain ⟨hi, rfl⟩ := List.getElem?_eq_some_iff.1 he
    exact h.subset_iff hi

/-- **The main selection is never lost.** At any time of a run, a list has selections, one of them is main,
and it is the one that descends from the entry that was chosen last. Unless another entry is chosen or
this one is taken out, that is the entry that was main at any earlier time. -/
theorem run_followed {w₀ : Workspace} {g₀ : Selections} {before after : List (ListTask k)}
    (hstart : k.group? name w₀ = some g₀) (hmain : g₀.main < g₀.items.length)
    (hr : run name w₀ (before ++ after) = some w) :
    ∃ w₁ g₁ f₁ g f, run name w₀ before = some w₁ ∧ Followed name w₀ g₀ before w₁ g₁ f₁ ∧
      Followed name w₀ g₀ (before ++ after) w g f ∧
      (AllSpare name w₁ f₁ after → f.chosen = f₁.chosen) := by
  unfold run at hr
  rw [List.foldlM_append, Option.bind_eq_bind, Option.bind_eq_some_iff] at hr
  obtain ⟨w₁, hr₁, hr⟩ := hr
  obtain ⟨g₁, f₁, hget₁, htrace₁, h₁⟩ := run_keeps hstart (Ancestry.traces_start hmain) hr₁
  obtain ⟨g, f, hget, htrace, h⟩ := run_keeps hget₁ h₁ hr
  have hall : trace name w₀ (.start g₀) (before ++ after) = some f := by
    rw [trace_append hr₁, htrace₁]
    exact htrace
  exact ⟨w₁, g₁, f₁, g, f, hr₁, followed_of_traces hget₁ htrace₁ h₁, followed_of_traces hget hall h,
    fun hspare => chosen_of_trace hspare htrace⟩

/-- Two selections out of order, the second one main. -/
def sampleGroup : Selections := { items := [.point ⟨0, 3⟩, .point ⟨0, 1⟩], main := 1 }

/-- A buffer, and a list of each kind with the same selections. -/
def sampleWorkspace : Workspace :=
  { nextListener := 1
    hosts := [("b", { buffer := Buffer.ofText 0 ['a', 'b', 'c', 'd'] {}
                      registry := ({} : Registry).add (fun _ => true) 0 })]
    lists := [("l", { group := sampleGroup, buffer := 0, timestamp := 0 })]
    liveLists := [("d", { key := 0, group := sampleGroup, buffer := 0, registration := some 0 })] }

/-- The list catches up with an edit, and then all but one of its selections are merged. -/
def sampleBatch : List (ListTask .batch) :=
  [.edit "b" (.insert 0 ['x']), .update "b" true, .push (.point ⟨0, 3⟩), .sort, .mergeConsecutive "b"]

/-- The live list is visited with edits, and then its main selection is taken out. -/
def sampleLive : List (ListTask .live) :=
  [.pushOn "b" (.point ⟨0, 9⟩), .visit "b" false fun _ => Script.insertNear .behind ['y'], .remove 0]

theorem run_followed_sample :
    (∃ w g f, Followed "l" sampleWorkspace sampleGroup ([.setMain 0] ++ sampleBatch) w g f ∧
      f.chosen = [0] ∧ f.entries.map Heir.origins = [[1, 2, 0]]) ∧
    ∃ w g f, Followed "d" sampleWorkspace sampleGroup ([.edit "b" (.insert 0 ['x'])] ++ sampleLive) w g f ∧
      f.chosen = [0] ∧ f.entries.map Heir.origins = [[0], [2]] := by
  constructor
  · have hsome : (run "l" sampleWorkspace ([.setMain 0] ++ sampleBatch)).isSome = true := by cbv
    obtain ⟨w, hr⟩ := Option.isSome_iff_exists.1 hsome
    obtain ⟨-, -, -, g, f, -, -, h, -⟩ := run_followed (k := .batch) rfl (by decide) hr
    have htrace : (trace "l" sampleWorkspace (.start sampleGroup) ([.setMain 0] ++ sampleBatch)).map
        (fun f => (f.chosen, f.entries.map Heir.origins)) = some ([0], [[1, 2, 0]]) := by cbv
    rw [h.traced] at htrace
    obtain ⟨hchosen, horigins⟩ := Prod.mk.inj (Option.some.inj htrace)
    exact ⟨w, g, f, h, hchosen, horigins⟩
  · have hsome : (run "d" sampleWorkspace ([.edit "b" (.insert 0 ['x'])] ++ sampleLive)).isSome = true := by
      cbv
    obtain ⟨w, hr⟩ := Option.isSome_iff_exists.1 hsome
    obtain ⟨-, -, -, g, f, -, -, h, -⟩ := run_followed (k := .live) rfl (by decide) hr
    have htrace : (trace "d" sampleWorkspace (.start sampleGroup)
        ([.edit "b" (.insert 0 ['x'])] ++ sampleLive)).map
        (fun f => (f.chosen, f.entries.map Heir.origins)) = some ([0], [[0], [2]]) := by cbv
    rw [h.traced] at htrace
    obtain ⟨hchosen, horigins⟩ := Prod.mk.inj (Option.some.inj htrace)
    exact ⟨w, g, f, h, hchosen, horigins⟩

end ListTask

end Caret
