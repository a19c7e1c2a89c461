import Caret.Proofs.Lifetime

/-!
# Listeners in balance

Runs over any number of buffers in which live lists are made, copied, bound and dropped, among edits,
other listeners and buffers that come and go.

* `Step`, `Workspace.perform`, `Workspace.run`: what may happen, and when it goes on.
* `Step.ends`: every step keeps the invariant, and none looks in vain for a registration.
* `Workspace.run_balanced`: registrations, counts and handles at the end of any run.
-/

namespace Caret

/-- What may be done with a workspace. -/
inductive Step
  | openBuffer (name : String) (text : Text) (options : Options)
  | closeBuffer (name : String)
  | edit (name : String) (command : Command)
  | trackItems (name buffer : String) (items : List Selection)
  | trackList (name buffer listName : String)
  | copyLive (name target : String)
  | dropLive (name : String)
  | rebindLive (name buffer : String) (items : List Selection)
  | resetLive (name buffer listName : String)
  | alterLive (name : String) (f : Selections → Except Fault Selections)
  | pushLive (name buffer : String) (s : Selection)
  | removeFromLive (name : String) (i : ℕ)
  | visitLive (name buffer : String) (mayQueue : Bool) (callback : ℕ → Script)
  | insertHolding (name buffer : String) (start : Coord) (new : Text)
  | snapshotLive (name buffer listName : String)
  | putList (name : String) (l : SelectionList)
  | visitList (name buffer : String) (mayQueue : Bool) (callback : ℕ → Script)
  | dropList (name : String)
  | putWatcher (name : String) (watcher : LineWatcher)
  | dropWatcher (name : String)
  | putIndex (name : String) (index : WordIndex)
  | dropIndex (name : String)
  | putHandle (name : String) (id : BufferId)
  | dropHandle (name : String)
  | record (name buffer : String)
  | unrecord (name buffer : String) (i : ℕ)
  | takeSeen (name : String)
  | dropRecorder (name : String)

namespace Step

/-- A step as a computation, without its answer. -/
def act : Step → WorkspaceM PUnit
  | openBuffer name text options => discard (WorkspaceM.openBuffer name text options)
  | closeBuffer name => discard (WorkspaceM.closeBuffer name)
  | edit name command => WorkspaceM.edit name command.act
  | trackItems name buffer items => WorkspaceM.trackItems name buffer items
  | trackList name buffer listName => WorkspaceM.trackList name buffer listName
  | copyLive name target => WorkspaceM.copyLive name target
  | dropLive name => discard (WorkspaceM.dropLive name)
  | rebindLive name buffer items => WorkspaceM.rebindLive name buffer items
  | resetLive name buffer listName => WorkspaceM.resetLive name buffer listName
  | alterLive name f => WorkspaceM.alterLive name f
  | pushLive name buffer s => WorkspaceM.pushLive name buffer s
  | removeFromLive name i => discard (WorkspaceM.removeFromLive name i)
  | visitLive name buffer mayQueue callback => discard (WorkspaceM.visitLive name buffer mayQueue callback)
  | insertHolding name buffer start new => discard (WorkspaceM.insertHolding name buffer start new)
  | snapshotLive name buffer listName => discard (WorkspaceM.snapshotLive name buffer listName)
  | putList name l => WorkspaceM.putList name l
  | visitList name buffer mayQueue callback =>
    discard (WorkspaceM.visitList name buffer (·.visitAll mayQueue callback))
  | dropList name => modify fun w => { w with lists := w.lists.drop name }
  | putWatcher name watcher => modify fun w => { w with watchers := w.watchers.put name watcher }
  | dropWatcher name => modify fun w => { w with watchers := w.watchers.drop name }
  | putIndex name index => modify fun w => { w with indexes := w.indexes.put name index }
  | dropIndex name => modify fun w => { w with indexes := w.indexes.drop name }
  | putHandle name id => modify fun w => { w with handles := w.handles.put name id }
  | dropHandle name => modify fun w => { w with handles := w.handles.drop name }
  | record name buffer => WorkspaceM.record name buffer
  | unrecord name buffer i => discard (WorkspaceM.unrecord name buffer i)
  | takeSeen name => discard (WorkspaceM.takeSeen name)
  | dropRecorder name => modify fun w => { w with recorders := w.recorders.drop name }

/-- Whether a run goes on after a fault: the assertion that no handle is left of a buffer that goes
is made when the buffer is gone already. -/
def survives : Step → Fault → Bool
  | openBuffer .., f => f = .danglingHandles
  | _, _ => false

/-- Whether live lists are registered or released. -/
def binds : Step → Bool
  | trackItems .. | trackList .. | copyLive .. | dropLive .. | rebindLive .. | resetLive .. => true
  | _ => false

/-- Whether a listener other than a live list is registered. -/
def records : Step → Bool
  | record .. => true
  | _ => false

/-- The number of a registration is used on the buffer that gave it out: what goes by that number
there, if anything, is the registration of the recorder. -/
def proper (w : Workspace) : Step → Bool
  | unrecord name buffer i =>
    match w.recorders.get? name, w.hosts.get? buffer with
    | some recorder, some host => host.registry.entries.all fun e =>
      recorder.registrations[i]? != some e.id || e.listener == recorder.key
    | _, _ => true
  | _ => true

end Step

namespace Workspace

/-- A workspace after a step that comes to an end or is refused; `none` when it breaks a contract. -/
def perform (w : Workspace) (step : Step) : Option Workspace :=
  if step.proper w then
    match step.act.resume w with
    | (.error (.fault f), w') => if step.survives f then some w' else none
    | (_, w') => some w'
  else none

/-- A workspace after a sequence of steps. -/
def run (w : Workspace) (steps : List Step) : Option Workspace := steps.foldlM perform w

/-- The buffers that lists, live lists, watchers, indexes and handles refer to, one for each object. -/
def references (w : Workspace) : List BufferId :=
  w.lists.values.map SelectionList.buffer ++ w.liveLists.values.map LiveList.buffer ++
    w.watchers.values.map LineWatcher.buffer ++ w.indexes.values.map (·.watcher.buffer) ++ w.handles.values

end Workspace

namespace Step

open Workspace WorkspaceM

variable {others : ListenerKey → Prop} {w w' : Workspace} {step : Step}

/-- Where a step may stop: in order if the run goes on, and never for want of a registration. -/
def Stop (others : ListenerKey → Prop) (step : Step) : Failure → Workspace → Prop
  | .error _, w => Orderly others w
  | .fault f, w => (step.survives f = true → Orderly others w) ∧ (step.binds = true → f ≠ .unregistered)

/-- **Every step keeps the invariant**, and finds the registrations that it releases. -/
theorem ends (h : Orderly others w) (hproper : step.proper w = true)
    (hothers : step.records = true → ∃ key, others key) :
    Ends step.act w (fun _ => Orderly others) (step.Stop others) := by
  have hstop {s : Step} (hs : s.binds = false) (f : Failure) (w' : Workspace) (h' : Orderly others w') :
      s.Stop others f w' := by
    cases f with
    | error e => exact h'
    | fault f => exact ⟨fun _ => h', fun hb => absurd (hs.symm.trans hb) Bool.false_ne_true⟩
  have hbound {s : Step} (hs : ∀ f, s.survives f = false) (f : Fault) (w' : Workspace)
      (hf : f ≠ .unregistered) : s.Stop others (.fault f) w' :=
    ⟨fun hgoes => absurd ((hs f).symm.trans hgoes) Bool.false_ne_true, fun _ => hf⟩
  cases step with
  | openBuffer name text options => exact (ends_openBuffer (hstop rfl) h).discard
  | closeBuffer name => exact (ends_closeBuffer (hstop rfl) h).discard
  | edit name command =>
    exact ends_editHolding (hstop rfl) h fun d => (Draft.Extends.invariant d).act command
  | trackItems name buffer items => exact ends_trackSelections (hbound fun _ => rfl) h
  | trackList name buffer listName => exact ends_trackList (hbound fun _ => rfl) h
  | copyLive name target => exact ends_copyLive (hbound fun _ => rfl) h
  | dropLive name => exact (ends_dropLive h).discard
  | rebindLive name buffer items => exact ends_rebindLive (hbound fun _ => rfl) h
  | resetLive name buffer listName => exact ends_resetLive (hbound fun _ => rfl) h
  | alterLive name f =>
    exact ends_alterLive (hbound fun _ => rfl) h fun s e _ => hstop rfl (.fault e) w h
  | pushLive name buffer s => exact ends_pushLive (hstop rfl) h
  | removeFromLive name i => exact (ends_removeFromLive (hstop rfl) h).discard
  | visitLive name buffer mayQueue callback => exact (ends_visitLive (hstop rfl) h).discard
  | insertHolding name buffer start new => exact (ends_insertHolding (hstop rfl) h).discard
  | snapshotLive name buffer listName => exact (ends_snapshotLive (hstop rfl) h).discard
  | visitList name buffer mayQueue callback => exact (ends_visitList (hstop rfl) h).discard
  | putList name l => exact ends_modify (h.congr rfl h.liveNames rfl rfl rfl)
  | dropList name => exact ends_modify (h.congr rfl h.liveNames rfl rfl rfl)
  | putWatcher name watcher => exact ends_modify (h.congr rfl h.liveNames rfl rfl rfl)
  | dropWatcher name => exact ends_modify (h.congr rfl h.liveNames rfl rfl rfl)
  | putIndex name index => exact ends_modify (h.congr rfl h.liveNames rfl rfl rfl)
  | dropIndex name => exact ends_modify (h.congr rfl h.liveNames rfl rfl rfl)
  | putHandle name id => exact ends_modify (h.congr rfl h.liveNames rfl rfl rfl)
  | dropHandle name => exact ends_modify (h.congr rfl h.liveNames rfl rfl rfl)
  | record name buffer => exact ends_record (hstop rfl) h (hothers rfl)
  | unrecord name buffer i =>
    refine (ends_unrecord (hstop rfl) h ?_).discard
    intro recorder host id hrecorder hhost hid e he hsame
    simp only [proper, hrecorder, hhost] at hproper
    have hentry := List.all_eq_true.1 hproper e he
    rw [hid, hsame] at hentry
    simpa using hentry
  | takeSeen name => exact (ends_takeSeen (hstop rfl) h).discard
  | dropRecorder name =>
    have hsub : (w.recorders.drop name).values.Sublist w.recorders.values := List.filter_sublist.map _
    exact ends_modify ⟨h.linked, h.hostNames, h.liveNames, h.hostIds, h.liveBuffers, h.liveKeys,
      h.entryKeys, fun r hr => h.recorderKeys r (hsub.subset hr),
      fun r hr => h.recorderOthers r (hsub.subset hr), h.laterOthers⟩

end Step

namespace Workspace

variable {others : ListenerKey → Prop} {w w' : Workspace} {step : Step} {steps : List Step}

theorem orderly_empty (journal : Journal) (hothers : (∃ key, others key) → ∀ key, others key) :
    Orderly others { journal } := by
  have hnone {α : Type} {P : α → Prop} : ∀ a ∈ ([] : List α), P a := fun a ha => by cases ha
  exact ⟨.nil, .nil, .nil, hnone, hnone, hnone, hnone, hnone, hnone, fun hex key _ => hothers hex key⟩

/-- **A step from an orderly workspace** leads to one. -/
theorem orderly_perform (h : Orderly others w) (hothers : step.records = true → ∃ key, others key)
    (hp : w.perform step = some w') : Orderly others w' := by
  unfold perform at hp
  by_cases hproper : step.proper w = true
  swap
  · rw [if_neg hproper] at hp
    cases hp
  rw [if_pos hproper] at hp
  have hends := step.ends h hproper hothers
  cases hr : step.act.resume w with
  | mk r w'' =>
    rw [hr] at hp
    cases r with
    | ok a =>
      cases hp
      exact hends.ok hr
    | error failure =>
      have hstop := hends.stop hr
      cases failure with
      | error e =>
        cases hp
        exact hstop
      | fault f =>
        by_cases hgoes : step.survives f = true
        · simp only [hgoes, if_true] at hp
          cases hp
          exact hstop.1 hgoes
        · simp only [hgoes] at hp
          cases hp

/-- **A run from an orderly workspace** leads to one. -/
theorem orderly_run (h : Orderly others w)
    (hothers : ∀ step ∈ steps, step.records = true → ∃ key, others key)
    (hr : w.run steps = some w') : Orderly others w' := by
  induction steps generalizing w with
  | nil =>
    cases hr
    exact h
  | cons step steps ih =>
    unfold run at hr ih
    rw [List.foldlM_cons, Option.bind_eq_bind, Option.bind_eq_some_iff] at hr
    obtain ⟨w₁, hp, hr⟩ := hr
    have h₁ := orderly_perform h (hothers step List.mem_cons_self) hp
    exact ih h₁ (fun s hs => hothers s (List.mem_cons_of_mem _ hs)) hr

/-- **Registrations, counts and handles in step.** -/
structure Balanced (w : Workspace) : Prop where
  /-- A live list whose buffer exists has one entry there, with the number that it keeps. -/
  once : ∀ l ∈ w.liveLists.values, ∀ host ∈ w.hosts.values, host.buffer.id = l.buffer →
    ∃ id, l.registration = some id ∧ host.entriesOf l.key = [⟨id, l.key⟩]
  /-- It has none on any other buffer. -/
  nowhereElse : ∀ l ∈ w.liveLists.values, ∀ host ∈ w.hosts.values, host.buffer.id ≠ l.buffer →
    host.entriesOf l.key = []
  /-- No two live lists are the same listener, and no two buffers have the same number. -/
  keys : (w.liveLists.values.map LiveList.key).Nodup
  ids : (w.hosts.values.map (·.buffer.id)).Nodup
  /-- The registrations that were not released are those of the live lists that are bound to the
  buffer, and of listeners that are no live lists. -/
  active : ∀ host ∈ w.hosts.values, host.registry.active =
    .ok (w.liveLists.values.countP (·.buffer == host.buffer.id) +
      (host.registry.entries.filter fun e => w.liveLists.values.all (·.key != e.listener)).length)
  /-- The handles of a buffer are the objects that refer to it. -/
  handles : ∀ id, w.handleCount id = w.references.count id
  /-- No registration that is to be released is missing. -/
  found : ∀ step : Step, step.binds = true → ∀ f w', step.act.resume w = (.error (.fault f), w') →
    f ≠ .unregistered

theorem handleCount_eq (w : Workspace) (id : BufferId) : w.handleCount id = w.references.count id := by
  unfold handleCount references List.count
  simp only [List.countP_append, List.countP_map]
  rfl

theorem balanced_of_orderly (h : Orderly others w) (hothers : ∃ key, others key) : w.Balanced := by
  refine ⟨fun l hl host hhost => (h.linked.linked l hl host hhost).bound,
    fun l hl host hhost => (h.linked.linked l hl host hhost).unbound, h.linked.keys, h.linked.ids,
    fun host hhost => ?_, w.handleCount_eq, fun step hbinds f w' hr => ?_⟩
  · rw [(h.linked.sound host hhost).active_eq, h.linked.length_entries hhost]
  · have hproper : step.proper w = true := by
      cases step with
      | unrecord => cases hbinds
      | _ => rfl
    have hstop := (step.ends h hproper fun _ => hothers).stop hr
    exact hstop.2 hbinds

/-- Without live lists and other listeners everything was released. -/
theorem released_of_orderly (h : Orderly (fun _ => False) w) (hlives : w.liveLists = []) :
    ∀ host ∈ w.hosts.values, host.registry.registered = host.registry.unregistered := by
  intro host hhost
  have hnone : host.registry.entries = [] := by
    refine List.eq_nil_iff_forall_not_mem.2 fun e he => ?_
    rcases h.linked.owned host hhost e he with ⟨l, hl, -⟩ | hfalse
    · rw [hlives] at hl
      cases hl
    · exact hfalse
  have hcounted := (h.linked.sound host hhost).counted
  rw [hnone] at hcounted
  exact hcounted

/-- A live list is not one of the others. -/
theorem orderly_apart {l : LiveList} (h : Orderly (fun _ => True) w) (hl : l ∈ w.liveLists.values) :
    Orderly (· ≠ l.key) w := by
  have hlinked : Linked (· ≠ l.key) w.hosts.values w.liveLists.values := by
    refine ⟨h.linked.sound, h.linked.linked, fun host hhost e he => ?_, h.linked.ids, h.linked.keys⟩
    by_cases hkey : l.key = e.listener
    · exact .inl ⟨l, hl, hkey⟩
    · exact .inr (Ne.symm hkey)
  exact ⟨hlinked, h.hostNames, h.liveNames, h.hostIds, h.liveBuffers, h.liveKeys, h.entryKeys,
    h.recorderKeys, fun r hr => ((h.recorderKeys r hr).2 l hl).symm,
    fun _ key hle => ((h.liveKeys l hl).trans_le hle).ne'⟩

/-- **Nothing is left of a live list that is gone**: no registry has an entry of it. -/
theorem unlisted_of_gone {l : LiveList} (h : Orderly (fun _ => True) w) (hl : l ∈ w.liveLists.values)
    (hr : w.run steps = some w') (hgone : ∀ l' ∈ w'.liveLists.values, l'.key ≠ l.key) :
    Unlisted l.key w'.hosts.values := by
  have hothers : ∃ key : ListenerKey, key ≠ l.key := ⟨l.key + 1, Nat.succ_ne_self _⟩
  have h' : Orderly (· ≠ l.key) w' := orderly_run (orderly_apart h hl) (fun _ _ _ => hothers) hr
  intro host hhost
  refine List.filter_eq_nil_iff.2 fun e he hkey => ?_
  rcases h'.linked.owned host hhost e he with ⟨l', hl', hsame⟩ | hother
  · exact hgone l' hl' (hsame.trans (beq_iff_eq.1 hkey))
  · exact hother (beq_iff_eq.1 hkey)

/-- **Live lists are registered once and released once**: at the end of any run registrations, counts
and handles are in step; nothing is left of a live list that goes afterwards; and when no live list is
left and no other listener ever was, every registration was released. -/
theorem run_balanced (journal : Journal) (h : run { journal } steps = some w) :
    w.Balanced ∧
    (∀ l ∈ w.liveLists.values, ∀ later w', w.run later = some w' →
      (∀ l' ∈ w'.liveLists.values, l'.key ≠ l.key) → ∀ host ∈ w'.hosts.values, host.entriesOf l.key = []) ∧
    (w.liveLists = [] → (∀ step ∈ steps, step.records = false) →
      ∀ host ∈ w.hosts.values, host.registry.registered = host.registry.unregistered) := by
  have horderly : Orderly (fun _ => True) w :=
    orderly_run (orderly_empty journal fun _ _ => trivial) (fun _ _ _ => ⟨0, trivial⟩) h
  refine ⟨balanced_of_orderly horderly ⟨0, trivial⟩, fun l hl later w' hr hgone => ?_,
    fun hlives hrecords => ?_⟩
  · exact unlisted_of_gone horderly hl hr hgone
  · have hothers : ∀ step ∈ steps, step.records = true → ∃ key : ListenerKey, False := by
      intro step hstep htrue
      rw [hrecords step hstep] at htrue
      cases htrue
    exact released_of_orderly (orderly_run (orderly_empty journal fun ⟨_, h⟩ => h.elim) hothers h) hlives

/-- A list on one buffer and a copy of it on another; an edit; one buffer goes before its list. -/
def sampleSteps : List Step :=
  [.openBuffer "a" ['x'] {}, .openBuffer "b" ['y'] {}, .trackItems "d" "a" [.point 0],
    .copyLive "d" "e", .rebindLive "e" "b" [.point 0], .edit "a" (.insert 0 ['z']), .closeBuffer "a",
    .copyLive "d" "f", .dropLive "d", .dropLive "e", .dropLive "f"]

theorem run_balanced_sample : ∃ w, run {} sampleSteps = some w ∧ w.Balanced ∧
    ∀ host ∈ w.hosts.values, host.registry.registered = host.registry.unregistered := by
  have hlists : (run {} sampleSteps).map Workspace.liveLists = some [] := by decide +kernel
  obtain ⟨w, hw, hlives⟩ := Option.map_eq_some_iff.1 hlists
  obtain ⟨hbalanced, -, hreleased⟩ := run_balanced {} hw
  exact ⟨w, hw, hbalanced, hreleased hlives (by decide)⟩

end Workspace

end Caret
