import Caret.Proofs.Continuation
import Caret.Proofs.EditLog
import Caret.Proofs.Reading

/-!
# Selections queued during a visit

Callbacks may queue selections, at any moment between their edits. Such a selection waits as it is until the
visits are over, and is moved then, as a range, across all that was logged in the meantime. This comes to the
same as following its two ends.

* `Script.pushes`, `SelectionList.Tour.handovers`: what a callback queues, and all that a tour hands out.
* `Draft.Queues`: a draft edited further while selections are queued. `Script.queues` for a callback and
  `SelectionList.Tour.exists_toured` for a tour.
* `Pushed.Followed`, `Pushed.of_settle`: what becomes of a queued selection.
* `SelectionList.visitAll_appended`: the list after the visits.
-/

namespace Caret

/-! ## What a callback queues -/

/-- A selection that a callback queues, and the draft at that moment. -/
structure Pushed where
  selection : Selection
  draft : Draft
  deriving Repr, Inhabited

/-- The selection as it waits for the end of the list. -/
def Pushed.queued (p : Pushed) : Queued := ⟨p.selection, p.draft.buffer.timestamp⟩

/-- What comes of the rest of a visit if an edit succeeds, and nothing if it fails. -/
def Visit.gather {α β : Type} (v : Visit) (act : EditM α) (rest : α → Visit → List β) : List β :=
  match act.resume v.draft with
  | (.ok a, draft) => rest a { v with draft }
  | (.error _, _) => []

/-- The selections that a script queues, in order. -/
def Script.pushes : Script → Visit → List Pushed
  | .done, _ => []
  | .fail _, _ => []
  | .look next, v => (next v.draft.buffer v.selection).pushes v
  | .insert start new next, v => v.gather (EditM.insert start new) fun span => (next span).pushes
  | .erase start stop next, v => v.gather (EditM.erase start stop) fun c => (next c).pushes
  | .replace start stop new next, v =>
    v.gather (EditM.replace start stop new) fun span => (next span).pushes
  | .commitGroup next, v => v.gather EditM.commitGroup fun _ => next.pushes
  | .undo next, v => v.gather EditM.undo fun count => (next count).pushes
  | .redo next, v => v.gather EditM.redo fun count => (next count).pushes
  | .setFlags flags next, v => v.gather (EditM.setFlags flags) fun _ => next.pushes
  | .select s next, v => next.pushes { v with selection := s }
  | .queue s next, v =>
    if v.mayQueue then
      ⟨s, v.draft⟩ :: next.pushes { v with queued := v.queued ++ [⟨s, v.draft.buffer.timestamp⟩] }
    else []

/-- What holds of the rest of a visit if an edit succeeds. -/
def Visit.Then {α : Type} (v : Visit) (act : EditM α) (p : α → Visit → Prop) : Prop :=
  ∀ a d, act.resume v.draft = (.ok a, d) → p a { v with draft := d }

/-- Along the steps that it takes a script does not switch whether edits are recorded. -/
def Script.KeepsRecording (noUndo : Bool) : Script → Visit → Prop
  | .done, _ => True
  | .fail _, _ => True
  | .look next, v => (next v.draft.buffer v.selection).KeepsRecording noUndo v
  | .insert start new next, v =>
    v.Then (EditM.insert start new) fun span => (next span).KeepsRecording noUndo
  | .erase start stop next, v =>
    v.Then (EditM.erase start stop) fun c => (next c).KeepsRecording noUndo
  | .replace start stop new next, v =>
    v.Then (EditM.replace start stop new) fun span => (next span).KeepsRecording noUndo
  | .commitGroup next, v => v.Then EditM.commitGroup fun _ => next.KeepsRecording noUndo
  | .undo next, v => v.Then EditM.undo fun count => (next count).KeepsRecording noUndo
  | .redo next, v => v.Then EditM.redo fun count => (next count).KeepsRecording noUndo
  | .setFlags flags next, v => flags.noUndo = noUndo ∧
      v.Then (EditM.setFlags flags) fun _ => next.KeepsRecording noUndo
  | .select s next, v => next.KeepsRecording noUndo { v with selection := s }
  | .queue s next, v =>
    next.KeepsRecording noUndo { v with queued := v.queued ++ [⟨s, v.draft.buffer.timestamp⟩] }

/-- **A draft edited further while selections are queued.** The log tells what was done to the text, from
the beginning and from each moment at which a selection was queued. -/
structure Draft.Queues (origin : Text) (noUndo : Bool) (d : Draft) (queued : List Queued)
    (pushed : List Pushed) (d' : Draft) (queued' : List Queued) : Prop where
  sound : d'.Sound origin noUndo
  logs : ∃ more, d.Logs more d'
  queued : queued' = queued ++ pushed.map Pushed.queued
  since : ∀ p ∈ pushed, p.draft.Sound origin noUndo ∧ ∃ more, p.draft.Logs more d'

namespace Draft.Queues

variable {origin : Text} {noUndo : Bool} {d d₁ d' : Draft} {queued queued₁ queued' : List Queued}
  {pushed pushed' : List Pushed} {more : List Change}

theorem edit (hd : d'.Sound origin noUndo) (hlogs : d.Logs more d') :
    Queues origin noUndo d queued [] d' queued :=
  ⟨hd, ⟨more, hlogs⟩, (List.append_nil _).symm, by simp⟩

theorem refl (hd : d.Sound origin noUndo) : Queues origin noUndo d queued [] d queued := edit hd (.refl d)

theorem push (hd : d.Sound origin noUndo) (s : Selection) :
    Queues origin noUndo d queued [⟨s, d⟩] d (queued ++ [⟨s, d.buffer.timestamp⟩]) :=
  ⟨hd, ⟨[], .refl d⟩, rfl, by simpa using ⟨hd, [], .refl d⟩⟩

theorem trans (h : Queues origin noUndo d queued pushed d₁ queued₁)
    (h' : Queues origin noUndo d₁ queued₁ pushed' d' queued') :
    Queues origin noUndo d queued (pushed ++ pushed') d' queued' := by
  obtain ⟨more, hlogs⟩ := h.logs
  obtain ⟨more', hlogs'⟩ := h'.logs
  refine ⟨h'.sound, ⟨_, hlogs.trans hlogs'⟩, ?_, ?_⟩
  · rw [h'.queued, h.queued, List.map_append, List.append_assoc]
  · refine List.forall_mem_append.2 ⟨fun p hp => ?_, h'.since⟩
    obtain ⟨hsound, since, hsince⟩ := h.since p hp
    exact ⟨hsound, _, hsince.trans hlogs'⟩

end Draft.Queues

section

variable {origin : Text} {noUndo : Bool}

/-- What an edit leaves is sound, also where it is refused. -/
theorem EditM.Keeps.sound_of_resume {α : Type} {act : EditM α} {d d' : Draft} {outcome : Except Failure α}
    (h : Keeps origin noUndo act) (hd : d.Sound origin noUndo) (hr : act.resume d = (outcome, d'))
    (hok : ∀ f, outcome ≠ .error (.fault f)) : d'.Sound origin noUndo := by
  rcases h d hd with ⟨d₁, hd₁, ⟨a, ha⟩ | ⟨e, he⟩⟩ | ⟨d₁, hf⟩
  · cases hr.symm.trans ha
    exact hd₁
  · cases hr.symm.trans he
    exact hd₁
  · cases hr.symm.trans hf
    exact absurd rfl (hok .tooLarge)

namespace Script

/-- What comes of a script, unless it breaks a contract, is the draft edited further and the selections
queued. -/
def Minds (origin : Text) (noUndo : Bool) (script : Script) : Prop :=
  ∀ v outcome v', script.KeepsRecording noUndo v → v.draft.Sound origin noUndo →
    script.run v = (outcome, v') → (∀ f, outcome ≠ .error (.fault f)) →
    Draft.Queues origin noUndo v.draft v.queued (script.pushes v) v'.draft v'.queued

variable {v v' : Visit} {outcome : Except Failure Unit}

/-- An edit and the rest of the visit. -/
theorem queues_edit {α : Type} {act : EditM α} {next : α → Script}
    (hnext : ∀ a, (next a).Minds origin noUndo) (hkeeps : EditM.Keeps origin noUndo act)
    (htells : act.Tells v.draft) (hrecording : v.Then act fun a => (next a).KeepsRecording noUndo)
    (hd : v.draft.Sound origin noUndo) (hrun : v.edit act (fun a => (next a).run) = (outcome, v'))
    (hok : ∀ f, outcome ≠ .error (.fault f)) :
    Draft.Queues origin noUndo v.draft v.queued (v.gather act fun a => (next a).pushes) v'.draft v'.queued := by
  cases hact : act.resume v.draft with
  | mk r d =>
    have hresume : StateT.run (ExceptT.run act) v.draft = (r, d) := hact
    unfold Visit.edit at hrun
    unfold Visit.gather
    rw [hresume] at hrun
    rw [hact]
    cases r with
    | error e =>
      cases hrun
      have hfault : ∀ f, (.error e : Except Failure α) ≠ .error (.fault f) :=
        fun f hf => hok f (by cases hf; rfl)
      obtain ⟨more, hlogs⟩ := htells _ _ hact hfault
      exact .edit (hkeeps.sound_of_resume hd hact hfault) hlogs
    | ok a =>
      obtain ⟨more, hlogs⟩ := htells _ _ hact (by simp)
      have hd₁ : d.Sound origin noUndo := hkeeps.sound hd hact
      exact (Draft.Queues.edit hd₁ hlogs).trans
        (hnext a { v with draft := d } outcome v' (hrecording a d hact) hd₁ hrun hok)

/-- **What comes of a callback.** -/
theorem queues (script : Script) : script.Minds origin noUndo := by
  induction script with
  | done =>
    intro v outcome v' _ hd hrun _
    cases hrun
    exact .refl hd
  | fail f =>
    intro v outcome v' _ hd hrun _
    cases hrun
    exact .refl hd
  | look next ih => exact fun v => ih v.draft.buffer v.selection v
  | insert start new next ih =>
    intro v outcome v' hrecording hd
    exact queues_edit ih (EditM.keeps_insert start new) (EditM.tells_insert hd.chronicle.size_lt start new)
      hrecording hd
  | erase start stop next ih =>
    intro v outcome v' hrecording hd
    exact queues_edit ih (EditM.keeps_erase start stop) (EditM.tells_erase hd.chronicle.size_lt start stop)
      hrecording hd
  | replace start stop new next ih =>
    intro v outcome v' hrecording hd
    exact queues_edit ih (EditM.keeps_replace start stop new)
      (EditM.tells_replace hd.chronicle.size_lt start stop new) hrecording hd
  | commitGroup next ih =>
    intro v outcome v' hrecording hd
    exact queues_edit (fun _ => ih) EditM.keeps_commitGroup
      (.of_resume rfl ⟨(Draft.Logs.refl _).logged, rfl⟩) hrecording hd
  | undo next ih =>
    intro v outcome v' hrecording hd
    exact queues_edit ih EditM.keeps_undo (EditM.tells_undo hd.chronicle.size_lt hd.history) hrecording hd
  | redo next ih =>
    intro v outcome v' hrecording hd
    exact queues_edit ih EditM.keeps_redo (EditM.tells_redo hd.chronicle.size_lt hd.history) hrecording hd
  | setFlags flags next ih =>
    intro v outcome v' hrecording hd
    exact queues_edit (fun _ => ih) (EditM.keeps_setFlags hrecording.1)
      (.of_resume rfl ⟨(Draft.Logs.refl _).logged, rfl⟩) hrecording.2 hd
  | select s next ih => exact fun v => ih { v with selection := s }
  | queue s next ih =>
    intro v outcome v' hrecording hd hrun hok
    unfold run at hrun
    unfold pushes
    split at hrun
    · rename_i hmay
      rw [if_pos hmay]
      exact (Draft.Queues.push hd s).trans (ih _ outcome v' hrecording hd hrun hok)
    · cases hrun
      exact absurd rfl (hok .notAppendable)

end Script

/-! ## What becomes of it -/

namespace Pushed

/-- **A queued selection followed to a later moment.** If it was at positions of the text, it is so again,
and its ends are where its two ends come to as points. -/
def Followed (p : Pushed) (b : Buffer) (s : Selection) : Prop :=
  p.draft.buffer.log <+: b.log ∧ (p.selection.ValidIn p.draft.buffer.text →
    s.ValidIn b.text ∧ s = p.selection.withEnds s.low s.high ∧
      sweepLog (b.log.drop p.draft.buffer.timestamp) [p.selection.low, p.selection.high] =
        .ok [s.low, s.high])

variable {p : Pushed} {d' : Draft} {more : List Change} {items : List Selection}

/-- **Settling a queued selection** leaves one, which was followed. -/
theorem of_settle (hd : p.draft.Sound origin noUndo) (hlogs : p.draft.Logs more d')
    (hsettle : SelectionList.settle d'.buffer p.queued = .ok items) :
    ∃ s, items = [s] ∧ p.Followed d'.buffer s := by
  have hlog : d'.buffer.logSince p.queued.timestamp = .ok more := by
    rw [← hlogs.drop_timestamp]
    exact Buffer.logSince_eq hlogs.timestamp_le
  unfold SelectionList.settle at hsettle
  rw [hlog, Fault.ok_bind, Fault.bind_eq_ok] at hsettle
  obtain ⟨moved, hmoved, hsettle⟩ := hsettle
  obtain ⟨m, rfl⟩ := List.length_eq_one_iff.1 (length_sweepLog hmoved)
  cases hsettle
  refine ⟨m.clamp d'.buffer.text, rfl, ⟨more, hlogs.logged.symm⟩, fun hvalid => ?_⟩
  have hsize := hd.chronicle.size_lt
  obtain ⟨image, hmove, -⟩ := exists_moveBy hlogs.trail hsize
  have hle : p.selection.low ≤ p.selection.high := p.selection.low_le_high
  -- as a range
  have hrange : Tracked.InOrder p.draft.buffer.text [p.selection] :=
    .cons hvalid.low hvalid.high hle (by simp [Tracked.ends]) (.nil _)
  obtain rfl : Tracked.mapEnds image p.selection = m := by
    have hswept := (hmove.foldlM_sweep hrange).symm.trans hmoved
    exact List.singleton_inj.1 (Except.ok.inj hswept)
  have hlow : (Tracked.mapEnds image p.selection).low = image p.selection.low :=
    Selection.withEnds_low _ (hmove.image.mono hle)
  have hhigh : (Tracked.mapEnds image p.selection).high = image p.selection.high :=
    Selection.withEnds_high _ (hmove.image.mono hle)
  have hends : (Tracked.mapEnds image p.selection).ValidIn d'.buffer.text :=
    Selection.validIn_withEnds (hmove.image.valid hvalid.low) (hmove.image.valid hvalid.high)
  -- as two points
  have hpoints : Tracked.InOrder p.draft.buffer.text [p.selection.low, p.selection.high] :=
    .cons hvalid.low hvalid.low le_rfl (by simpa [Tracked.ends, Tracked.first, Tracked.last] using hle)
      (.cons hvalid.high hvalid.high le_rfl (by simp [Tracked.ends]) (.nil _))
  rw [Selection.clamp_of_validIn hends, hlow, hhigh, hlogs.drop_timestamp]
  exact ⟨hends, rfl, hmove.foldlM_sweep hpoints⟩

/-- All that was queued, settled in its order. -/
theorem forall₂_of_settle {pushed : List Pushed} {lists : List (List Selection)}
    (hsince : ∀ p ∈ pushed, p.draft.Sound origin noUndo ∧ ∃ more, p.draft.Logs more d')
    (hsettle : (pushed.map queued).mapM (SelectionList.settle d'.buffer) = .ok lists) :
    List.Forall₂ (fun p s => p.Followed d'.buffer s) pushed lists.flatten := by
  induction pushed generalizing lists with
  | nil =>
    cases hsettle
    exact .nil
  | cons p pushed ih =>
    obtain ⟨⟨hd, more, hlogs⟩, hsince⟩ := List.forall_mem_cons.1 hsince
    rw [List.map_cons, List.mapM_cons, Fault.bind_eq_ok] at hsettle
    obtain ⟨items, hitems, hsettle⟩ := hsettle
    rw [Fault.bind_eq_ok] at hsettle
    obtain ⟨rest, hrest, hsettle⟩ := hsettle
    cases hsettle
    obtain ⟨s, rfl, hfollowed⟩ := of_settle hd hlogs hitems
    exact .cons hfollowed (ih hsince hrest)

end Pushed

/-! ## What a tour hands out -/

/-- A selection handed to a callback: what the callback does, and what it works on. -/
structure Handover where
  script : Script
  visit : Visit

namespace Handover

/-- The selection as the callback leaves it. -/
def left (x : Handover) : Selection := (x.script.run x.visit).2.selection

/-- The selections that the callback queues. -/
def pushes (x : Handover) : List Pushed := x.script.pushes x.visit

/-- The callback does not switch whether edits are recorded. -/
def KeepsRecording (noUndo : Bool) (x : Handover) : Prop := x.script.KeepsRecording noUndo x.visit

end Handover

namespace SelectionList

namespace Tour

/-- What is handed out for one selection, unless an earlier visit was refused. -/
def handover (callback : ℕ → Script) (T : Tour) (s : Selection) : Option Handover :=
  match T.arrive s with
  | .ok s' =>
    if T.refusal.isSome then none
    else some ⟨callback T.finished.length, T.draft, s', T.mayQueue, T.queued⟩
  | .error _ => none

/-- All that is handed out, in order. -/
def handovers (callback : ℕ → Script) : List Selection → Tour → List Handover
  | [], _ => []
  | s :: rest, T => (T.handover callback s).toList ++
    match T.visit callback s with
    | (.ok (), T') => handovers callback rest T'
    | (.error _, _) => []

variable {T T' : Tour} {callback : ℕ → Script} {s : Selection} {rest items : List Selection}

theorem exists_of_visitAll_cons (h : visitAll callback (s :: rest) T = (.ok (), T')) :
    ∃ T₁, T.visit callback s = (.ok (), T₁) ∧ visitAll callback rest T₁ = (.ok (), T') ∧
      handovers callback (s :: rest) T = (T.handover callback s).toList ++ handovers callback rest T₁ := by
  unfold visitAll at h
  rw [handovers]
  cases hvisit : T.visit callback s with
  | mk r T₁ =>
    rw [hvisit] at h
    cases r with
    | error f => cases h
    | ok _ => exact ⟨T₁, rfl, h, rfl⟩

/-- After a refusal nothing is handed out. -/
theorem visitAll_of_refused (hrefusal : T.refusal ≠ none) (h : visitAll callback items T = (.ok (), T')) :
    handovers callback items T = [] ∧
      ∃ moved, moved.length = items.length ∧ T' = { T with finished := T.finished ++ moved } := by
  induction items generalizing T with
  | nil =>
    cases h
    exact ⟨rfl, [], rfl, by rw [List.append_nil]⟩
  | cons s rest ih =>
    obtain ⟨T₁, hvisit, hrest, hhandovers⟩ := exists_of_visitAll_cons h
    obtain ⟨s', harrive, ⟨-, rfl⟩ | ⟨hnone, -⟩⟩ := visit_cases hvisit
    · obtain ⟨hnothing, moved, hlength, rfl⟩ := ih (T := { T with finished := T.finished ++ [s'] }) hrefusal hrest
      have hthis : T.handover callback s = none := by
        unfold handover
        rw [harrive]
        exact if_pos (Option.isSome_iff_ne_none.2 hrefusal)
      refine ⟨by rw [hhandovers, hthis, hnothing]; rfl, s' :: moved, by rw [List.length_cons, hlength]; rfl, ?_⟩
      rw [List.append_assoc]
      rfl
    · exact absurd hnone hrefusal

/-- **What comes of a tour**: what the callbacks do in turn, and then the selections that are not handed
out any more. -/
structure Toured (origin : Text) (noUndo : Bool) (T : Tour) (handovers : List Handover)
    (moved : List Selection) (T' : Tour) : Prop where
  queues : Draft.Queues origin noUndo T.draft T.queued (handovers.flatMap Handover.pushes) T'.draft T'.queued
  handed : T'.handed = T.handed ++ handovers.map (·.visit.selection)
  finished : T'.finished = T.finished ++ (handovers.map Handover.left ++ moved)
  refused : T'.refusal = none → moved = []

theorem Toured.trans {T₁ : Tour} {before after : List Handover} {moved : List Selection}
    (h : Toured origin noUndo T before [] T₁) (h' : Toured origin noUndo T₁ after moved T') :
    Toured origin noUndo T (before ++ after) moved T' := by
  refine ⟨?_, ?_, ?_, h'.refused⟩
  · rw [List.flatMap_append]
    exact h.queues.trans h'.queues
  · rw [h'.handed, h.handed, List.map_append, List.append_assoc]
  · rw [h'.finished, h.finished, List.append_nil, List.map_append, List.append_assoc, List.append_assoc]

/-- **One visit**, when none was refused before. -/
theorem exists_toured_visit (hvisit : T.visit callback s = (.ok (), T')) (hrefusal : T.refusal = none)
    (hd : T.draft.Sound origin noUndo)
    (hrecording : ∀ x ∈ (T.handover callback s).toList, x.KeepsRecording noUndo) :
    ∃ x, T.handover callback s = some x ∧ Toured origin noUndo T [x] [] T' := by
  obtain ⟨s', harrive, ⟨hrefused, -⟩ |
    ⟨-, outcome, v, tracker, refusal, hrun, hok, -, -, rfl⟩⟩ := visit_cases hvisit
  · exact absurd hrefusal hrefused
  have hthis : T.handover callback s =
      some ⟨callback T.finished.length, T.draft, s', T.mayQueue, T.queued⟩ := by
    unfold handover
    rw [harrive]
    exact if_neg (by simp [hrefusal])
  rw [hthis] at hrecording
  have hqueues := (callback T.finished.length).queues _ _ _ (hrecording _ (List.mem_singleton_self _)) hd hrun hok
  have hleft : (⟨callback T.finished.length, T.draft, s', T.mayQueue, T.queued⟩ : Handover).left = v.selection := by
    unfold Handover.left
    rw [hrun]
  refine ⟨_, hthis, ?_, rfl, ?_, fun _ => rfl⟩
  · rw [List.flatMap_singleton]
    exact hqueues
  · rw [List.map_singleton, hleft, List.append_nil]

/-- **The tour of a list.** -/
theorem exists_toured (h : visitAll callback items T = (.ok (), T')) (hd : T.draft.Sound origin noUndo)
    (hrecording : ∀ x ∈ handovers callback items T, x.KeepsRecording noUndo) :
    ∃ moved, (handovers callback items T).length + moved.length = items.length ∧
      Toured origin noUndo T (handovers callback items T) moved T' := by
  induction items generalizing T with
  | nil =>
    cases h
    exact ⟨[], rfl, .refl hd, (List.append_nil _).symm, (List.append_nil _).symm, fun _ => rfl⟩
  | cons s rest ih =>
    by_cases hrefusal : T.refusal = none
    · obtain ⟨T₁, hvisit, hrest, hhandovers⟩ := exists_of_visitAll_cons h
      rw [hhandovers] at hrecording ⊢
      obtain ⟨hfirst, hrecording⟩ := List.forall_mem_append.1 hrecording
      obtain ⟨x, hx, htoured₁⟩ := exists_toured_visit hvisit hrefusal hd hfirst
      obtain ⟨moved, hlength, htoured⟩ := ih hrest htoured₁.queues.sound hrecording
      rw [hx]
      exact ⟨moved, by rw [List.length_cons, ← hlength]; simp; omega, htoured₁.trans htoured⟩
    · obtain ⟨hnothing, moved, hlength, rfl⟩ := visitAll_of_refused hrefusal h
      rw [hnothing]
      exact ⟨moved, (Nat.zero_add _).trans hlength, .refl hd, (List.append_nil _).symm, rfl,
        fun hnone => absurd hnone hrefusal⟩

/-- Only callbacks are run. -/
theorem exists_of_mem_handovers {x : Handover} (h : x ∈ handovers callback items T) :
    ∃ i, x.script = callback i := by
  induction items generalizing T with
  | nil => cases h
  | cons s rest ih =>
    unfold handovers at h
    rcases List.mem_append.1 h with h | h
    · unfold handover at h
      split at h
      · split at h
        · cases h
        · exact ⟨_, congrArg Handover.script (List.mem_singleton.1 h)⟩
      · cases h
    · split at h
      · exact ih h
      · cases h

end Tour

/-- All that the visit of a list hands out. -/
def handovers (l : SelectionList) (callback : ℕ → Script) (d : Draft) : List Handover :=
  Tour.handovers callback l.group.items
    { draft := d, tracker := .start, timestamp := d.buffer.timestamp, mayQueue := true }

/-- **Queued selections are followed to the end.** Once a list was visited, also if a callback refused to go
on, it holds what the callbacks left of the selections handed to them, then those that were not handed out
any more, and then the queued selections in the order in which they were queued. A queued selection that was
at positions of the text is so in the present text, and it extends from where its first end has come to as a
point to where its last one has. -/
theorem visitAll_appended {d d' : Draft} {l : SelectionList} {callback : ℕ → Script} {v : Visited}
    (h : Reached origin d) (hbuffer : l.buffer = d.buffer.id) (htime : l.timestamp = d.buffer.timestamp)
    (hrecording : ∀ x ∈ l.handovers callback d, x.KeepsRecording d.buffer.options.flags.noUndo)
    (hr : (l.visitAll true callback).resume d = (.ok v, d')) :
    ∃ moved appended,
      v.list.group.items = (l.handovers callback d).map Handover.left ++ moved ++ appended ∧
      (l.handovers callback d).length + moved.length = l.group.items.length ∧
      (v.refusal = none → moved = []) ∧
      v.handed = (l.handovers callback d).map (·.visit.selection) ∧
      List.Forall₂ (fun p s => p.Followed d'.buffer s) ((l.handovers callback d).flatMap Handover.pushes)
        appended := by
  have hupdate : l.updateMerging d.buffer = .ok l := update_of_current hbuffer htime true
  obtain ⟨T, lists, htour, hsettle, rfl, rfl⟩ := (resume_visitAll_eq_ok_iff hupdate).1 hr
  obtain ⟨moved, hlength, htoured⟩ := Tour.exists_toured htour h.sound hrecording
  have hqueued : T.queued = ((l.handovers callback d).flatMap Handover.pushes).map Pushed.queued :=
    htoured.queues.queued
  rw [hqueued] at hsettle
  refine ⟨moved, lists.flatten, ?_, hlength, htoured.refused, htoured.handed,
    Pushed.forall₂_of_settle htoured.queues.since hsettle⟩
  show T.finished ++ lists.flatten = _
  rw [htoured.finished]
  rfl

/-- A callback that queues a selection before it edits and one between its edits, and one that refuses. -/
def queuing : ℕ → Script
  | 0 => .queue ⟨⟨0, 1⟩, ⟨0, 0⟩, none, []⟩ (.insert ⟨0, 0⟩ ['x'] fun _ =>
      .queue (.point ⟨0, 1⟩) (.erase ⟨0, 2⟩ ⟨0, 3⟩ fun _ => .done))
  | _ => .fail (.error (.invalidSelection "enough"))

theorem queuing_keepsRecording (i : ℕ) (v : Visit) : (queuing i).KeepsRecording false v := by
  match i with
  | 0 => simp [queuing, Script.KeepsRecording, Visit.Then]
  | i + 1 => trivial

/-- The list that is visited, and its buffer. -/
def sampleQueue : SelectionList × Draft :=
  (⟨⟨[.point ⟨0, 0⟩, .point ⟨1, 0⟩], 0⟩, 0, 0⟩, { buffer := Buffer.ofText 0 ['a', 'b', '\n', 'c'] {} })

theorem visitAll_appended_sample : ∃ v d' pushed,
    (sampleQueue.1.visitAll true queuing).resume sampleQueue.2 = (.ok v, d') ∧
    d'.buffer.text = ['x', 'a', '\n', 'c'] ∧ v.refusal = some (.invalidSelection "enough") ∧
    v.list.group.items =
      [.point ⟨0, 0⟩, .point ⟨1, 0⟩, ⟨⟨0, 2⟩, ⟨0, 1⟩, none, []⟩, .point ⟨0, 1⟩] ∧
    pushed.map (fun p : Pushed => (p.selection, p.draft.buffer.text)) =
      [(⟨⟨0, 1⟩, ⟨0, 0⟩, none, []⟩, ['a', 'b', '\n', 'c']), (.point ⟨0, 1⟩, ['x', 'a', 'b', '\n', 'c'])] ∧
    List.Forall₂ (fun p s => p.Followed d'.buffer s) pushed [⟨⟨0, 2⟩, ⟨0, 1⟩, none, []⟩, .point ⟨0, 1⟩] := by
  have heval : ((sampleQueue.1.visitAll true queuing).resume sampleQueue.2).map
      (fun outcome => outcome.toOption.map fun v => (v.refusal, v.list.group.items)) (·.buffer.text) =
        (some (some (.invalidSelection "enough"),
          [.point ⟨0, 0⟩, .point ⟨1, 0⟩, ⟨⟨0, 2⟩, ⟨0, 1⟩, none, []⟩, .point ⟨0, 1⟩]),
          ['x', 'a', '\n', 'c']) := by decide +kernel
  cases hr : (sampleQueue.1.visitAll true queuing).resume sampleQueue.2 with
  | mk outcome d' =>
    rw [hr] at heval
    obtain ⟨hv, htext⟩ := Prod.mk.inj heval
    obtain ⟨v, hok, hv⟩ := Option.map_eq_some_iff.1 hv
    obtain ⟨hrefusal, hitems⟩ := Prod.mk.inj hv
    obtain rfl := Fault.toOption_eq_some.1 hok
    have hreached : Reached ['a', 'b', '\n', 'c'] sampleQueue.2 := ⟨0, {}, [], by decide, by simp, rfl⟩
    obtain ⟨moved, appended, hlist, hlength, -, -, hfollowed⟩ := visitAll_appended hreached rfl rfl
      (fun x hx => by
        obtain ⟨i, hi⟩ := Tour.exists_of_mem_handovers hx
        unfold Handover.KeepsRecording
        rw [hi]
        exact queuing_keepsRecording i x.visit) hr
    have hleft : (sampleQueue.1.handovers queuing sampleQueue.2).map Handover.left =
        [.point ⟨0, 0⟩, .point ⟨1, 0⟩] := by decide +kernel
    have hmoved : moved = [] := by
      have htwo := congrArg List.length hleft
      rw [List.length_map] at htwo
      rw [htwo] at hlength
      exact List.length_eq_zero_iff.1 (Nat.add_left_cancel (hlength : 2 + moved.length = 2 + 0))
    rw [hitems, hleft, hmoved] at hlist
    obtain ⟨-, hlist⟩ := List.cons.inj hlist
    obtain ⟨-, rfl⟩ := List.cons.inj hlist
    exact ⟨v, d', _, rfl, htext, hrefusal, hitems, by decide +kernel, hfollowed⟩

end SelectionList

end

end Caret
