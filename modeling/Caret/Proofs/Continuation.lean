import Caret.Proofs.Run
import Caret.Selection.Visit

/-!
# Runs that go on

Editing only ever adds to the past of a buffer. What was logged stays logged, so that a moment of a
run looks the same from any later one.

* `Draft.Bisimulation`: relations of drafts of the same buffer, which come to the same by every edit, with
  one lemma for each computation.
* `Draft.Invariant`: properties of drafts that depend on the text and its past alone, and that every
  edit keeps, visits of whole lists included.
* `Draft.Extends`: a draft that has gone through all that another one has, which is such a property.
* `Reached.run`: a run that goes on is a run.
* `Reached.textAt_eq`: the texts of a run seen from a later moment.
-/

namespace Caret

/-- A draft of the same buffer that has gone through all that `d` has, and maybe more. -/
structure Draft.Extends (d d' : Draft) : Prop where
  id : d'.buffer.id = d.buffer.id
  log : d.buffer.log <+: d'.buffer.log
  revisions : d.revisions <+: d'.revisions

namespace Draft.Extends

variable {d d' d'' : Draft}

theorem refl (d : Draft) : d.Extends d := ⟨rfl, List.prefix_rfl, List.prefix_rfl⟩

theorem trans (h : d.Extends d') (h' : d'.Extends d'') : d.Extends d'' :=
  ⟨h'.id.trans h.id, h.log.trans h'.log, h.revisions.trans h'.revisions⟩

theorem timestamp_le (h : d.Extends d') : d.buffer.timestamp ≤ d'.buffer.timestamp :=
  h.log.length_le

end Draft.Extends

/-- **A property of drafts that edits keep**: it does not depend on history and options, and holds
on when a text is put in or taken out and the change is logged. -/
structure Draft.Invariant (I : Draft → Prop) : Prop where
  adjust : ∀ d (b : Buffer), I d → b.id = d.buffer.id → b.text = d.buffer.text →
    b.log = d.buffer.log → I { d with buffer := b }
  insertAt : ∀ d (change : Change) n new text, I d → d.buffer.text.insertAt n new = .ok text →
    I (d.advance text change)
  removeRange : ∀ d (change : Change) low high text, I d →
    d.buffer.text.removeRange low high = .ok text → I (d.advance text change)

/-- Going on from a draft is such a property. -/
theorem Draft.Extends.invariant (d₀ : Draft) : Draft.Invariant d₀.Extends where
  adjust _ _ h hid _ hlog := ⟨hid.trans h.id, hlog ▸ h.log, h.revisions⟩
  insertAt _ _ _ _ _ h _ := h.trans ⟨rfl, List.prefix_append _ _, List.prefix_append _ _⟩
  removeRange _ _ _ _ _ h _ := h.trans ⟨rfl, List.prefix_append _ _, List.prefix_append _ _⟩

/-- **A relation of drafts that edits keep**: drafts of the same buffer, and still so when both take the
same step. -/
structure Draft.Bisimulation (R : Draft → Draft → Prop) : Prop where
  buffer : ∀ d d', R d d' → d'.buffer = d.buffer
  adjust : ∀ d d' (b : Buffer), R d d' → b.id = d.buffer.id → b.text = d.buffer.text →
    b.log = d.buffer.log → R { d with buffer := b } { d' with buffer := b }
  insertAt : ∀ d d' (change : Change) n new text, R d d' →
    d.buffer.text.insertAt n new = .ok text → R (d.advance text change) (d'.advance text change)
  removeRange : ∀ d d' (change : Change) low high text, R d d' →
    d.buffer.text.removeRange low high = .ok text → R (d.advance text change) (d'.advance text change)

/-- A draft beside itself. -/
theorem Draft.Invariant.bisimulation {I : Draft → Prop} (hI : Draft.Invariant I) :
    Draft.Bisimulation fun d d' => d' = d ∧ I d where
  buffer _ _ h := congrArg Draft.buffer h.1
  adjust := by
    rintro d _ b ⟨rfl, h⟩ hid htext hlog
    exact ⟨rfl, hI.adjust _ b h hid htext hlog⟩
  insertAt := by
    rintro d _ change n new text ⟨rfl, h⟩ htext
    exact ⟨rfl, hI.insertAt _ change n new text h htext⟩
  removeRange := by
    rintro d _ change low high text ⟨rfl, h⟩ htext
    exact ⟨rfl, hI.removeRange _ change low high text h htext⟩

/-- Drafts that differ in the revisions made before the edits. -/
theorem Draft.bisimulation_revisions (before : List Revision) :
    Draft.Bisimulation fun d d' => d'.buffer = d.buffer ∧ d'.revisions = before ++ d.revisions where
  buffer _ _ h := h.1
  adjust _ _ _ h _ _ _ := ⟨rfl, h.2⟩
  insertAt := by
    rintro d d' change n new text ⟨hbuffer, hrevisions⟩ -
    exact ⟨by simp only [Draft.advance, hbuffer], by simp [Draft.advance, hbuffer, hrevisions]⟩
  removeRange := by
    rintro d d' change low high text ⟨hbuffer, hrevisions⟩ -
    exact ⟨by simp only [Draft.advance, hbuffer], by simp [Draft.advance, hbuffer, hrevisions]⟩

namespace EditM

variable {α β : Type} {I : Draft → Prop} {R : Draft → Draft → Prop}

/-- The computation keeps a property of drafts, whatever comes of it. -/
def Maintains (I : Draft → Prop) (act : EditM α) : Prop := ∀ d, I d → I (act.resume d).2

theorem Maintains.pure (a : α) : Maintains I (Pure.pure a : EditM α) := fun _ hd => hd

theorem Maintains.bind {act : EditM α} {f : α → EditM β} (h : Maintains I act)
    (hf : ∀ a, Maintains I (f a)) : Maintains I (act >>= f) := by
  intro d hd
  have hd' := h d hd
  rw [resume_bind]
  generalize act.resume d = outcome at hd' ⊢
  obtain ⟨r, d'⟩ := outcome
  cases r with
  | error e => exact hd'
  | ok a => exact hf a d' hd'

theorem Maintains.forM {f : α → EditM PUnit} (hf : ∀ a, Maintains I (f a)) (l : List α) :
    Maintains I (l.forM f) := by
  induction l with
  | nil => exact .pure _
  | cons a l ih => exact (hf a).bind fun _ => ih

theorem maintains_require (x : Except Fault α) : Maintains I (require x) := by
  intro d hd
  cases x <;> exact hd

/-- The computation comes to the same on related drafts, and leaves related ones. -/
def Alike (R : Draft → Draft → Prop) (act : EditM α) : Prop :=
  ∀ d d', R d d' → (act.resume d').1 = (act.resume d).1 ∧ R (act.resume d).2 (act.resume d').2

theorem Alike.maintains {act : EditM α} (h : Alike (fun d d' => d' = d ∧ I d) act) : Maintains I act :=
  fun d hd => (h d d ⟨rfl, hd⟩).2.2

theorem Alike.pure (a : α) : Alike R (Pure.pure a : EditM α) := fun _ _ h => ⟨rfl, h⟩

theorem Alike.bind {act : EditM α} {f : α → EditM β} (h : Alike R act) (hf : ∀ a, Alike R (f a)) :
    Alike R (act >>= f) := by
  intro d d' hR
  obtain ⟨hsame, hR'⟩ := h d d' hR
  rw [resume_bind, resume_bind]
  generalize act.resume d = outcome at hsame hR' ⊢
  generalize act.resume d' = outcome' at hsame hR' ⊢
  obtain ⟨r, d₁⟩ := outcome
  obtain ⟨r', d₁'⟩ := outcome'
  obtain rfl : r' = r := hsame
  cases r' with
  | error e => exact ⟨rfl, hR'⟩
  | ok a => exact hf a d₁ d₁' hR'

theorem Alike.discard {act : EditM α} (h : Alike R act) : Alike R (discard act) := by
  rw [Functor.discard, map_const, Function.comp_apply, map_eq_pure_bind]
  exact h.bind fun _ => .pure _

theorem Alike.forM {f : α → EditM PUnit} (hf : ∀ a, Alike R (f a)) (l : List α) : Alike R (l.forM f) := by
  induction l with
  | nil => exact .pure _
  | cons a l ih => exact (hf a).bind fun _ => ih

theorem alike_refuse (e : EditError) : Alike R (refuse e : EditM α) := fun _ _ h => ⟨rfl, h⟩

theorem alike_require (x : Except Fault α) : Alike R (require x) := by
  intro d d' h
  cases x <;> exact ⟨rfl, h⟩

end EditM

namespace Draft.Bisimulation

open EditM

variable {R : Draft → Draft → Prop} (hR : Draft.Bisimulation R)

include hR

theorem buffer_alike : Alike R EditM.buffer := by
  intro d d' h
  exact ⟨congrArg Except.ok (hR.buffer d d' h), h⟩

theorem modifyBuffer {f : Buffer → Buffer} (hid : ∀ b, (f b).id = b.id)
    (htext : ∀ b, (f b).text = b.text) (hlog : ∀ b, (f b).log = b.log) :
    Alike R (EditM.modifyBuffer f) := by
  intro d d' h
  have hadjust := hR.adjust d d' (f d.buffer) h (hid _) (htext _) (hlog _)
  rw [resume_modifyBuffer, resume_modifyBuffer, hR.buffer d d' h]
  exact ⟨rfl, hadjust⟩

theorem record (m : RecordedEdit) : Alike R (EditM.record m) :=
  hR.modifyBuffer (fun b => by split <;> rfl) (fun b => by split <;> rfl) fun b => by split <;> rfl

theorem putText (start : Coord) (new : Text) : Alike R (EditM.putText start new) := by
  intro d d' h
  unfold EditM.putText
  rw [resume_bind_ok (resume_buffer d), resume_bind_ok (resume_buffer d'), hR.buffer d d' h]
  dsimp only
  cases hn : d.buffer.text.offset start with
  | error f => exact ⟨rfl, h⟩
  | ok n =>
    rw [resume_bind_ok (resume_require_ok n d), resume_bind_ok (resume_require_ok n d')]
    cases htext : d.buffer.text.insertAt n new with
    | error f => exact ⟨rfl, h⟩
    | ok text => exact ⟨rfl, hR.insertAt d d' _ n new text h htext⟩

theorem cutText (start stop : Coord) : Alike R (EditM.cutText start stop) := by
  intro d d' h
  unfold EditM.cutText
  rw [resume_bind_ok (resume_buffer d), resume_bind_ok (resume_buffer d'), hR.buffer d d' h]
  dsimp only
  cases hlow : d.buffer.text.offset start with
  | error f => exact ⟨rfl, h⟩
  | ok low =>
    rw [resume_bind_ok (resume_require_ok low d), resume_bind_ok (resume_require_ok low d')]
    cases hhigh : d.buffer.text.offset stop with
    | error f => exact ⟨rfl, h⟩
    | ok high =>
      rw [resume_bind_ok (resume_require_ok high d), resume_bind_ok (resume_require_ok high d')]
      cases htext : d.buffer.text.removeRange low high with
      | error f => exact ⟨rfl, h⟩
      | ok text => exact ⟨rfl, hR.removeRange d d' _ low high text h htext⟩

theorem checkWritable : Alike R EditM.checkWritable := by
  refine hR.buffer_alike.bind fun b => ?_
  split
  · exact alike_refuse _
  · exact .pure _

theorem checkCoord (c : Coord) : Alike R (EditM.checkCoord c) := by
  refine hR.buffer_alike.bind fun b => ?_
  split
  · exact .pure _
  · exact alike_refuse _

theorem insert (start : Coord) (new : Text) : Alike R (EditM.insert start new) := by
  refine hR.checkWritable.bind fun _ => (hR.checkCoord start).bind fun _ => ?_
  split
  · exact .pure _
  · exact (hR.record _).bind fun _ => hR.putText start new

theorem erase (start stop : Coord) : Alike R (EditM.erase start stop) := by
  refine hR.checkWritable.bind fun _ => (hR.checkCoord start).bind fun _ =>
    (hR.checkCoord stop).bind fun _ => ?_
  have hrest : Alike R (do
      if start = stop then return start
      let content ← require ((← EditM.buffer).text.between start stop)
      EditM.record ⟨.erase, start, content⟩
      EditM.cutText start stop) := by
    split
    · exact .pure _
    · exact hR.buffer_alike.bind fun _ => (alike_require _).bind fun _ =>
        (hR.record _).bind fun _ => hR.cutText start stop
  dsimp only
  by_cases h : stop < start
  · rw [if_pos h]
    exact (alike_refuse _).bind fun _ => hrest
  · rw [if_neg h]
    exact hrest

theorem replace (start stop : Coord) (new : Text) : Alike R (EditM.replace start stop new) :=
  (hR.erase start stop).bind fun c => hR.insert c new

theorem reapply (m : RecordedEdit) : Alike R (EditM.reapply m) := by
  unfold EditM.reapply
  split
  · exact (hR.putText _ _).discard
  · exact hR.buffer_alike.bind fun _ => (alike_require _).bind fun _ => (hR.cutText _ _).discard

theorem undo : Alike R EditM.undo := by
  have hadjust (f : Buffer → History) : Alike R (EditM.modifyBuffer fun b => { b with history := f b }) :=
    hR.modifyBuffer (fun _ => rfl) (fun _ => rfl) fun _ => rfl
  refine hR.buffer_alike.bind fun b => ?_
  split
  · exact .pure _
  · rcases b.history.popDone with ⟨group?, history⟩
    refine (hadjust fun _ => history).bind fun _ => ?_
    split
    · exact .pure _
    · exact (Alike.forM (fun m : RecordedEdit => hR.reapply m.inverse) _).bind fun _ =>
        (hadjust _).bind fun _ => .pure _

theorem redo : Alike R EditM.redo := by
  have hadjust (f : Buffer → History) : Alike R (EditM.modifyBuffer fun b => { b with history := f b }) :=
    hR.modifyBuffer (fun _ => rfl) (fun _ => rfl) fun _ => rfl
  refine hR.buffer_alike.bind fun b => ?_
  split
  · exact .pure _
  · rcases b.history.popUndone with ⟨group?, history⟩
    refine (hadjust fun _ => history).bind fun _ => ?_
    split
    · exact .pure _
    · exact (Alike.forM hR.reapply _).bind fun _ => (hadjust _).bind fun _ => .pure _

theorem setFlags (flags : Flags) : Alike R (EditM.setFlags flags) :=
  hR.modifyBuffer (fun _ => rfl) (fun _ => rfl) fun _ => rfl

/-- **Every command** comes to the same on related drafts. -/
theorem act (command : Command) : Alike R command.act := by
  cases command with
  | insert start new => exact (hR.insert start new).discard
  | erase start stop => exact (hR.erase start stop).discard
  | replace start stop new => exact (hR.replace start stop new).discard
  | commitGroup => exact hR.modifyBuffer (fun _ => rfl) (fun _ => rfl) fun _ => rfl
  | undo => exact hR.undo.discard
  | redo => exact hR.redo.discard
  | setFlags flags => exact hR.setFlags flags

end Draft.Bisimulation

namespace Draft.Invariant

open EditM

variable {I : Draft → Prop} (hI : Draft.Invariant I)

include hI

theorem insert (start : Coord) (new : Text) : Maintains I (EditM.insert start new) :=
  (hI.bisimulation.insert start new).maintains

theorem erase (start stop : Coord) : Maintains I (EditM.erase start stop) :=
  (hI.bisimulation.erase start stop).maintains

theorem replace (start stop : Coord) (new : Text) : Maintains I (EditM.replace start stop new) :=
  (hI.bisimulation.replace start stop new).maintains

theorem reapply (m : RecordedEdit) : Maintains I (EditM.reapply m) := (hI.bisimulation.reapply m).maintains

theorem undo : Maintains I EditM.undo := hI.bisimulation.undo.maintains

theorem redo : Maintains I EditM.redo := hI.bisimulation.redo.maintains

theorem setFlags (flags : Flags) : Maintains I (EditM.setFlags flags) :=
  (hI.bisimulation.setFlags flags).maintains

/-- **Every command** keeps such a property. -/
theorem act (command : Command) : Maintains I command.act := (hI.bisimulation.act command).maintains

/-- What a command leaves. -/
theorem perform {d d' : Draft} {command : Command} (hd : I d) (h : d.perform command = .ok d') :
    I d' := by
  have hact := hI.act command d hd
  unfold Draft.perform at h
  split at h
  · cases h
  · rename_i d₁ _ heq
    cases h
    rw [heq] at hact
    exact hact

/-- What a script leaves. -/
theorem run {d d' : Draft} {script : List Command} (hd : I d) (h : d.run script = .ok d') : I d' := by
  induction script generalizing d with
  | nil =>
    cases h
    exact hd
  | cons command script ih =>
    unfold Draft.run at h
    rw [List.foldlM_cons, Fault.bind_eq_ok] at h
    obtain ⟨d₁, hd₁, h⟩ := h
    exact ih (hI.perform hd hd₁) h

end Draft.Invariant

/-! ## Visits -/

namespace Draft.Invariant


variable {I : Draft → Prop} (hI : Draft.Invariant I)

/-- An edit during a visit, if the rest of the visit keeps the property as well. -/
theorem visitEdit {α β : Type} {act : EditM α} {v : Visit}
    {next : α → Visit → Except Failure β × Visit} (hact : EditM.Maintains I act) (hv : I v.draft)
    (hnext : ∀ a v, I v.draft → I (next a v).2.draft) : I (v.edit act next).2.draft := by
  have hdraft : I (StateT.run (ExceptT.run act) v.draft).2 := hact v.draft hv
  unfold Visit.edit
  generalize StateT.run (ExceptT.run act) v.draft = outcome at hdraft ⊢
  obtain ⟨r, d⟩ := outcome
  cases r with
  | ok a => exact hnext a { v with draft := d } hdraft
  | error f => exact hdraft

theorem catchUp {t : SelectionList.Tour} (ht : I t.draft) : I t.catchUp.2.draft := by
  unfold SelectionList.Tour.catchUp
  split <;> exact ht

include hI

/-- Every script keeps such a property. -/
theorem script (s : Script) (v : Visit) (hv : I v.draft) : I (s.run v).2.draft := by
  induction s generalizing v with
  | done => exact hv
  | fail f => exact hv
  | look next ih => exact ih _ _ v hv
  | insert start new next ih =>
    exact visitEdit (hI.insert start new) hv fun span v hv => ih span v hv
  | erase start stop next ih => exact visitEdit (hI.erase start stop) hv fun c v hv => ih c v hv
  | replace start stop new next ih =>
    exact visitEdit (hI.replace start stop new) hv fun span v hv => ih span v hv
  | commitGroup next ih => exact visitEdit (hI.act .commitGroup) hv fun _ v hv => ih v hv
  | undo next ih => exact visitEdit hI.undo hv fun count v hv => ih count v hv
  | redo next ih => exact visitEdit hI.redo hv fun count v hv => ih count v hv
  | setFlags flags next ih => exact visitEdit (hI.setFlags flags) hv fun _ v hv => ih v hv
  | select s next ih => exact ih { v with selection := s } hv
  | queue s next ih =>
    unfold Script.run
    split
    · exact ih _ hv
    · exact hv

theorem visit (callback : ℕ → Script) (t : SelectionList.Tour) (s : Selection) (ht : I t.draft) :
    I (t.visit callback s).2.draft := by
  unfold SelectionList.Tour.visit
  cases t.arrive s with
  | error f => exact ht
  | ok s =>
    dsimp only
    by_cases hrefused : t.refusal.isSome = true
    · rw [if_pos hrefused]
      exact ht
    rw [if_neg hrefused]
    have hscript := hI.script (callback t.finished.length)
      { draft := t.draft, selection := s, mayQueue := t.mayQueue, queued := t.queued } ht
    generalize (callback t.finished.length).run
      { draft := t.draft, selection := s, mayQueue := t.mayQueue, queued := t.queued } = result at hscript ⊢
    obtain ⟨outcome, v⟩ := result
    rcases outcome with (e | f) | _
    · exact catchUp (by exact hscript)
    · exact hscript
    · exact catchUp (by exact hscript)

theorem tour (callback : ℕ → Script) (items : List Selection) (t : SelectionList.Tour) (ht : I t.draft) :
    I (t.visitAll callback items).2.draft := by
  induction items generalizing t with
  | nil => exact ht
  | cons s rest ih =>
    have hvisit := hI.visit callback t s ht
    unfold SelectionList.Tour.visitAll
    generalize t.visit callback s = result at hvisit ⊢
    obtain ⟨outcome, t'⟩ := result
    cases outcome with
    | ok _ => exact ih t' hvisit
    | error f => exact hvisit

/-- **The visit of a whole list** keeps such a property. -/
theorem visitAll (l : SelectionList) (mayQueue : Bool) (callback : ℕ → Script) :
    EditM.Maintains I (l.visitAll mayQueue callback) := by
  intro d hd
  unfold SelectionList.visitAll
  rw [EditM.resume_bind_ok (show EditM.resume get d = (.ok d, d) from rfl)]
  refine EditM.Maintains.bind (EditM.maintains_require _) (fun l => ?_) d hd
  intro d' _
  have htour := hI.tour callback l.group.items
    { draft := d, tracker := .start, timestamp := d.buffer.timestamp, mayQueue } hd
  dsimp only
  generalize SelectionList.Tour.visitAll callback l.group.items
    { draft := d, tracker := .start, timestamp := d.buffer.timestamp, mayQueue } = result at htour ⊢
  obtain ⟨outcome, t⟩ := result
  dsimp only at htour ⊢
  rw [EditM.resume_bind_ok (show EditM.resume (set t.draft) d' = (.ok (), t.draft) from rfl)]
  exact (EditM.Maintains.bind (EditM.maintains_require _) fun _ =>
    (EditM.maintains_require _).bind fun _ => .pure _) t.draft htour

end Draft.Invariant

namespace Draft

variable {d d' : Draft} {command : Command} {script : List Command}

theorem perform_extends (h : d.perform command = .ok d') : d.Extends d' :=
  (Extends.invariant d).perform (.refl d) h

theorem run_extends (h : d.run script = .ok d') : d.Extends d' :=
  (Extends.invariant d).run (.refl d) h

end Draft

namespace Reached

variable {origin : Text} {d d' : Draft} {command : Command} {script : List Command} {n : ℕ}

/-- What holds of a draft that a run has come to. -/
theorem sound (h : Reached origin d) : d.Sound origin d.buffer.options.flags.noUndo := by
  obtain ⟨id, options, script, hs, hk, hr⟩ := h
  have hsound := (Draft.sound_ofText id options hs).run hk hr
  rw [hsound.recording]
  exact hsound

/-- **A run that goes on is a run**, with edits recorded or not as before. -/
theorem perform (h : Reached origin d)
    (hk : command.KeepsRecording d.buffer.options.flags.noUndo) (hp : d.perform command = .ok d') :
    Reached origin d' ∧ d'.buffer.options.flags.noUndo = d.buffer.options.flags.noUndo := by
  have hrec : d'.buffer.options.flags.noUndo = d.buffer.options.flags.noUndo :=
    (h.sound.perform hk hp).recording
  obtain ⟨id, options, before, hs, hkb, hrb⟩ := h
  have hopt : d.buffer.options.flags.noUndo = options.flags.noUndo :=
    ((Draft.sound_ofText id options hs).run hkb hrb).recording
  refine ⟨⟨id, options, before ++ [command], hs, ?_, ?_⟩, hrec⟩
  · intro c hc
    rcases List.mem_append.1 hc with hc | hc
    · exact hkb c hc
    · rw [List.mem_singleton.1 hc, ← hopt]
      exact hk
  · unfold Draft.run at hrb ⊢
    rw [List.foldlM_append, hrb, Fault.ok_bind, List.foldlM_cons, hp]
    rfl

/-- As `Reached.perform`, for a script. -/
theorem run (h : Reached origin d)
    (hk : ∀ command ∈ script, command.KeepsRecording d.buffer.options.flags.noUndo)
    (hr : d.run script = .ok d') : Reached origin d' := by
  induction script generalizing d with
  | nil =>
    cases hr
    exact h
  | cons command script ih =>
    unfold Draft.run at hr
    rw [List.foldlM_cons, Fault.bind_eq_ok] at hr
    obtain ⟨d₁, hd₁, hr⟩ := hr
    obtain ⟨h₁, hrec⟩ := h.perform (hk command List.mem_cons_self) hd₁
    exact ih h₁ (fun c hc => hrec ▸ hk c (List.mem_cons_of_mem _ hc)) hr

/-- **A moment of a run looks the same from any later one.** -/
theorem textAt_eq (h : Reached origin d) (he : d.Extends d') (hn : n ≤ d.buffer.timestamp) :
    d'.textAt origin n = d.textAt origin n := by
  have hprefix : d.texts origin <+: d'.texts origin :=
    List.cons_prefix_cons.2 ⟨rfl, he.revisions.map _⟩
  have hlen : n < (d.texts origin).length := by
    have hcount := h.chronicle.count
    simp only [Draft.texts, List.length_cons, List.length_map, hcount]
    exact Nat.lt_succ_of_le hn
  have hsame := hprefix.getElem hlen
  unfold Draft.textAt
  rw [List.getElem?_eq_getElem hlen, List.getElem?_eq_getElem (hlen.trans_le hprefix.length_le),
    Option.getD_some, Option.getD_some, ← hsame]

end Reached

end Caret
