import Caret.Proofs.Tour

/-!
# What the log tells of edits

Whatever an edit does to the buffer, one that is refused, taken back or made again included, the log tells
how the text before it became the text after it, unless it breaks a contract or takes back what no longer
fits the text.

* `Draft.Logs`: a draft that was edited further, and the changes that were logged.
* `EditM.Tells`: computations that log all they do, with one lemma for each edit.
-/

namespace Caret

/-- **A draft that was edited further.** The changes `more` were logged, and they tell how its text came
about. -/
structure Draft.Logs (d : Draft) (more : List Change) (d' : Draft) : Prop where
  logged : d'.buffer.log = d.buffer.log ++ more
  trail : Trail d.buffer.text more d'.buffer.text

namespace Draft.Logs

variable {d d₁ d' : Draft} {more more' : List Change} {change : Change} {u : Text}

theorem refl (d : Draft) : d.Logs [] d := ⟨(List.append_nil _).symm, rfl⟩

theorem trans (h : d.Logs more d₁) (h' : d₁.Logs more' d') : d.Logs (more ++ more') d' where
  logged := by rw [h'.logged, h.logged, List.append_assoc]
  trail := Trail.append_iff.2 ⟨_, h.trail, h'.trail⟩

theorem advance (htakes : change.Takes d.buffer.text u) (hu : u.size < Text.capacity) :
    d.Logs [change] (d.advance u change) := ⟨rfl, u, htakes, hu, rfl⟩

theorem record_advance (m : RecordedEdit) (htakes : change.Takes d.buffer.text u)
    (hu : u.size < Text.capacity) : d.Logs [change] ((d.record m).advance u change) := by
  obtain ⟨htext, hlog, -, -⟩ := d.record_advance m u change
  exact ⟨hlog, u, htakes, hu, htext.symm⟩

theorem timestamp_le (h : d.Logs more d') : d.buffer.timestamp ≤ d'.buffer.timestamp := by
  unfold Buffer.timestamp
  rw [h.logged, List.length_append]
  exact Nat.le_add_right _ _

/-- The log since an earlier moment. -/
theorem drop (h : d.Logs more d') {timestamp : ℕ} (hle : timestamp ≤ d.buffer.timestamp) :
    d'.buffer.log.drop timestamp = d.buffer.log.drop timestamp ++ more := by
  rw [h.logged, List.drop_append_of_le_length hle]

theorem drop_timestamp (h : d.Logs more d') : d'.buffer.log.drop d.buffer.timestamp = more := by
  rw [h.logged]
  exact List.drop_left

end Draft.Logs

namespace EditM

variable {α β : Type} {d d' : Draft} {act : EditM α} {outcome : Except Failure α} {more : List Change}

/-- Whatever comes of a computation, unless it breaks a contract, the log tells what it did to the text. -/
def Tells (act : EditM α) (d : Draft) : Prop :=
  ∀ outcome d', act.resume d = (outcome, d') → (∀ f, outcome ≠ .error (.fault f)) →
    ∃ more, d.Logs more d'

theorem Tells.of_resume (h : act.resume d = (outcome, d')) (hlogs : d.Logs more d') : act.Tells d := by
  intro outcome₁ d₁ h₁ _
  cases h₁.symm.trans h
  exact ⟨more, hlogs⟩

theorem Tells.of_fault {f : Fault} (h : act.resume d = (.error (.fault f), d')) : act.Tells d := by
  intro outcome₁ d₁ h₁ hok
  cases h₁.symm.trans h
  exact absurd rfl (hok f)

theorem Tells.bind {f : α → EditM β} (h : act.Tells d)
    (hf : ∀ a d₁ more, act.resume d = (.ok a, d₁) → d.Logs more d₁ → (f a).Tells d₁) :
    (act >>= f).Tells d := by
  intro outcome d' hrun hok
  cases hact : act.resume d with
  | mk r d₁ =>
    cases r with
    | error e =>
      rw [resume_bind_error hact] at hrun
      cases hrun
      refine h _ _ hact fun f hf => hok f ?_
      cases hf
      rfl
    | ok a =>
      obtain ⟨more, hlogs⟩ := h _ _ hact (by simp)
      rw [resume_bind_ok hact] at hrun
      obtain ⟨more', hlogs'⟩ := hf a d₁ more hact hlogs _ _ hrun hok
      exact ⟨more ++ more', hlogs.trans hlogs'⟩

variable (hs : d.buffer.text.size < Text.capacity)

include hs

theorem tells_insert (start : Coord) (new : Text) : (insert start new).Tells d := by
  rcases insert_cases d start new hs with ⟨-, e, he⟩ | ⟨-, -, hd⟩ | ⟨d', hd⟩ |
    ⟨before, after, ht, rfl, hnew, hsize, hd⟩
  · exact .of_resume he (.refl d)
  · exact .of_resume hd (.refl d)
  · exact .of_fault hd
  · refine .of_resume hd (.record_advance _ ?_ hsize)
    rw [ht]
    exact .insert before new after hnew

theorem tells_erase (start stop : Coord) : (erase start stop).Tells d := by
  rcases erase_cases d start stop hs with ⟨e, he⟩ | ⟨-, -, hd⟩ |
    ⟨before, mid, after, ht, hmid, rfl, rfl, hd⟩
  · exact .of_resume he (.refl d)
  · exact .of_resume hd (.refl d)
  · refine .of_resume hd (.record_advance _ ?_ ?_)
    · rw [ht]
      exact .erase before mid after hmid
    · rw [ht] at hs
      simp only [Text.size_append] at hs ⊢
      omega

theorem tells_replace (start stop : Coord) (new : Text) : (replace start stop new).Tells d :=
  (tells_erase hs start stop).bind fun c _ _ _ hlogs => tells_insert (hlogs.trail.size_lt hs) c new

/-- Recorded edits that lead on from the text, made again. -/
theorem exists_resume_replay {ms : List RecordedEdit} {f : RecordedEdit → RecordedEdit} {t : Text}
    (h : RecordedEdit.Lead (ms.map f) d.buffer.text t) :
    ∃ d' more, (ms.forM fun m => reapply (f m)).resume d = (.ok (), d') ∧ d.Logs more d' := by
  induction ms generalizing d with
  | nil => exact ⟨d, [], rfl, .refl d⟩
  | cons m ms ih =>
    obtain ⟨u, hu, hub, h⟩ := h
    obtain ⟨change, htakes, hreapply⟩ := resume_reapply hu hs hub
    obtain ⟨d', more, hrest, hlogs⟩ := ih (d := d.advance u change) hub h
    refine ⟨d', _, ?_, (Draft.Logs.advance htakes hub).trans hlogs⟩
    show (reapply (f m) >>= fun _ => ms.forM fun m => reapply (f m)).resume d = _
    rw [resume_bind_ok hreapply, hrest]

theorem tells_undo (hfits : d.buffer.history.Fits d.buffer.text) : undo.Tells d := by
  cases hro : d.buffer.options.flags.readOnly with
  | true => exact .of_resume (resume_undo_readOnly hro) (.refl d)
  | false =>
    rcases hfits.popDone hs with hpop | ⟨group, h, s, hpop, hsize, hlead, -⟩
    · exact .of_resume (resume_undo_none hro hpop) ⟨(Draft.Logs.refl d).logged, rfl⟩
    · obtain ⟨d', more, hreplay, hlogs⟩ := exists_resume_replay (d := d.withHistory h) hs (hlead.reverse hsize)
      exact .of_resume (resume_undo_some hro hpop hreplay) ⟨hlogs.logged, hlogs.trail⟩

theorem tells_redo (hfits : d.buffer.history.Fits d.buffer.text) : redo.Tells d := by
  cases hro : d.buffer.options.flags.readOnly with
  | true => exact .of_resume (resume_redo_readOnly hro) (.refl d)
  | false =>
    rcases hfits.popUndone hs with hpop | ⟨group, h, s, hpop, hlead, -⟩
    · exact .of_resume (resume_redo_none hro hpop) ⟨(Draft.Logs.refl d).logged, rfl⟩
    · have hlead' : RecordedEdit.Lead (group.map id) (d.withHistory h).buffer.text s := by
        rw [List.map_id]
        exact hlead
      obtain ⟨d', more, hreplay, hlogs⟩ := exists_resume_replay (d := d.withHistory h) hs hlead'
      exact .of_resume (resume_redo_some hro hpop hreplay) ⟨hlogs.logged, hlogs.trail⟩

end EditM

end Caret
