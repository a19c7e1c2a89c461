import Caret.Proofs.EditM

/-!
# Histories that fit their text

The groups of a history are edits between texts that really were there: those that can be undone
lead up to the present text, those that can be redone lead on from it.

* `RecordedEdit.Takes`, `RecordedEdit.Lead`: what recorded edits do to a text.
* `RecordedEdit.Lead.reverse`: the inverses lead back.
* `History.Fits`: the invariant, with one lemma for each operation on histories.
* `EditM.resume_undo_some`, `EditM.resume_redo_some`, `EditM.resume_reapply`: groups taken back and
  made again, edit by edit.
-/

namespace Caret

/-- What a recorded edit does to a text. -/
inductive RecordedEdit.Takes : RecordedEdit → Text → Text → Prop
  | insert (before content after : Text) (h : content ≠ []) :
    Takes ⟨.insert, before.extent, content⟩ (before ++ after) (before ++ content ++ after)
  | erase (before content after : Text) (h : content ≠ []) :
    Takes ⟨.erase, before.extent, content⟩ (before ++ content ++ after) (before ++ after)

/-- Recorded edits lead from one text to another, and all texts on the way are within capacity. -/
def RecordedEdit.Lead : List RecordedEdit → Text → Text → Prop
  | [], s, t => s = t
  | m :: rest, s, t => ∃ u, m.Takes s u ∧ u.size < Text.capacity ∧ Lead rest u t

namespace RecordedEdit

variable {m : RecordedEdit} {ms ms' : List RecordedEdit} {s t u : Text}

theorem Takes.inverse (h : m.Takes s t) : m.inverse.Takes t s := by
  cases h with
  | insert before content after h => exact .erase before content after h
  | erase before content after h => exact .insert before content after h

theorem Lead.append (h : Lead ms s t) (h' : Lead ms' t u) : Lead (ms ++ ms') s u := by
  induction ms generalizing s with
  | nil => rw [show s = t from h]; exact h'
  | cons m ms ih => obtain ⟨v, hv, hb, h⟩ := h; exact ⟨v, hv, hb, ih h⟩

theorem Lead.single (h : m.Takes s t) (ht : t.size < Text.capacity) : Lead [m] s t := ⟨t, h, ht, rfl⟩

/-- The inverses, last first, lead back. -/
theorem Lead.reverse (h : Lead ms s t) (hs : s.size < Text.capacity) :
    Lead (ms.reverse.map inverse) t s := by
  induction ms generalizing s with
  | nil => exact (show s = t from h).symm
  | cons m ms ih =>
    obtain ⟨u, hu, hub, h⟩ := h
    rw [List.reverse_cons, List.map_append]
    exact (ih h hub).append (.single hu.inverse hs)

theorem Lead.size_lt (h : Lead ms s t) (hs : s.size < Text.capacity) : t.size < Text.capacity := by
  induction ms generalizing s with
  | nil => exact (show s = t from h) ▸ hs
  | cons m ms ih => obtain ⟨u, -, hub, h⟩ := h; exact ih h hub

end RecordedEdit

namespace History

/-- The groups of an undo stack lead up to a text, the top one last. -/
def LeadUp : List EditGroup → Text → Prop
  | [], _ => True
  | group :: rest, t => ∃ s, s.size < Text.capacity ∧ RecordedEdit.Lead group s t ∧ LeadUp rest s

/-- The groups of a redo stack lead on from a text, the top one first. -/
def LeadOn : List EditGroup → Text → Prop
  | [], _ => True
  | group :: rest, t => ∃ s, RecordedEdit.Lead group t s ∧ LeadOn rest s

/-- **The invariant of histories.** The undo stack and then the open group lead up to the text, and
the redo stack leads on from it. While the open group holds edits there is nothing to redo. -/
structure Fits (h : History) (t : Text) : Prop where
  past : ∃ s, s.size < Text.capacity ∧ RecordedEdit.Lead h.current s t ∧ LeadUp h.done s
  future : LeadOn h.undone t
  open_or_undone : h.current = [] ∨ h.undone = []

/-- A history without edits. -/
def Blank (h : History) : Prop := h.done = [] ∧ h.undone = [] ∧ h.current = []

variable {h : History} {s t : Text}

theorem LeadUp.take (groups : List EditGroup) (hl : LeadUp groups t) (n : ℕ) :
    LeadUp (groups.take n) t := by
  induction groups generalizing t n with
  | nil => simpa using hl
  | cons group groups ih =>
    obtain ⟨s, hs, hg, hl⟩ := hl
    cases n with
    | zero => trivial
    | succ n => exact ⟨s, hs, hg, ih hl n⟩

theorem Blank.fits (hb : h.Blank) (ht : t.size < Text.capacity) : h.Fits t := by
  obtain ⟨hd, hu, hc⟩ := hb
  exact ⟨⟨t, ht, by rw [hc]; rfl, by rw [hd]; trivial⟩, by rw [hu]; trivial, .inl hc⟩

theorem Fits.record {m : RecordedEdit} (hf : h.Fits s) (hm : m.Takes s t)
    (ht : t.size < Text.capacity) : (h.record m).Fits t := by
  obtain ⟨r, hr, hl, hd⟩ := hf.past
  exact ⟨⟨r, hr, hl.append (.single hm ht), hd⟩, trivial, .inr rfl⟩

theorem commit_current (h : History) : h.commit.current = [] := by
  unfold commit
  split
  · rename_i he; exact List.isEmpty_iff.1 he
  · rfl

theorem Fits.commit (hf : h.Fits t) (ht : t.size < Text.capacity) : h.commit.Fits t := by
  obtain ⟨s, hs, hl, hd⟩ := hf.past
  unfold History.commit
  split
  · exact hf
  · rename_i he
    have hu : h.undone = [] := hf.open_or_undone.resolve_left (by simpa using he)
    exact ⟨⟨t, ht, rfl, LeadUp.take (h.current :: h.done) ⟨s, hs, hl, hd⟩ h.depth⟩,
      hu ▸ trivial, .inl rfl⟩

theorem Blank.commit (hb : h.Blank) : h.commit = h := by
  unfold History.commit
  rw [if_pos (by rw [hb.2.2]; rfl)]

theorem popDone_of_nil (hd : h.commit.done = []) : h.popDone = (none, h.commit) := by
  unfold popDone
  dsimp only
  rw [hd]

theorem popDone_of_cons {group : EditGroup} {rest : List EditGroup} (hd : h.commit.done = group :: rest) :
    h.popDone = (some group, { h.commit with done := rest }) := by
  unfold popDone
  dsimp only
  rw [hd]

theorem popUndone_of_nil (hu : h.undone = []) : h.popUndone = (none, h) := by
  unfold popUndone
  rw [hu]

theorem popUndone_of_cons {group : EditGroup} {rest : List EditGroup} (hu : h.undone = group :: rest) :
    h.popUndone = (some group, { h with undone := rest }) := by
  unfold popUndone
  rw [hu]

theorem Blank.popDone (hb : h.Blank) : h.popDone = (none, h) := by
  have hd : h.commit.done = [] := by rw [hb.commit, hb.1]
  rw [popDone_of_nil hd, hb.commit]

theorem Blank.popUndone (hb : h.Blank) : h.popUndone = (none, h) := popUndone_of_nil hb.2.1

/-- **Taking a group to undo.** It leads up to the text from one that the rest of the history
fits once the group can be redone. -/
theorem Fits.popDone (hf : h.Fits t) (ht : t.size < Text.capacity) :
    h.popDone = (none, h.commit) ∨
    ∃ group h' s, h.popDone = (some group, h') ∧ s.size < Text.capacity ∧
      RecordedEdit.Lead group s t ∧ (h'.pushUndone group).Fits s := by
  have hc := hf.commit ht
  have hcur := commit_current h
  cases hd : h.commit.done with
  | nil => exact .inl (popDone_of_nil hd)
  | cons group rest =>
    -- after the commit the open group is empty, so the stack leads up to the text itself
    obtain ⟨s', -, hl, hup⟩ := hc.past
    rw [hcur] at hl
    rw [hd, show s' = t from hl] at hup
    obtain ⟨s, hs, hg, hup⟩ := hup
    exact .inr ⟨group, _, s, popDone_of_cons hd, hs, hg,
      ⟨s, hs, by rw [pushUndone, hcur]; rfl, hup⟩, ⟨t, hg, hc.future⟩, .inl hcur⟩

/-- **Taking a group to redo.** -/
theorem Fits.popUndone (hf : h.Fits t) (ht : t.size < Text.capacity) :
    h.popUndone = (none, h) ∨
    ∃ group h' s, h.popUndone = (some group, h') ∧ RecordedEdit.Lead group t s ∧
      (h'.pushDone group).Fits s := by
  cases hu : h.undone with
  | nil => exact .inl (popUndone_of_nil hu)
  | cons group rest =>
    obtain ⟨s', hs', hl, hup⟩ := hf.past
    have hcur : h.current = [] := hf.open_or_undone.resolve_right (by rw [hu]; exact List.cons_ne_nil _ _)
    have hfut := hf.future
    rw [hcur] at hl
    rw [show s' = t from hl] at hup
    rw [hu] at hfut
    obtain ⟨s, hg, hon⟩ := hfut
    exact .inr ⟨group, _, s, popUndone_of_cons hu, hg, ⟨s, hg.size_lt ht, by rw [pushDone, hcur]; rfl,
      LeadUp.take (group :: h.done) ⟨t, ht, hg, hup⟩ h.depth⟩, hon, .inl hcur⟩

end History

/-- The draft with another history. -/
def Draft.withHistory (d : Draft) (history : History) : Draft :=
  { d with buffer := { d.buffer with history } }

namespace EditM

variable {d d' : Draft} {h : History}

theorem resume_undo_none (hro : d.buffer.options.flags.readOnly = false)
    (hp : d.buffer.history.popDone = (none, h)) :
    undo.resume d = (.ok none, d.withHistory h) := by
  unfold undo
  rw [resume_bind_ok (resume_buffer d), hro, hp]
  rfl

/-- An undo that has a group to take back, whatever comes of it. -/
theorem resume_undo_group {group : EditGroup} (hro : d.buffer.options.flags.readOnly = false)
    (hp : d.buffer.history.popDone = (some group, h)) :
    undo.resume d =
      match (group.reverse.forM fun m => reapply m.inverse).resume (d.withHistory h) with
      | (.ok _, d') => (.ok (some group.length), d'.withHistory (d'.buffer.history.pushUndone group))
      | (.error e, d') => (.error e, d') := by
  unfold undo
  rw [resume_bind_ok (resume_buffer d), hro, hp]
  show EditM.resume (_ >>= fun _ => _) d = _
  rw [resume_bind_ok (resume_modifyBuffer _ d)]
  show EditM.resume (_ >>= fun _ => _) (d.withHistory h) = _
  rw [resume_bind]
  rcases (group.reverse.forM fun m => reapply m.inverse).resume (d.withHistory h) with ⟨e | _, d'⟩ <;> rfl

theorem resume_undo_some {group : EditGroup} (hro : d.buffer.options.flags.readOnly = false)
    (hp : d.buffer.history.popDone = (some group, h))
    (hr : (group.reverse.forM fun m => reapply m.inverse).resume (d.withHistory h) = (.ok (), d')) :
    undo.resume d = (.ok (some group.length),
      d'.withHistory (d'.buffer.history.pushUndone group)) := by
  rw [resume_undo_group hro hp, hr]

theorem resume_redo_none (hro : d.buffer.options.flags.readOnly = false)
    (hp : d.buffer.history.popUndone = (none, h)) :
    redo.resume d = (.ok none, d.withHistory h) := by
  unfold redo
  rw [resume_bind_ok (resume_buffer d), hro, hp]
  rfl

/-- A redo that has a group to make again, whatever comes of it. -/
theorem resume_redo_group {group : EditGroup} (hro : d.buffer.options.flags.readOnly = false)
    (hp : d.buffer.history.popUndone = (some group, h)) :
    redo.resume d =
      match (group.forM reapply).resume (d.withHistory h) with
      | (.ok _, d') => (.ok (some group.length), d'.withHistory (d'.buffer.history.pushDone group))
      | (.error e, d') => (.error e, d') := by
  unfold redo
  rw [resume_bind_ok (resume_buffer d), hro, hp]
  show EditM.resume (_ >>= fun _ => _) d = _
  rw [resume_bind_ok (resume_modifyBuffer _ d)]
  show EditM.resume (_ >>= fun _ => _) (d.withHistory h) = _
  rw [resume_bind]
  rcases (group.forM reapply).resume (d.withHistory h) with ⟨e | _, d'⟩ <;> rfl

theorem resume_redo_some {group : EditGroup} (hro : d.buffer.options.flags.readOnly = false)
    (hp : d.buffer.history.popUndone = (some group, h))
    (hr : (group.forM reapply).resume (d.withHistory h) = (.ok (), d')) :
    redo.resume d = (.ok (some group.length),
      d'.withHistory (d'.buffer.history.pushDone group)) := by
  rw [resume_redo_group hro hp, hr]

/-- A recorded edit made again. -/
theorem resume_reapply {m : RecordedEdit} {d : Draft} {t : Text} (h : m.Takes d.buffer.text t)
    (hs : d.buffer.text.size < Text.capacity) (ht : t.size < Text.capacity) :
    ∃ change : Change, change.Takes d.buffer.text t ∧
      (reapply m).resume d = (.ok (), d.advance t change) := by
  generalize htext : d.buffer.text = s at h hs
  cases h with
  | insert before content after hc =>
    refine ⟨_, .insert before content after hc, ?_⟩
    unfold reapply
    dsimp only
    rw [resume_discard, resume_putText _ htext hs, if_pos ht]
  | erase before content after hc =>
    refine ⟨_, .erase before content after hc, ?_⟩
    have hoff : (before ++ content ++ after).offset before.extent = .ok before.size := by
      rw [List.append_assoc] at hs ⊢; exact Text.offset_extent hs
    have hstop : (before ++ content ++ after).coordAt (before.size + content.size) =
        (before ++ content).extent := by
      rw [← Text.size_append, Text.coordAt_size]
    unfold reapply
    dsimp only
    rw [resume_bind_ok (resume_buffer d), htext, hoff, resume_bind_ok (resume_require_ok _ d), hstop,
      resume_discard, resume_cutText htext hs]

end EditM

end Caret
