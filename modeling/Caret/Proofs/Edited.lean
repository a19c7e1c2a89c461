import Caret.Proofs.Run

/-!
# What edits come to

An edit that is carried out is made up of recorded edits, each of which is logged as one change. An
edit that is refused leaves no trace.

* `Draft.Edited`: recorded edits made to a draft.
* `EditM.edited_of_insert`, `EditM.edited_of_erase`, `EditM.edited_of_replace`: edits carried out.
* `EditM.eq_of_insert_refused`, `EditM.eq_of_erase_refused`, `EditM.eq_of_replace_refused`: edits
  refused.
* `Draft.exists_edited_of_perform`: both together.
-/

namespace Caret

/-- The command may change the text other than by undo and redo. -/
def Command.IsEdit : Command → Prop
  | .insert .. | .erase .. | .replace .. => True
  | _ => False

/-- Recorded edits made to a draft: they lead from text to text, each of them is logged, and all go
into the history unless edits are not recorded. -/
structure Draft.Edited (ms : List RecordedEdit) (d d' : Draft) : Prop where
  lead : RecordedEdit.Lead ms d.buffer.text d'.buffer.text
  history : d'.buffer.history =
    if d.buffer.options.flags.noUndo then d.buffer.history
    else ms.foldl History.record d.buffer.history
  options : d'.buffer.options = d.buffer.options
  timestamp : d'.buffer.timestamp = d.buffer.timestamp + ms.length

namespace Draft.Edited

variable {ms ms' : List RecordedEdit} {d d' d'' : Draft}

theorem refl (d : Draft) : Edited [] d d := by
  refine ⟨rfl, ?_, rfl, rfl⟩
  split <;> rfl

theorem trans (h : Edited ms d d') (h' : Edited ms' d' d'') : Edited (ms ++ ms') d d'' := by
  have hhistory := h'.history
  have htime := h'.timestamp
  rw [h.options, h.history] at hhistory
  rw [h.timestamp, Nat.add_assoc, ← List.length_append] at htime
  refine ⟨h.lead.append h'.lead, ?_, h'.options.trans h.options, htime⟩
  rw [hhistory]
  split
  · rfl
  · rw [List.foldl_append]

/-- One recorded edit. -/
theorem single {m : RecordedEdit} {t : Text} {change : Change} (hm : m.Takes d.buffer.text t)
    (ht : t.size < Text.capacity) : Edited [m] d ((d.record m).advance t change) := by
  have htime := (d.record m).timestamp_advance t change
  have hlead := RecordedEdit.Lead.single hm ht
  unfold Draft.record at htime ⊢
  by_cases hno : d.buffer.options.flags.noUndo = true
  · rw [if_pos hno] at htime ⊢
    exact ⟨hlead, by rw [if_pos hno]; rfl, rfl, htime⟩
  · rw [if_neg hno] at htime ⊢
    exact ⟨hlead, by rw [if_neg hno]; rfl, rfl, htime⟩

end Draft.Edited

namespace EditM

variable {d d' : Draft} {start stop c : Coord} {new : Text} {span : Span} {e : EditError}

/-! ## Edits that are carried out -/

theorem edited_of_insert (hs : d.buffer.text.size < Text.capacity)
    (h : (insert start new).resume d = (.ok span, d')) :
    ∃ ms, ms.length = (if new = [] then 0 else 1) ∧ Draft.Edited ms d d' := by
  rcases insert_cases d start new hs with ⟨-, e, he⟩ | ⟨rfl, -, ha⟩ | ⟨d₁, hf⟩ |
    ⟨before, after, htext, rfl, hne, hsize, hr⟩
  · rw [h] at he
    cases he
  · rw [h] at ha
    cases ha
    exact ⟨[], rfl, .refl d⟩
  · rw [h] at hf
    cases hf
  · rw [h] at hr
    cases hr
    refine ⟨[⟨.insert, before.extent, new⟩], (if_neg hne).symm, .single ?_ hsize⟩
    rw [htext]
    exact .insert before new after hne

/-- An erase also answers with its start, which stays a position of the text. -/
theorem edited_of_erase (hs : d.buffer.text.size < Text.capacity)
    (h : (erase start stop).resume d = (.ok c, d')) :
    c = start ∧ d'.buffer.text.Valid start ∧
      ∃ ms, ms.length = (if start = stop then 0 else 1) ∧ Draft.Edited ms d d' := by
  rcases erase_cases d start stop hs with ⟨e, he⟩ | ⟨rfl, hv, ha⟩ |
    ⟨before, mid, after, htext, hne, rfl, rfl, hr⟩
  · rw [h] at he
    cases he
  · rw [h] at ha
    cases ha
    exact ⟨rfl, hv, [], (if_pos rfl).symm, .refl d⟩
  · rw [h] at hr
    cases hr
    have hlt : before.extent < (before ++ mid).extent := Text.extent_lt_append before hne
    have hsize : (before ++ after).size < Text.capacity := by
      rw [htext, Text.size_append, Text.size_append] at hs
      rw [Text.size_append]
      omega
    refine ⟨rfl, Text.valid_extent_append before after,
      [⟨.erase, before.extent, mid⟩], (if_neg hlt.ne).symm, .single ?_ hsize⟩
    rw [htext]
    exact .erase before mid after hne

theorem edited_of_replace (hs : d.buffer.text.size < Text.capacity)
    (h : (replace start stop new).resume d = (.ok span, d')) :
    ∃ ms, ms.length = (if start = stop then 0 else 1) + (if new = [] then 0 else 1) ∧
      Draft.Edited ms d d' := by
  have hbind : (erase start stop >>= fun c => insert c new).resume d = (.ok span, d') := h
  rw [resume_bind] at hbind
  generalize herase : (erase start stop).resume d = outcome at hbind
  obtain ⟨r, d₁⟩ := outcome
  cases r with
  | error e => cases hbind
  | ok c =>
    obtain ⟨-, -, ms, hlen, hedited⟩ := edited_of_erase hs herase
    have hs₁ := hedited.lead.size_lt hs
    obtain ⟨ms', hlen', hedited'⟩ := edited_of_insert hs₁ hbind
    refine ⟨ms ++ ms', ?_, hedited.trans hedited'⟩
    rw [List.length_append, hlen, hlen']

/-! ## Edits that are refused -/

/-- An insert is refused only when the buffer is read-only or the place is not a position. -/
theorem eq_of_insert_refused (hs : d.buffer.text.size < Text.capacity)
    (h : (insert start new).resume d = (.error (.error e), d')) :
    d' = d ∧ (d.buffer.options.flags.readOnly = true ∨ ¬d.buffer.text.Valid start) := by
  rcases insert_cases d start new hs with ⟨hwhy, e', he⟩ | ⟨-, -, ha⟩ | ⟨d₁, hf⟩ |
    ⟨before, after, -, -, -, -, hr⟩
  · rw [h] at he
    cases he
    exact ⟨rfl, hwhy⟩
  · rw [h] at ha
    cases ha
  · rw [h] at hf
    cases hf
  · rw [h] at hr
    cases hr

theorem eq_of_erase_refused (hs : d.buffer.text.size < Text.capacity)
    (h : (erase start stop).resume d = (.error (.error e), d')) : d' = d := by
  rcases erase_cases d start stop hs with ⟨e', he⟩ | ⟨-, -, ha⟩ |
    ⟨before, mid, after, -, -, -, -, hr⟩
  · rw [h] at he
    cases he
    rfl
  · rw [h] at ha
    cases ha
  · rw [h] at hr
    cases hr

theorem resume_erase_readOnly (hro : d.buffer.options.flags.readOnly = true) :
    (erase start stop).resume d = (.error (.error .readOnly), d) := by
  rw [resume_erase_eq, Buffer.refusal, if_pos hro]

/-- A replacement is refused as a whole: where the erase goes through, so does the insert. -/
theorem eq_of_replace_refused (hs : d.buffer.text.size < Text.capacity)
    (h : (replace start stop new).resume d = (.error (.error e), d')) : d' = d := by
  have hbind : (erase start stop >>= fun c => insert c new).resume d = (.error (.error e), d') := h
  rw [resume_bind] at hbind
  generalize herase : (erase start stop).resume d = outcome at hbind
  obtain ⟨r, d₁⟩ := outcome
  cases r with
  | error f =>
    cases hbind
    exact eq_of_erase_refused hs herase
  | ok c =>
    obtain ⟨rfl, hvalid, ms, -, hedited⟩ := edited_of_erase hs herase
    have hs₁ := hedited.lead.size_lt hs
    obtain ⟨-, hro | hinvalid⟩ := eq_of_insert_refused hs₁ hbind
    · -- a read-only buffer would have refused the erase
      rw [hedited.options] at hro
      rw [resume_erase_readOnly hro] at herase
      cases herase
    · exact absurd hvalid hinvalid

end EditM

namespace Draft

variable {d d' : Draft} {command : Command}

theorem exists_act_of_perform (h : d.perform command = .ok d') :
    command.act.resume d = (.ok (), d') ∨ ∃ e, command.act.resume d = (.error (.error e), d') := by
  unfold perform at h
  generalize command.act.resume d = outcome at h ⊢
  obtain ⟨r, d₁⟩ := outcome
  rcases r with (e | f) | a
  · cases h
    exact .inr ⟨e, rfl⟩
  · cases h
  · cases h
    exact .inl rfl

/-- **An edit that is performed** is made up of recorded edits, of none where it is refused. -/
theorem exists_edited_of_perform (hs : d.buffer.text.size < Text.capacity) (hc : command.IsEdit)
    (h : d.perform command = .ok d') : ∃ ms, Edited ms d d' := by
  cases command with
  | insert start new =>
    rcases exists_act_of_perform h with hr | ⟨e, hr⟩
    · obtain ⟨span, hr⟩ := EditM.exists_of_resume_discard hr
      obtain ⟨ms, -, hedited⟩ := EditM.edited_of_insert hs hr
      exact ⟨ms, hedited⟩
    · rw [(EditM.eq_of_insert_refused hs (EditM.resume_of_discard_error hr)).1]
      exact ⟨[], .refl d⟩
  | erase start stop =>
    rcases exists_act_of_perform h with hr | ⟨e, hr⟩
    · obtain ⟨c, hr⟩ := EditM.exists_of_resume_discard hr
      obtain ⟨-, -, ms, -, hedited⟩ := EditM.edited_of_erase hs hr
      exact ⟨ms, hedited⟩
    · rw [EditM.eq_of_erase_refused hs (EditM.resume_of_discard_error hr)]
      exact ⟨[], .refl d⟩
  | replace start stop new =>
    rcases exists_act_of_perform h with hr | ⟨e, hr⟩
    · obtain ⟨span, hr⟩ := EditM.exists_of_resume_discard hr
      obtain ⟨ms, -, hedited⟩ := EditM.edited_of_replace hs hr
      exact ⟨ms, hedited⟩
    · rw [EditM.eq_of_replace_refused hs (EditM.resume_of_discard_error hr)]
      exact ⟨[], .refl d⟩
  | commitGroup => exact absurd hc id
  | undo => exact absurd hc id
  | redo => exact absurd hc id
  | setFlags flags => exact absurd hc id

end Draft

end Caret
