import Caret.Proofs.Trail
import Caret.Buffer.Edit

/-!
# Edits step by step

What each editing computation does to the draft it goes on from: its outcome and the draft it
leaves behind, refusals and faults included.

* `EditM.resume`, `EditM.resume_bind`: a computation that goes on from a draft.
* `Buffer.refusal`: when the checked edits are refused, and why.
* `EditM.insert_cases`, `EditM.erase_cases`: all that the checked edits can do.
* `EditM.resume_putText`, `EditM.resume_cutText`: the two primitive edits.
-/

namespace Caret

/-- The draft after a logged change that led to `text`. -/
def Draft.advance (d : Draft) (text : Text) (change : Change) : Draft :=
  let after := { d.buffer with text, log := d.buffer.log ++ [change] }
  { buffer := after, revisions := d.revisions ++ [⟨change, after⟩] }

/-- The draft after an edit was added to the history, unless edits are not recorded. -/
def Draft.record (d : Draft) (m : RecordedEdit) : Draft :=
  { d with buffer := if d.buffer.options.flags.noUndo then d.buffer else
      { d.buffer with history := d.buffer.history.record m } }

/-- What recording an edit and logging a change leave of a draft. -/
theorem Draft.record_advance (d : Draft) (m : RecordedEdit) (text : Text) (change : Change) :
    ((d.record m).advance text change).buffer.text = text ∧
      ((d.record m).advance text change).buffer.log = d.buffer.log ++ [change] ∧
      ((d.record m).advance text change).buffer.options = d.buffer.options ∧
      ((d.record m).advance text change).buffer.id = d.buffer.id := by
  unfold Draft.record Draft.advance
  split <;> exact ⟨rfl, rfl, rfl, rfl⟩

namespace Buffer

variable {b : Buffer} {start stop : Coord}

/-- **Why an edit between two coordinates is refused**, if it is. -/
def refusal (b : Buffer) (start stop : Coord) : Option EditError :=
  if b.options.flags.readOnly then some .readOnly
  else if b.text.Valid start then
    if b.text.Valid stop then
      if stop < start then some (.invalidCoord stop) else none
    else some (.invalidCoord stop)
  else some (.invalidCoord start)

/-- The buffer is not to be changed, or the coordinates are not the ends of a piece of its text. -/
def Refuses (b : Buffer) (start stop : Coord) : Prop :=
  b.options.flags.readOnly = true ∨ ¬b.text.Valid start ∨ ¬b.text.Valid stop ∨ stop < start

/-- An edit is not refused in a writable buffer between two positions in order. -/
theorem refusal_eq_none_iff : b.refusal start stop = none ↔ b.options.flags.readOnly = false ∧
    b.text.Valid start ∧ b.text.Valid stop ∧ start ≤ stop := by
  unfold refusal
  split_ifs <;> simp_all

/-- An edit is refused in a read-only buffer, where a coordinate is not a position, and where the end
precedes the begin. -/
theorem exists_refusal_iff : (∃ e, b.refusal start stop = some e) ↔ b.Refuses start stop := by
  rw [← Option.ne_none_iff_exists', ne_eq, refusal_eq_none_iff, Refuses, ← Bool.not_eq_true, ← not_lt]
  simp only [not_and_or, not_not]

end Buffer

namespace EditM

variable {α β : Type}

/-- The outcome of a computation that goes on from a draft, and the draft it leaves behind. -/
def resume (act : EditM α) (d : Draft) : Except Failure α × Draft := StateT.run (ExceptT.run act) d

@[simp] theorem resume_pure (a : α) (d : Draft) : (pure a : EditM α).resume d = (.ok a, d) := rfl

theorem resume_bind (act : EditM α) (f : α → EditM β) (d : Draft) :
    (act >>= f).resume d = match act.resume d with
      | (.ok a, d') => (f a).resume d'
      | (.error e, d') => (.error e, d') := by
  unfold resume ExceptT.run StateT.run
  simp only [bind, ExceptT.bind, ExceptT.mk, StateT.bind]
  rcases act d with ⟨r, d'⟩
  cases r <;> rfl

theorem resume_bind_ok {act : EditM α} {f : α → EditM β} {d d' : Draft} {a : α}
    (h : act.resume d = (.ok a, d')) : (act >>= f).resume d = (f a).resume d' := by
  rw [resume_bind, h]

theorem resume_bind_error {act : EditM α} {f : α → EditM β} {d d' : Draft} {e : Failure}
    (h : act.resume d = (.error e, d')) : (act >>= f).resume d = (.error e, d') := by
  rw [resume_bind, h]

theorem resume_map (g : α → β) (act : EditM α) (d : Draft) :
    (g <$> act).resume d = match act.resume d with
      | (.ok a, d') => (.ok (g a), d')
      | (.error e, d') => (.error e, d') := by
  rw [map_eq_pure_bind, resume_bind]
  rfl

theorem resume_discard (act : EditM α) (d : Draft) :
    (discard act).resume d = match act.resume d with
      | (.ok _, d') => (.ok (), d')
      | (.error e, d') => (.error e, d') := by
  rw [Functor.discard, map_const, Function.comp_apply, resume_map]

/-- What an answer passed over says of the computation that gave it. -/
theorem exists_of_resume_discard {act : EditM α} {d d' : Draft}
    (h : (discard act).resume d = (.ok (), d')) : ∃ a, act.resume d = (.ok a, d') := by
  rw [resume_discard] at h
  generalize act.resume d = outcome at h ⊢
  obtain ⟨r, d₁⟩ := outcome
  cases r with
  | error e => cases h
  | ok a =>
    cases h
    exact ⟨a, rfl⟩

theorem resume_of_discard_error {act : EditM α} {d d' : Draft} {e : Failure}
    (h : (discard act).resume d = (.error e, d')) : act.resume d = (.error e, d') := by
  rw [resume_discard] at h
  generalize act.resume d = outcome at h ⊢
  obtain ⟨r, d₁⟩ := outcome
  cases r with
  | error f =>
    cases h
    rfl
  | ok a => cases h

@[simp] theorem resume_buffer (d : Draft) : buffer.resume d = (.ok d.buffer, d) := rfl

@[simp] theorem resume_refuse (e : EditError) (d : Draft) :
    (refuse e : EditM α).resume d = (.error (.error e), d) := rfl

@[simp] theorem resume_require_ok (a : α) (d : Draft) : (require (.ok a)).resume d = (.ok a, d) := rfl

@[simp] theorem resume_require_error (f : Fault) (d : Draft) :
    (require (.error f) : EditM α).resume d = (.error (.fault f), d) := rfl

@[simp] theorem resume_modifyBuffer (f : Buffer → Buffer) (d : Draft) :
    (modifyBuffer f).resume d = (.ok (), { d with buffer := f d.buffer }) := rfl

@[simp] theorem resume_commitChange (text : Text) (change : Change) (d : Draft) :
    (commitChange text change).resume d = (.ok (), d.advance text change) := rfl

@[simp] theorem resume_record (m : RecordedEdit) (d : Draft) :
    (record m).resume d = (.ok (), d.record m) := rfl

/-! ## Unchecked edits -/

/-- A text put in at a position, which fails only where the text would leave its capacity. -/
theorem resume_putText {d : Draft} {before after : Text} (new : Text)
    (ht : d.buffer.text = before ++ after) (hs : (before ++ after).size < Text.capacity) :
    (putText before.extent new).resume d =
      if (before ++ new ++ after).size < Text.capacity then
        (.ok ⟨before.extent, (before ++ new).extent⟩,
          d.advance (before ++ new ++ after) ⟨.insert, before.extent, (before ++ new).extent⟩)
      else (.error (.fault .tooLarge), d) := by
  have hcut : Text.cut? (before ++ after) before.size = some (before, after) :=
    Text.cut?_eq_some_iff.2 ⟨rfl, rfl⟩
  have hsize : (before ++ new ++ after).size = (before ++ after).size + new.size := by
    simp only [Text.size_append]; omega
  have hstop : (before ++ new ++ after).coordAt (before.size + new.size) = (before ++ new).extent := by
    rw [← Text.size_append, Text.coordAt_size]
  unfold putText
  rw [resume_bind_ok (resume_buffer d), ht]
  dsimp only
  rw [Text.offset_extent hs, resume_bind_ok (resume_require_ok _ d), Text.insertAt, hcut, hsize]
  dsimp only
  by_cases hc : (before ++ after).size + new.size < Text.capacity
  · rw [if_pos hc, if_pos hc, resume_bind_ok (resume_require_ok _ d)]
    simp only [hstop]
    rw [resume_bind_ok (resume_commitChange _ _ d), resume_pure]
  · rw [if_neg hc, if_neg hc, resume_bind_error (resume_require_error _ d)]

/-- The text between two boundaries falls out. -/
theorem removeRange_append (before mid after : Text) :
    (before ++ mid ++ after).removeRange before.size (before ++ mid).size = .ok (before ++ after) := by
  have hcut : Text.cut? (before ++ mid ++ after) before.size = some (before, mid ++ after) :=
    Text.cut?_eq_some_iff.2 ⟨List.append_assoc _ _ _, rfl⟩
  have hcut' : Text.cut? (before ++ mid ++ after) (before ++ mid).size = some (before ++ mid, after) :=
    Text.cut?_eq_some_iff.2 ⟨rfl, rfl⟩
  unfold Text.removeRange
  rw [hcut, hcut']
  simp only
  rw [if_pos (by rw [Text.size_append]; omega)]

/-- A text taken out between two positions. -/
theorem resume_cutText {d : Draft} {before mid after : Text}
    (ht : d.buffer.text = before ++ mid ++ after)
    (hs : (before ++ mid ++ after).size < Text.capacity) :
    (cutText before.extent (before ++ mid).extent).resume d =
      (.ok before.extent,
        d.advance (before ++ after) ⟨.erase, before.extent, (before ++ mid).extent⟩) := by
  have hlow : (before ++ mid ++ after).offset before.extent = .ok before.size := by
    rw [List.append_assoc] at hs ⊢; exact Text.offset_extent hs
  unfold cutText
  rw [resume_bind_ok (resume_buffer d), ht]
  dsimp only
  rw [hlow, resume_bind_ok (resume_require_ok _ d), Text.offset_extent hs,
    resume_bind_ok (resume_require_ok _ d), removeRange_append, resume_bind_ok (resume_require_ok _ d),
    resume_bind_ok (resume_commitChange _ _ d), resume_pure]

/-! ## Checked edits -/

theorem resume_checkWritable (d : Draft) :
    checkWritable.resume d =
      if d.buffer.options.flags.readOnly then (.error (.error .readOnly), d) else (.ok (), d) := by
  unfold checkWritable
  rw [resume_bind_ok (resume_buffer d)]
  split <;> rfl

theorem resume_checkCoord (c : Coord) (d : Draft) :
    (checkCoord c).resume d =
      if d.buffer.text.Valid c then (.ok (), d) else (.error (.error (.invalidCoord c)), d) := by
  unfold checkCoord
  rw [resume_bind_ok (resume_buffer d)]
  split <;> rfl

/-- **What an insert does**: it is refused, or has nothing to put in, or is recorded and made. -/
theorem resume_insert_eq (d : Draft) (start : Coord) (new : Text) :
    (insert start new).resume d = match d.buffer.refusal start start with
      | some e => (.error (.error e), d)
      | none => if new = [] then (.ok ⟨start, start⟩, d) else
          (putText start new).resume (d.record ⟨.insert, start, new⟩) := by
  unfold insert Buffer.refusal
  rw [resume_bind, resume_checkWritable]
  by_cases hro : d.buffer.options.flags.readOnly = true
  · rw [if_pos hro, if_pos hro]
  rw [if_neg hro, if_neg hro]
  dsimp only
  rw [resume_bind, resume_checkCoord]
  by_cases hv : d.buffer.text.Valid start
  · rw [if_pos hv, if_pos hv, if_pos hv, if_neg (lt_irrefl start)]
    cases new <;> rfl
  · rw [if_neg hv, if_neg hv]

/-- **What an erase does**: it is refused, or has nothing to take out, or is recorded and made. -/
theorem resume_erase_eq (d : Draft) (start stop : Coord) :
    (erase start stop).resume d = match d.buffer.refusal start stop with
      | some e => (.error (.error e), d)
      | none => if start = stop then (.ok start, d) else
          (require (d.buffer.text.between start stop) >>= fun content => do
            record ⟨.erase, start, content⟩
            cutText start stop).resume d := by
  unfold erase Buffer.refusal
  rw [resume_bind, resume_checkWritable]
  by_cases hro : d.buffer.options.flags.readOnly = true
  · rw [if_pos hro, if_pos hro]
  rw [if_neg hro, if_neg hro]
  dsimp only
  rw [resume_bind, resume_checkCoord]
  by_cases hstart : d.buffer.text.Valid start
  swap
  · rw [if_neg hstart, if_neg hstart]
  rw [if_pos hstart, if_pos hstart]
  dsimp only
  rw [resume_bind, resume_checkCoord]
  by_cases hstop : d.buffer.text.Valid stop
  swap
  · rw [if_neg hstop, if_neg hstop]
  rw [if_pos hstop, if_pos hstop]
  dsimp only
  by_cases hlt : stop < start
  · rw [if_pos hlt, if_pos hlt]
    rfl
  rw [if_neg hlt, if_neg hlt]
  by_cases heq : start = stop
  · rw [if_pos heq, if_pos heq]
    rfl
  · rw [if_neg heq, if_neg heq, resume_bind_ok (resume_buffer d)]

/-- **All that an insert can do.** It is refused, it has nothing to insert, it is too large, or it
puts its text in at a position. -/
theorem insert_cases (d : Draft) (start : Coord) (new : Text)
    (hs : d.buffer.text.size < Text.capacity) :
    ((d.buffer.options.flags.readOnly = true ∨ ¬d.buffer.text.Valid start) ∧
      ∃ e, (insert start new).resume d = (.error (.error e), d)) ∨
    (new = [] ∧ d.buffer.text.Valid start ∧ (insert start new).resume d = (.ok ⟨start, start⟩, d)) ∨
    (∃ d', (insert start new).resume d = (.error (.fault .tooLarge), d')) ∨
    ∃ before after, d.buffer.text = before ++ after ∧ start = before.extent ∧ new ≠ [] ∧
      (before ++ new ++ after).size < Text.capacity ∧
      (insert start new).resume d = (.ok ⟨start, (before ++ new).extent⟩,
        (d.record ⟨.insert, start, new⟩).advance (before ++ new ++ after)
          ⟨.insert, start, (before ++ new).extent⟩) := by
  rw [resume_insert_eq]
  cases hrefusal : d.buffer.refusal start start with
  | some e =>
    obtain hro | hv | hv | hlt := Buffer.exists_refusal_iff.1 ⟨e, hrefusal⟩
    · exact .inl ⟨.inl hro, e, rfl⟩
    · exact .inl ⟨.inr hv, e, rfl⟩
    · exact .inl ⟨.inr hv, e, rfl⟩
    · exact absurd hlt (lt_irrefl start)
  | none =>
    obtain ⟨-, hv, -, -⟩ := Buffer.refusal_eq_none_iff.1 hrefusal
    -- an empty text is neither recorded nor logged
    by_cases hnew : new = []
    · exact .inr (.inl ⟨hnew, hv, if_pos hnew⟩)
    obtain ⟨before, after, ht, rfl⟩ := Text.valid_iff_extent.1 hv
    have hput := resume_putText (d := d.record ⟨.insert, before.extent, new⟩) new
      (by unfold Draft.record; split <;> exact ht) (ht ▸ hs)
    dsimp only
    rw [if_neg hnew, hput]
    by_cases hc : (before ++ new ++ after).size < Text.capacity
    · rw [if_pos hc]
      exact .inr (.inr (.inr ⟨before, after, ht, rfl, hnew, hc, rfl⟩))
    · rw [if_neg hc]
      exact .inr (.inr (.inl ⟨_, rfl⟩))

theorem between_extent {before mid after : Text} (hs : (before ++ mid ++ after).size < Text.capacity) :
    (before ++ mid ++ after).between before.extent (before ++ mid).extent = .ok mid := by
  have hlow : (before ++ mid ++ after).offset before.extent = .ok before.size := by
    rw [List.append_assoc] at hs ⊢; exact Text.offset_extent hs
  have hcut : Text.cut? (before ++ mid ++ after) (before ++ mid).size = some (before ++ mid, after) :=
    Text.cut?_eq_some_iff.2 ⟨rfl, rfl⟩
  have hcut' : Text.cut? (before ++ mid) before.size = some (before, mid) :=
    Text.cut?_eq_some_iff.2 ⟨rfl, rfl⟩
  have hle : before.size ≤ (before ++ mid).size := by rw [Text.size_append]; omega
  have hslice : (before ++ mid ++ after).slice? before.size (before ++ mid).size = some mid := by
    unfold Text.slice?
    rw [if_neg (by omega)]
    simp only [bind, Option.bind, pure, hcut, hcut']
  unfold Text.between
  rw [hlow, Fault.ok_bind, Text.offset_extent hs, Fault.ok_bind, Nat.max_eq_right hle, hslice]
  rfl

/-- A text taken out once it was checked where. -/
theorem resume_eraseBetween {d : Draft} {before mid after : Text} (ht : d.buffer.text = before ++ mid ++ after)
    (hs : (before ++ mid ++ after).size < Text.capacity) :
    (require (d.buffer.text.between before.extent (before ++ mid).extent) >>= fun content => do
      record ⟨.erase, before.extent, content⟩
      cutText before.extent (before ++ mid).extent).resume d = (.ok before.extent,
        (d.record ⟨.erase, before.extent, mid⟩).advance (before ++ after)
          ⟨.erase, before.extent, (before ++ mid).extent⟩) := by
  -- recording the edit leaves the text alone
  have hcut := resume_cutText (d := d.record ⟨.erase, before.extent, mid⟩)
    (by unfold Draft.record; split <;> exact ht) hs
  rw [ht, between_extent hs, resume_bind_ok (resume_require_ok _ d), resume_bind_ok (resume_record _ d), hcut]

/-- **All that an erase can do.** It is refused, it has nothing to erase, or it takes a text out
between two positions. -/
theorem erase_cases (d : Draft) (start stop : Coord) (hs : d.buffer.text.size < Text.capacity) :
    (∃ e, (erase start stop).resume d = (.error (.error e), d)) ∨
    (start = stop ∧ d.buffer.text.Valid start ∧ (erase start stop).resume d = (.ok start, d)) ∨
    ∃ before mid after, d.buffer.text = before ++ mid ++ after ∧ mid ≠ [] ∧ start = before.extent ∧
      stop = (before ++ mid).extent ∧
      (erase start stop).resume d = (.ok start,
        (d.record ⟨.erase, start, mid⟩).advance (before ++ after) ⟨.erase, start, stop⟩) := by
  rw [resume_erase_eq]
  cases hrefusal : d.buffer.refusal start stop with
  | some e => exact .inl ⟨e, rfl⟩
  | none =>
    obtain ⟨-, hv, hv', hle⟩ := Buffer.refusal_eq_none_iff.1 hrefusal
    by_cases heq : start = stop
    · exact .inr (.inl ⟨heq, hv, if_pos heq⟩)
    obtain ⟨before, mid, after, ht, rfl, rfl⟩ := Text.exists_pieces hv hv' hle
    have hmid : mid ≠ [] := by
      rintro rfl
      exact heq (by rw [List.append_nil])
    dsimp only
    rw [if_neg heq, resume_eraseBetween ht (ht ▸ hs)]
    exact .inr (.inr ⟨before, mid, after, ht, hmid, rfl, rfl, rfl⟩)

end EditM

end Caret
