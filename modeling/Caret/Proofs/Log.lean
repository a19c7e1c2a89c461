import Caret.Proofs.Continuation
import Caret.Proofs.Edited

/-!
# The log and the texts

The log of a buffer says exactly how each text of a run became the next one. Nothing changes the
text without being logged, and each command logs as many changes as it is made up of.

* `Change.Describes`: what a change says of the texts around it.
* `Change.Takes.describes`: every change between two texts of a run says so.
* `Command.changes`: how many changes a command is made up of.
* `Reached.logTells`: the log of a run.
-/

namespace Caret

/-- The text without the part between two coordinates. -/
def Text.without (t : Text) (start stop : Coord) : Except Fault Text := do
  t.removeRange (← t.offset start) (← t.offset stop)

theorem Text.without_extent {before mid after : Text}
    (hs : (before ++ mid ++ after).size < capacity) :
    (before ++ mid ++ after).without before.extent (before ++ mid).extent = .ok (before ++ after) := by
  have hstart : (before ++ mid ++ after).offset before.extent = .ok before.size := by
    rw [List.append_assoc] at hs ⊢
    exact offset_extent hs
  have hstop : (before ++ mid ++ after).offset (before ++ mid).extent = .ok (before ++ mid).size :=
    offset_extent hs
  unfold without
  rw [hstart, hstop, Fault.ok_bind, Fault.ok_bind, EditM.removeRange_append]

/-- **What a change says of the texts around it.** It is not empty and begins at a position of both.
It ends at a position of the longer one, and that one without the part in between is the other. -/
def Change.Describes (change : Change) (pre post : Text) : Prop :=
  change.start < change.stop ∧ pre.Valid change.start ∧ post.Valid change.start ∧
    match change.kind with
    | .insert => post.Valid change.stop ∧ post.without change.start change.stop = .ok pre
    | .erase => pre.Valid change.stop ∧ pre.without change.start change.stop = .ok post

theorem Change.Takes.describes {change : Change} {pre post : Text} (h : change.Takes pre post)
    (hpre : pre.size < Text.capacity) (hpost : post.size < Text.capacity) :
    change.Describes pre post := by
  have hlt := h.start_lt_stop
  have hstart (before mid after : Text) : (before ++ mid ++ after).Valid before.extent := by
    rw [List.append_assoc]
    exact Text.valid_extent_append before (mid ++ after)
  cases h with
  | insert before mid after hmid =>
    have hpre' := Text.valid_extent_append before after
    have hstop := Text.valid_extent_append (before ++ mid) after
    exact ⟨hlt, hpre', hstart before mid after, hstop, Text.without_extent hpost⟩
  | erase before mid after hmid =>
    have hpost' := Text.valid_extent_append before after
    have hstop := Text.valid_extent_append (before ++ mid) after
    exact ⟨hlt, hstart before mid after, hpost', hstop, Text.without_extent hpre⟩

/-! ## How many changes a command makes -/

namespace Buffer

/-- What an undo answers: the number of edits of the last group that was not undone. -/
def undoAnswer (b : Buffer) : Option ℕ :=
  if b.options.flags.readOnly then none else b.history.popDone.1.map List.length

/-- What a redo answers: the number of edits of the last group that was undone. -/
def redoAnswer (b : Buffer) : Option ℕ :=
  if b.options.flags.readOnly then none else b.history.popUndone.1.map List.length

end Buffer

/-- How many changes a command is made up of. -/
def Command.changes (b : Buffer) : Command → ℕ
  | .insert _ new => if new = [] then 0 else 1
  | .erase start stop => if start = stop then 0 else 1
  | .replace start stop new => (if start = stop then 0 else 1) + (if new = [] then 0 else 1)
  | .undo => b.undoAnswer.getD 0
  | .redo => b.redoAnswer.getD 0
  | .commitGroup => 0
  | .setFlags _ => 0

namespace EditM

variable {origin : Text} {noUndo : Bool} {d d' : Draft} {command : Command} {e : EditError}

/-- **An undo logs as many changes as it answers**, and is never refused. -/
theorem exists_undo (hd : d.Sound origin noUndo) :
    ∃ d', undo.resume d = (.ok d.buffer.undoAnswer, d') ∧
      d'.buffer.timestamp = d.buffer.timestamp + d.buffer.undoAnswer.getD 0 := by
  have hs := hd.chronicle.size_lt
  unfold Buffer.undoAnswer
  cases hro : d.buffer.options.flags.readOnly with
  | true => exact ⟨d, resume_undo_readOnly hro, rfl⟩
  | false =>
    rcases hd.history.popDone hs with hp | ⟨group, h, s, hp, hsb, hl, -⟩
    · rw [hp]
      exact ⟨_, resume_undo_none hro hp, rfl⟩
    · obtain ⟨d', hr, -, -, -, -, hn⟩ := exists_resume_undo hd.chronicle hro hp hsb hl
      rw [hp]
      exact ⟨d', hr, hn⟩

/-- **A redo logs as many changes as it answers**, and is never refused. -/
theorem exists_redo (hd : d.Sound origin noUndo) :
    ∃ d', redo.resume d = (.ok d.buffer.redoAnswer, d') ∧
      d'.buffer.timestamp = d.buffer.timestamp + d.buffer.redoAnswer.getD 0 := by
  have hs := hd.chronicle.size_lt
  unfold Buffer.redoAnswer
  cases hro : d.buffer.options.flags.readOnly with
  | true => exact ⟨d, resume_redo_readOnly hro, rfl⟩
  | false =>
    rcases hd.history.popUndone hs with hp | ⟨group, h, s, hp, hl, -⟩
    · rw [hp]
      exact ⟨_, resume_redo_none hro hp, rfl⟩
    · obtain ⟨d', hr, -, -, -, -, hn⟩ := exists_resume_redo hd.chronicle hro hp hl
      rw [hp]
      exact ⟨d', hr, hn⟩

/-- **A command that is carried out** logs all the changes that it is made up of. -/
theorem timestamp_of_act (hd : d.Sound origin noUndo) (h : command.act.resume d = (.ok (), d')) :
    d'.buffer.timestamp = d.buffer.timestamp + command.changes d.buffer := by
  have hs := hd.chronicle.size_lt
  cases command with
  | insert start new =>
    obtain ⟨span, hr⟩ := exists_of_resume_discard h
    obtain ⟨ms, hlen, hedited⟩ := edited_of_insert hs hr
    rw [hedited.timestamp, hlen]
    rfl
  | erase start stop =>
    obtain ⟨c, hr⟩ := exists_of_resume_discard h
    obtain ⟨-, -, ms, hlen, hedited⟩ := edited_of_erase hs hr
    rw [hedited.timestamp, hlen]
    rfl
  | replace start stop new =>
    obtain ⟨span, hr⟩ := exists_of_resume_discard h
    obtain ⟨ms, hlen, hedited⟩ := edited_of_replace hs hr
    rw [hedited.timestamp, hlen]
    rfl
  | commitGroup =>
    cases h
    rfl
  | undo =>
    obtain ⟨answer, hr⟩ := exists_of_resume_discard h
    obtain ⟨d₁, hr₁, hn⟩ := exists_undo hd
    rw [hr] at hr₁
    cases hr₁
    exact hn
  | redo =>
    obtain ⟨answer, hr⟩ := exists_of_resume_discard h
    obtain ⟨d₁, hr₁, hn⟩ := exists_redo hd
    rw [hr] at hr₁
    cases hr₁
    exact hn
  | setFlags flags =>
    cases h
    rfl

/-- **A command that is refused** leaves no trace. -/
theorem eq_of_act_refused (hd : d.Sound origin noUndo)
    (h : command.act.resume d = (.error (.error e), d')) : d' = d := by
  have hs := hd.chronicle.size_lt
  cases command with
  | insert start new => exact (eq_of_insert_refused hs (resume_of_discard_error h)).1
  | erase start stop => exact eq_of_erase_refused hs (resume_of_discard_error h)
  | replace start stop new => exact eq_of_replace_refused hs (resume_of_discard_error h)
  | commitGroup => cases h
  | undo =>
    have hr := resume_of_discard_error h
    obtain ⟨d₁, hr₁, -⟩ := exists_undo hd
    rw [hr] at hr₁
    cases hr₁
  | redo =>
    have hr := resume_of_discard_error h
    obtain ⟨d₁, hr₁, -⟩ := exists_redo hd
    rw [hr] at hr₁
    cases hr₁
  | setFlags flags => cases h

end EditM

/-! ## The log of a run -/

/-- **What a log tells.** -/
structure LogTells (origin : Text) (d : Draft) : Prop where
  /-- The log begins at the text that the run began with and ends at the present one. -/
  first : d.textAt origin 0 = origin
  last : d.textAt origin d.buffer.timestamp = d.buffer.text
  /-- Each change describes how the text before it became the text after it. -/
  describes : ∀ i (change : Change), d.buffer.log[i]? = some change →
    change.Describes (d.textAt origin i) (d.textAt origin (i + 1))
  /-- A command that is carried out adds the changes that it is made up of. Where there are none, the
  text stays as it is. -/
  carriedOut : ∀ (command : Command) (d' : Draft),
    command.KeepsRecording d.buffer.options.flags.noUndo → command.act.resume d = (.ok (), d') →
      d.buffer.log <+: d'.buffer.log ∧
        d'.buffer.timestamp = d.buffer.timestamp + command.changes d.buffer ∧
        (d'.buffer.timestamp = d.buffer.timestamp → d'.buffer.text = d.buffer.text)
  /-- A command that is refused leaves no trace. -/
  refused : ∀ (command : Command) (e : EditError) (d' : Draft),
    command.act.resume d = (.error (.error e), d') → d' = d
  /-- An undo and a redo answer with the number of edits in the group and add as many changes. -/
  undo : ∃ d', EditM.undo.resume d = (.ok d.buffer.undoAnswer, d') ∧
    d'.buffer.timestamp = d.buffer.timestamp + d.buffer.undoAnswer.getD 0
  redo : ∃ d', EditM.redo.resume d = (.ok d.buffer.redoAnswer, d') ∧
    d'.buffer.timestamp = d.buffer.timestamp + d.buffer.redoAnswer.getD 0

namespace Reached

variable {origin : Text} {d d' : Draft}

/-- Moments of a run with the same timestamp have the same text. -/
theorem text_eq_of_timestamp_eq (h : Reached origin d) (h' : Reached origin d')
    (he : d.Extends d') (ht : d'.buffer.timestamp = d.buffer.timestamp) :
    d'.buffer.text = d.buffer.text := by
  have hthen := h.textAt_eq he le_rfl
  have hlast := h.chronicle.last
  have hlast' := h'.chronicle.last
  rw [← hlast', ht, hthen, hlast]

/-- **The log of a run describes its texts**, from the one that the run began with to the present
one, and whatever is done next adds to it what it does to the text. -/
theorem logTells (h : Reached origin d) : LogTells origin d where
  first := rfl
  last := h.chronicle.last
  describes i change hi := by
    have hlt : i < d.buffer.timestamp := (List.getElem?_eq_some_iff.1 hi).1
    have hpre := h.chronicle.small i hlt.le
    have hpost := h.chronicle.small (i + 1) hlt
    exact (h.chronicle.step i change hi).describes hpre hpost
  carriedOut command d' hk hr := by
    have hp : d.perform command = .ok d' := by
      unfold Draft.perform
      rw [hr]
    have hext := Draft.perform_extends hp
    have hreached := (h.perform hk hp).1
    exact ⟨hext.log, EditM.timestamp_of_act h.sound hr, h.text_eq_of_timestamp_eq hreached hext⟩
  refused command e d' hr := EditM.eq_of_act_refused h.sound hr
  undo := EditM.exists_undo h.sound
  redo := EditM.exists_redo h.sound

theorem logTells_sample :
    sample.buffer.log = [⟨.insert, ⟨0, 1⟩, ⟨1, 0⟩⟩, ⟨.erase, ⟨0, 0⟩, ⟨1, 0⟩⟩,
        ⟨.insert, ⟨0, 0⟩, ⟨1, 0⟩⟩] ∧
      Change.Describes ⟨.erase, ⟨0, 0⟩, ⟨1, 0⟩⟩ ['a', 'x', '\n', 'b'] ['b'] ∧
      ∃ d', EditM.undo.resume sample = (.ok (some 1), d') ∧ d'.buffer.timestamp = 4 := by
  have htells := Reached.logTells Reached.of_script
  have hdescribes := htells.describes 1 ⟨.erase, ⟨0, 0⟩, ⟨1, 0⟩⟩ rfl
  obtain ⟨d', hr, hn⟩ := htells.undo
  exact ⟨rfl, hdescribes, d', hr, hn⟩

end Reached

end Caret
