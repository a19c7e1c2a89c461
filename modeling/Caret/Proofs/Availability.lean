import Caret.Proofs.Timeline

/-!
# What can be undone and redone

A buffer says beforehand whether there is something to undo and whether there is something to redo.
Both answers are right as long as groups are kept at all. With a depth of zero the open group counts
as something to undo, although the undo, which closes the group first, finds that it was dropped.

* `History.Bounded`: no more groups are kept for undo than the depth allows.
* `History.Bounded.popDone_isSome`, `History.popUndone_isSome`: when there is a group to take.
* `Draft.Sound.exists_undo`, `Draft.Sound.exists_redo`: an undo and a redo in a writable buffer.
* `Draft.undo_redo_as_told_iff`: how the answers compare with what was said, after any run.
-/

namespace Caret

namespace History

/-- **The limit of a history.** The undo stack holds no more groups than the depth allows. -/
structure Bounded (n : ℕ) (h : History) : Prop where
  depth : h.depth = n
  done : h.done.length ≤ n

variable {n : ℕ} {h : History} {ms : List RecordedEdit} {group : EditGroup}

theorem Bounded.records (hb : h.Bounded n) : (ms.foldl record h).Bounded n := by
  induction ms generalizing h with
  | nil => exact hb
  | cons m ms ih => exact ih ⟨hb.depth, hb.done⟩

theorem Bounded.pushDone (hb : h.Bounded n) (group : EditGroup) : (h.pushDone group).Bounded n := by
  refine ⟨hb.depth, ?_⟩
  have hle : (h.pushDone group).done.length ≤ h.depth := List.length_take_le _ _
  rwa [hb.depth] at hle

theorem Bounded.commit (hb : h.Bounded n) : h.commit.Bounded n := by
  have hclosed : Bounded n { h with current := [] } := ⟨hb.depth, hb.done⟩
  unfold History.commit
  split
  · exact hb
  · exact hclosed.pushDone h.current

theorem Bounded.popDone (hb : h.Bounded n) : h.popDone.2.Bounded n := by
  have hc := hb.commit
  cases hd : h.commit.done with
  | nil =>
    rw [popDone_of_nil hd]
    exact hc
  | cons group rest =>
    have hlen := hc.done
    rw [hd, List.length_cons] at hlen
    rw [popDone_of_cons hd]
    exact ⟨hc.depth, Nat.le_of_succ_le hlen⟩

theorem Bounded.popUndone (hb : h.Bounded n) : h.popUndone.2.Bounded n := by
  cases hu : h.undone with
  | nil =>
    rw [popUndone_of_nil hu]
    exact hb
  | cons group rest =>
    rw [popUndone_of_cons hu]
    exact ⟨hb.depth, hb.done⟩

theorem popDone_isSome_eq (h : History) : h.popDone.1.isSome = !h.commit.done.isEmpty := by
  cases hd : h.commit.done with
  | nil => rw [popDone_of_nil hd]; rfl
  | cons group rest => rw [popDone_of_cons hd]; rfl

/-- **There is a group to undo** when something is recorded and the depth leaves room for it. -/
theorem Bounded.popDone_isSome (hb : h.Bounded n) :
    h.popDone.1.isSome = (h.canUndo && decide (0 < n)) := by
  rw [popDone_isSome_eq, canUndo, History.commit]
  by_cases hc : h.current = []
  · -- nothing is closed, and a stack that holds something has room for it
    rw [if_pos (List.isEmpty_iff.2 hc), List.isEmpty_iff.2 hc]
    cases hd : h.done with
    | nil => rfl
    | cons group rest =>
      have hlen := hb.done
      rw [hd, List.length_cons] at hlen
      rw [decide_eq_true (Nat.zero_lt_of_lt hlen)]
      rfl
  · -- the group that is closed stays just when there is room for one
    have hempty : h.current.isEmpty = false := List.isEmpty_eq_false_iff.2 hc
    rw [hempty, if_neg Bool.false_ne_true, History.pushDone, hb.depth, Bool.not_false, Bool.or_true]
    cases n <;> rfl

/-- What is recorded and cannot be undone is an open group that there is no room for. -/
theorem Bounded.canUndo_and_eq_iff (hb : h.Bounded n) :
    (h.canUndo && decide (0 < n)) = h.canUndo ↔ 0 < n ∨ h.current = [] := by
  rcases Nat.eq_zero_or_pos n with rfl | hpos
  · have hdone : h.done = [] := List.eq_nil_of_length_eq_zero (Nat.le_zero.1 hb.done)
    simp [canUndo, hdone]
  · simp [hpos]

theorem popUndone_isSome (h : History) : h.popUndone.1.isSome = h.canRedo := by
  unfold canRedo
  cases hu : h.undone with
  | nil => rw [popUndone_of_nil hu]; rfl
  | cons group rest => rw [popUndone_of_cons hu]; rfl

end History

namespace Draft

variable {origin : Text} {noUndo : Bool} {d d' : Draft} {command : Command} {script : List Command}
  {n : ℕ}

/-- **An undo in a writable buffer** takes back the group that the history gives, if it gives one. -/
theorem Sound.exists_undo (hd : d.Sound origin noUndo)
    (hw : d.buffer.options.flags.readOnly = false) :
    ∃ d', EditM.undo.resume d = (.ok (d.buffer.history.popDone.1.map List.length), d') ∧
      d'.buffer.history = d.buffer.history.popDone.1.elim d.buffer.history.popDone.2
        d.buffer.history.popDone.2.pushUndone := by
  rcases hd.history.popDone hd.chronicle.size_lt with hp | ⟨group, h, s, hp, hs, hlead, -⟩
  · rw [hp]
    exact ⟨_, EditM.resume_undo_none hw hp, rfl⟩
  · obtain ⟨d', hr, -, -, hhistory, -, -⟩ := EditM.exists_resume_undo hd.chronicle hw hp hs hlead
    rw [hp]
    exact ⟨d', hr, hhistory⟩

/-- **A redo in a writable buffer** makes the group again that the history gives, if it gives one. -/
theorem Sound.exists_redo (hd : d.Sound origin noUndo)
    (hw : d.buffer.options.flags.readOnly = false) :
    ∃ d', EditM.redo.resume d = (.ok (d.buffer.history.popUndone.1.map List.length), d') ∧
      d'.buffer.history = d.buffer.history.popUndone.1.elim d.buffer.history.popUndone.2
        d.buffer.history.popUndone.2.pushDone := by
  rcases hd.history.popUndone hd.chronicle.size_lt with hp | ⟨group, h, s, hp, hlead, -⟩
  · rw [hp]
    exact ⟨_, EditM.resume_redo_none hw hp, rfl⟩
  · obtain ⟨d', hr, -, -, hhistory, -, -⟩ := EditM.exists_resume_redo hd.chronicle hw hp hlead
    rw [hp]
    exact ⟨d', hr, hhistory⟩

/-- **One command** keeps the limit. -/
theorem Sound.bounded_perform (hd : d.Sound origin noUndo) (hp : d.perform command = .ok d')
    (hb : d.buffer.history.Bounded n) : d'.buffer.history.Bounded n := by
  have hedit : command.IsEdit → d'.buffer.history.Bounded n := by
    intro hc
    obtain ⟨ms, hedited⟩ := exists_edited_of_perform hd.chronicle.size_lt hc hp
    rw [hedited.history]
    split
    · exact hb
    · exact hb.records
  cases command with
  | insert start new => exact hedit trivial
  | erase start stop => exact hedit trivial
  | replace start stop new => exact hedit trivial
  | commitGroup =>
    cases hp
    exact hb.commit
  | undo =>
    cases hro : d.buffer.options.flags.readOnly with
    | true =>
      obtain rfl := Timeline.eq_of_perform rfl (EditM.resume_undo_readOnly hro) hp
      exact hb
    | false =>
      obtain ⟨d₁, hr, hhistory⟩ := hd.exists_undo hro
      obtain rfl := Timeline.eq_of_perform rfl hr hp
      rw [hhistory]
      -- putting a group on the redo stack leaves the undo stack alone
      cases d.buffer.history.popDone.1 with
      | none => exact hb.popDone
      | some group => exact ⟨hb.popDone.depth, hb.popDone.done⟩
  | redo =>
    cases hro : d.buffer.options.flags.readOnly with
    | true =>
      obtain rfl := Timeline.eq_of_perform rfl (EditM.resume_redo_readOnly hro) hp
      exact hb
    | false =>
      obtain ⟨d₁, hr, hhistory⟩ := hd.exists_redo hro
      obtain rfl := Timeline.eq_of_perform rfl hr hp
      rw [hhistory]
      cases d.buffer.history.popUndone.1 with
      | none => exact hb.popUndone
      | some group => exact hb.popUndone.pushDone group
  | setFlags flags =>
    cases hp
    exact hb

/-- **Every run** keeps the limit. -/
theorem Sound.bounded_run (hd : d.Sound origin noUndo)
    (hk : ∀ command ∈ script, command.KeepsRecording noUndo) (hr : d.run script = .ok d')
    (hb : d.buffer.history.Bounded n) : d'.buffer.history.Bounded n := by
  have hboth : d'.Sound origin noUndo ∧ d'.buffer.history.Bounded n :=
    Fault.foldlM_keeps (P := fun d : Draft => d.Sound origin noUndo ∧ d.buffer.history.Bounded n)
      (fun _ command hmem _ h hp =>
        ⟨h.1.perform (hk command hmem) hp, h.1.bounded_perform hp h.2⟩) ⟨hd, hb⟩ hr
  exact hboth.2

/-- **What can be undone and redone.** After any run, in a writable buffer, an undo and a redo both
come to an answer. The redo has something to do exactly when it was said beforehand. The undo has
something to do exactly when it was said and groups are kept at all, so that what was said is wrong
only about an open group that there is no room for. -/
theorem undo_redo_as_told_iff (id : BufferId) {options : Options} (hsize : origin.size < Text.capacity)
    (hk : ∀ command ∈ script, command.KeepsRecording options.flags.noUndo)
    (hr : Draft.run { buffer := Buffer.ofText id origin options } script = .ok d)
    (hw : d.buffer.options.flags.readOnly = false) :
    (∃ undone d', EditM.undo.resume d = (.ok undone, d') ∧
      undone.isSome = (d.buffer.canUndo && decide (0 < options.maxHistory)) ∧
      (undone.isSome = d.buffer.canUndo ↔
        0 < options.maxHistory ∨ d.buffer.history.current = [])) ∧
    ∃ redone d', EditM.redo.resume d = (.ok redone, d') ∧ redone.isSome = d.buffer.canRedo := by
  have hstart := sound_ofText id options hsize
  have hsound := hstart.run hk hr
  have hbounded : d.buffer.history.Bounded options.maxHistory :=
    hstart.bounded_run hk hr ⟨rfl, Nat.zero_le _⟩
  obtain ⟨d₁, hundo, -⟩ := hsound.exists_undo hw
  obtain ⟨d₂, hredo, -⟩ := hsound.exists_redo hw
  have hundone := hbounded.popDone_isSome
  have hredone := d.buffer.history.popUndone_isSome
  rw [← Option.isSome_map (f := List.length)] at hundone hredone
  refine ⟨⟨_, d₁, hundo, hundone, ?_⟩, _, d₂, hredo, hredone⟩
  rw [hundone]
  exact hbounded.canUndo_and_eq_iff

/-- One group is kept. Of the two that were closed the second one was undone and made again, so that
there is something to undo and nothing to redo. -/
theorem undo_redo_as_told_iff_sample :
    Timeline.sample.buffer.canUndo = true ∧ Timeline.sample.buffer.canRedo = false ∧
      (∃ undone d, EditM.undo.resume Timeline.sample = (.ok undone, d) ∧ undone.isSome = true) ∧
      ∃ redone d, EditM.redo.resume Timeline.sample = (.ok redone, d) ∧ redone.isSome = false := by
  have hsize : Text.size ['a', 'b'] < Text.capacity := by decide
  have hk : ∀ command ∈ Timeline.sampleScript,
      command.KeepsRecording ({ maxHistory := 1 } : Options).flags.noUndo := by
    simp [Timeline.sampleScript, Command.KeepsRecording]
  have hrun : Draft.run { buffer := Buffer.ofText 0 ['a', 'b'] { maxHistory := 1 } }
      Timeline.sampleScript = .ok Timeline.sample := by decide +kernel
  have hw : Timeline.sample.buffer.options.flags.readOnly = false := by decide +kernel
  have hundo : Timeline.sample.buffer.canUndo = true := by decide +kernel
  have hredo : Timeline.sample.buffer.canRedo = false := by decide +kernel
  obtain ⟨⟨undone, d₁, hr₁, -, hiff⟩, redone, d₂, hr₂, htold⟩ :=
    undo_redo_as_told_iff 0 hsize hk hrun hw
  exact ⟨hundo, hredo, ⟨undone, d₁, hr₁, (hiff.2 (.inl Nat.one_pos)).trans hundo⟩,
    redone, d₂, hr₂, htold.trans hredo⟩

/-- Without room for a single group there is something to undo, it is said, after an insertion. The
undo finds nothing, leaves the text as it is, and from then on nothing more is said to be there. -/
theorem not_undo_as_told :
    ∃ (origin : Text) (options : Options) (script : List Command) (d d' : Draft),
      origin.size < Text.capacity ∧
      (∀ command ∈ script, command.KeepsRecording options.flags.noUndo) ∧
      Draft.run { buffer := Buffer.ofText 0 origin options } script = .ok d ∧
      d.buffer.options.flags.readOnly = false ∧ d.buffer.canUndo = true ∧
      EditM.undo.resume d = (.ok none, d') ∧ d'.buffer.text = d.buffer.text ∧
      d'.buffer.canUndo = false := by
  refine ⟨[], { maxHistory := 0 }, [.insert ⟨0, 0⟩ ['a']], _, _, by decide, ?_, rfl, rfl, rfl, rfl,
    rfl, rfl⟩
  simp [Command.KeepsRecording]

end Draft

end Caret
