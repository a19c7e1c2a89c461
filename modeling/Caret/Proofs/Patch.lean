import Caret.Proofs.Alignment
import Caret.Proofs.Run

/-!
# Line modifications of a run

The records of a change say which lines of the text give way to which others. Folded over the log
they account for how the lines of any earlier time became the present ones.

* `Text.line?_append_left`, `Text.line?_append_right`: the lines of two texts put together.
* `Change.Takes.exists_steps`, `Trail.exists_steps`: one change and a stretch of the log keep the
  modifications aligned with the lines.
* `Reached.exists_lineModifications`: the line modifications since any timestamp of a run.
-/

namespace Caret

namespace Text

/-! ## Lines of texts put together -/

theorem lineCount_append (s x : Text) : (s ++ x).lineCount = s.extent.line + x.lineCount := by
  induction s with
  | nil => exact (Nat.zero_add _).symm
  | cons c s ih =>
    rw [List.cons_append, lineCount_cons, ih]
    by_cases h : c = '\n'
    · subst h
      rw [if_pos rfl, extent_newline]
      dsimp only
      omega
    · rw [if_neg h, extent_cons_line h]
      rfl

theorem lineCount_eq (t : Text) : t.lineCount = t.extent.line + 1 := by
  have h := lineCount_append t []
  rwa [List.append_nil] at h

/-- The lines that end within the first of two texts are its own. -/
theorem line?_append_left (s x : Text) {n : ℕ} (h : n < s.extent.line) :
    (s ++ x).line? n = s.line? n := by
  induction s generalizing n with
  | nil => exact absurd h (Nat.not_lt_zero n)
  | cons c s ih =>
    by_cases hc : c = '\n'
    · subst hc
      cases n with
      | zero => rw [line?_zero, line?_zero]; rfl
      | succ n =>
        rw [extent_newline] at h
        rw [List.cons_append, line?_newline_succ, line?_newline_succ, ih (Nat.lt_of_succ_lt_succ h)]
    · rw [extent_cons_line hc] at h
      cases n with
      | zero =>
        have := ih h
        rw [line?_zero, line?_zero, Option.some_inj] at this
        rw [List.cons_append, line?_zero, line?_zero, List.takeWhile_cons, this, List.takeWhile_cons]
      | succ n => rw [List.cons_append, line?_cons_succ hc, line?_cons_succ hc, ih h]

/-- The lines that begin within the second of two texts are its own. -/
theorem line?_append_right (s x : Text) {n : ℕ} (h : s.extent.column = 0 ∨ 0 < n) :
    (s ++ x).line? (s.extent.line + n) = x.line? n := by
  induction s with
  | nil => rw [extent_nil, Coord.zero_line, Nat.zero_add, List.nil_append]
  | cons c s ih =>
    by_cases hc : c = '\n'
    · subst hc
      rw [extent_newline] at h ⊢
      dsimp only
      rw [Nat.add_right_comm, List.cons_append, line?_newline_succ, ih h]
    · have hpos := c.utf8Size_pos
      rw [extent_cons_column hc] at h
      rw [extent_cons_line hc, List.cons_append]
      -- the first line does not begin behind a character that is not a newline
      obtain ⟨k, hk⟩ : ∃ k, (extent s).line + n = k + 1 :=
        Nat.exists_eq_succ_of_ne_zero (by split at h <;> omega)
      rw [hk, line?_cons_succ hc, ← hk]
      exact ih (by split at h <;> omega)

/-! ## Splices -/

/-- The lines of a text by number. -/
def byLine (t : Text) : Lines Text := ⟨fun n => (t.line? n).getD [], t.lineCount⟩

/-- The lines of a text. -/
def lines (t : Text) : List Text := (List.range t.lineCount).map fun n => (t.line? n).getD []

/-- A text put in between whole lines adds lines. Put in within a line it replaces that one. -/
theorem spliced {before mid : Text} (after : Text) {k : ℕ} (hk : k ≤ 1)
    (hstart : before.extent.column = 0 ∨ 0 < k) (hstop : (before ++ mid).extent.column = 0 ∨ 0 < k) :
    Lines.Spliced (before ++ after).byLine (before ++ mid ++ after).byLine before.extent.line k
      ((before ++ mid).extent.line - before.extent.line + k) := by
  have hle : before.extent.line ≤ (before ++ mid).extent.line := by
    rw [extent_append, Coord.add_line]
    exact Nat.le_add_right _ _
  have hafter : 0 < after.lineCount := Nat.succ_pos _
  refine ⟨?_, ?_, ?_, ?_⟩
  · intro i hi
    dsimp only [byLine]
    rw [List.append_assoc, line?_append_left _ _ hi, line?_append_left _ _ hi]
  · intro i
    dsimp only [byLine]
    rw [show before.extent.line + ((before ++ mid).extent.line - before.extent.line + k) + i =
        (before ++ mid).extent.line + (k + i) by omega, Nat.add_assoc before.extent.line,
      line?_append_right _ _ (hstop.imp_right (Nat.add_pos_left · i)),
      line?_append_right _ _ (hstart.imp_right (Nat.add_pos_left · i))]
  · dsimp only [byLine]
    rw [lineCount_append]
    omega
  · dsimp only [byLine]
    rw [lineCount_append, lineCount_append]
    omega

/-- A text within capacity has no more lines than there are signed numbers. -/
theorem lineCount_le {t : Text} (h : t.size < capacity) : t.lineCount ≤ Count.signedBound := by
  have hcount := lineCount_append t []
  have hsize := extent_le_size t
  rw [List.append_nil] at hcount
  have : lineCount [] = 1 := rfl
  unfold capacity at h
  omega

/-- How many lines a change within capacity spans, whole lines or not. -/
theorem lines_lt {before mid : Text} (hmid : mid ≠ []) (h : (before ++ mid).size < capacity) :
    before.extent.line ≤ (before ++ mid).extent.line ∧
      if before.extent.column = 0 ∧ (before ++ mid).extent.column = 0 then
        before.extent.line < (before ++ mid).extent.line ∧
          (before ++ mid).extent.line - before.extent.line < Count.signedBound
      else (before ++ mid).extent.line - before.extent.line + 1 < Count.signedBound := by
  have hlt := Coord.lt_def.1 (extent_lt_append before hmid)
  have hbefore := extent_le_size before
  have hall := extent_le_size (before ++ mid)
  have hsize := extent_le_size mid
  have hline : (before ++ mid).extent.line = before.extent.line + mid.extent.line := by
    rw [extent_append, Coord.add_line]
  rw [size_append] at h hall
  unfold capacity at h
  -- an end within a line takes up a byte that is not a newline
  refine ⟨by omega, ?_⟩
  split <;> omega

end Text

/-! ## Records of a change -/

namespace LineRecord

theorem inserted_eq {line count : ℕ} (h : count < Count.signedBound) :
    inserted line count = .ok ⟨line, count⟩ := by
  unfold inserted
  rw [Count.signed_of_lt h]

theorem removed_eq {line count : ℕ} (h : count < Count.signedBound) :
    removed line count = .ok ⟨line, -count⟩ := by
  unfold removed
  rw [Count.signed_of_lt h, Count.neg_of_lt (by omega)]
  rfl

end LineRecord

open LineModification Lines

variable {a : Lines Text} {s t origin : Text} {mods : List LineModification} {change : Change}
  {log : List Change}

/-- **One change.** Its records keep the modifications aligned with the lines. -/
theorem Change.Takes.exists_steps (h : change.Takes s t) (ha : a.count ≤ Count.signedBound)
    (hs : s.size < Text.capacity) (ht : t.size < Text.capacity) (htracks : Tracks a s.byLine mods) :
    ∃ records mods', LineRecord.ofChange change = .ok records ∧ steps mods records = .ok mods' ∧
      Tracks a t.byLine mods' := by
  have hle : s.byLine.count ≤ Count.signedBound := Text.lineCount_le hs
  have hle' : t.byLine.count ≤ Count.signedBound := Text.lineCount_le ht
  have hbounded : Bounded a s.byLine mods := .of_le ha hle
  have hbounded' : Bounded a t.byLine mods := .of_le ha hle'
  cases h with
  | insert before mid after hmid =>
    -- an insert is measured in the text after it
    obtain ⟨hlines', hlines⟩ := Text.lines_lt hmid (Text.size_append_lt ht).1
    unfold LineRecord.ofChange
    dsimp only
    rw [Count.sub_of_le hlines', Fault.ok_bind]
    split at hlines
    · rename_i hwhole
      rw [if_pos hwhole, LineRecord.inserted_eq hlines.2]
      obtain ⟨mods', hmods, htracks', -⟩ := exists_steps_insert htracks hbounded hbounded'.new_lt
        (Text.spliced after (Nat.zero_le 1) (.inl hwhole.1) (.inl hwhole.2)) (by omega)
      exact ⟨_, mods', rfl, hmods, htracks'⟩
    · rename_i hwhole
      rw [if_neg hwhole, LineRecord.removed_eq (by decide), Fault.ok_bind, Count.add_of_lt (by
        have := Count.signedBound_add_self
        omega), Fault.ok_bind, LineRecord.inserted_eq hlines]
      obtain ⟨mods', hmods, htracks'⟩ := exists_steps_replace htracks ha hle hle'
        (Text.spliced after le_rfl (.inr Nat.one_pos) (.inr Nat.one_pos)) Nat.one_pos (by omega)
      exact ⟨_, mods', rfl, hmods, htracks'⟩
  | erase before mid after hmid =>
    -- an erase is measured in the text before it, and takes the splice back
    obtain ⟨hlines', hlines⟩ := Text.lines_lt hmid (Text.size_append_lt hs).1
    unfold LineRecord.ofChange
    dsimp only
    rw [Count.sub_of_le hlines', Fault.ok_bind]
    split at hlines
    · rename_i hwhole
      rw [if_pos hwhole, LineRecord.removed_eq hlines.2]
      obtain ⟨mods', hmods, htracks', -⟩ := exists_steps_remove htracks hbounded
        (Text.spliced after (Nat.zero_le 1) (.inl hwhole.1) (.inl hwhole.2)).symm (by omega)
      exact ⟨_, mods', rfl, hmods, htracks'⟩
    · rename_i hwhole
      rw [if_neg hwhole, Count.add_of_lt (by
        have := Count.signedBound_add_self
        omega), Fault.ok_bind, LineRecord.removed_eq hlines, Fault.ok_bind,
        LineRecord.inserted_eq (by decide)]
      obtain ⟨mods', hmods, htracks'⟩ := exists_steps_replace htracks ha hle hle'
        (Text.spliced after le_rfl (.inr Nat.one_pos) (.inr Nat.one_pos)).symm (by omega) Nat.one_pos
      exact ⟨_, mods', rfl, hmods, htracks'⟩

/-- **A stretch of the log.** -/
theorem Trail.exists_steps (h : Trail s log t) (ha : a.count ≤ Count.signedBound)
    (hs : s.size < Text.capacity)
    (htracks : Tracks a s.byLine mods) :
    ∃ records mods', logRecords log = .ok records ∧ steps mods records = .ok mods' ∧
      Tracks a t.byLine mods' := by
  induction log generalizing s mods with
  | nil => exact ⟨[], mods, rfl, rfl, h ▸ htracks⟩
  | cons change log ih =>
    obtain ⟨u, hu, hsize, h⟩ := h
    obtain ⟨first, mods₁, hfirst, hmods₁, htracks₁⟩ := hu.exists_steps ha hs hsize htracks
    obtain ⟨rest, mods', hrest, hmods', htracks'⟩ := ih h hsize htracks₁
    obtain ⟨records, hrecords, hflat⟩ := Fault.bind_eq_ok.1 hrest
    refine ⟨first ++ rest, mods', ?_, (steps_append hmods₁).trans hmods', htracks'⟩
    unfold logRecords
    rw [List.mapM_cons, hfirst, Fault.ok_bind, hrecords, Fault.ok_bind]
    exact congrArg (fun rest => Except.ok (first ++ rest)) (Except.ok.inj hflat)

/-- Lines that have not changed yet. -/
theorem Text.tracks_nil (s : Text) : Tracks s.byLine s.byLine [] :=
  Tracks.nil (Nat.succ_pos _)

/-- **The line modifications since any timestamp of a run.** There is no fault in working them out,
and they account for how the lines of that time became the present ones. -/
theorem Reached.exists_lineModifications {d : Draft} {timestamp : ℕ} (h : Reached origin d)
    (ht : timestamp ≤ d.buffer.timestamp) :
    ∃ mods, d.buffer.lineModifications timestamp = .ok mods ∧
      Patches (d.textAt origin timestamp).lines d.buffer.text.lines mods := by
  have hc := h.chronicle
  have hsize := hc.small timestamp ht
  obtain ⟨records, mods, hrecords, hmods, htracks⟩ :=
    (hc.trail_since ht).exists_steps (Text.lineCount_le hsize) hsize (Text.tracks_nil _)
  refine ⟨_, ?_, htracks.aligned.patches⟩
  unfold Buffer.lineModifications LineModification.fold
  rw [Buffer.logSince_eq ht, Fault.ok_bind, hrecords, Fault.ok_bind]
  unfold steps at hmods
  rw [hmods]
  rfl

theorem Reached.exists_lineModifications_sample :
    Reached.sample.buffer.lineModifications 0 = .ok [⟨0, 0, 1, 2⟩] ∧
      Patches [['a', 'b']] [['a', 'x'], ['b']] [⟨0, 0, 1, 2⟩] := by
  obtain ⟨mods, hmods, hpatches⟩ :=
    Reached.exists_lineModifications Reached.of_script (Nat.zero_le _)
  have heval : Reached.sample.buffer.lineModifications 0 = .ok [⟨0, 0, 1, 2⟩] := by decide
  cases hmods.symm.trans heval
  exact ⟨heval, hpatches⟩

end Caret
