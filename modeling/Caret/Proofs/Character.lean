import Caret.Proofs.Extent

/-!
# Stepping through a text

Positions by number, seen from the operations that go to the next or the previous character, to the
end of the text, or from any coordinate to a position close by.

* `Text.nextCoord_position`, `Text.previousCoord_position`: one character on, one character back.
* `Text.endCoord_eq`: the end of a text is its extent.
* `Text.valid_clamp`, `Text.clamp_le_clamp`: clamping leads to positions, and on lines that exist it
  keeps the order.
-/

namespace Caret

namespace Text

/-! ## Characters by byte offset -/

/-- Every byte of a character belongs to its start. -/
theorem characterStart_add (before after : Text) (c : Char) {k : ℕ} (hk : k < c.utf8Size) :
    (before ++ c :: after).characterStart (before.size + k) = before.size := by
  induction before with
  | nil => simp [characterStart, hk]
  | cons d before ih =>
    have hsub : d.utf8Size + size before + k - d.utf8Size = size before + k := by omega
    rw [List.cons_append, size_cons, characterStart, if_neg (by omega), hsub, ih]

/-- Where a beginning of a text ends, a character starts, or the text ends. -/
theorem characterStart_size (before after : Text) :
    (before ++ after).characterStart before.size = before.size := by
  cases after with
  | cons c after => exact characterStart_add before after c c.utf8Size_pos
  | nil =>
    induction before with
    | nil => rfl
    | cons d before ih =>
      rw [List.cons_append, size_cons, characterStart, if_neg (by omega), Nat.add_sub_cancel_left, ih]

/-- The start of a character is where a beginning of the text ends. -/
theorem exists_characterStart (t : Text) (n : ℕ) :
    ∃ before after, t = before ++ after ∧ t.characterStart n = before.size := by
  induction t generalizing n with
  | nil => exact ⟨[], [], rfl, rfl⟩
  | cons c t ih =>
    by_cases h : n < c.utf8Size
    · exact ⟨[], c :: t, rfl, if_pos h⟩
    · obtain ⟨before, after, rfl, hstart⟩ := ih (n - c.utf8Size)
      exact ⟨c :: before, after, rfl, by rw [characterStart, if_neg h, hstart, size_cons]⟩

theorem characterStart_le (t : Text) (n : ℕ) : t.characterStart n ≤ n := by
  induction t generalizing n with
  | nil => exact Nat.zero_le n
  | cons c t ih =>
    have hrest := ih (n - c.utf8Size)
    rw [characterStart]
    split <;> omega

theorem characterStart_mono (t : Text) : Monotone t.characterStart := by
  induction t with
  | nil => exact fun _ _ _ => le_rfl
  | cons c t ih =>
    intro m n hmn
    have hrest := ih (Nat.sub_le_sub_right hmn c.utf8Size)
    simp only [characterStart]
    split <;> split <;> omega

theorem next_size (before after : Text) (c : Char) :
    (before ++ c :: after).next before.size = (before ++ [c]).size := by
  induction before with
  | nil => simp [next, c.utf8Size_pos]
  | cons d before ih =>
    rw [List.cons_append, size_cons, next, if_neg (by omega), Nat.add_sub_cancel_left, ih,
      List.cons_append, size_cons]

theorem next_size_self (t : Text) : t.next t.size = t.size := by
  induction t with
  | nil => rfl
  | cons c t ih => rw [size_cons, next, if_neg (by omega), Nat.add_sub_cancel_left, ih]

theorem previous_size (before after : Text) (c : Char) :
    (before ++ c :: after).previous (before ++ [c]).size = before.size := by
  have hpos := c.utf8Size_pos
  have hbehind : (before ++ [c]).size - 1 = before.size + (c.utf8Size - 1) := by
    rw [size_append, size_cons, size_nil]
    omega
  have hstart := characterStart_size (before ++ [c]) after
  rw [List.append_assoc, List.singleton_append] at hstart
  rw [previous, hstart, hbehind, characterStart_add before after c (by omega)]

/-! ## Positions -/

section

variable {t : Text} {i : ℕ}

theorem offset_position (hs : t.size < capacity) (i : ℕ) :
    t.offset (t.position i) = .ok (size (t.take i)) := by
  rw [← List.take_append_drop i t] at hs
  have hoffset := offset_extent hs
  rwa [List.take_append_drop] at hoffset

theorem coordAt_take (t : Text) (i : ℕ) : t.coordAt (size (t.take i)) = t.position i := by
  have hcoord := coordAt_size (t.take i) (t.drop i)
  rwa [List.take_append_drop] at hcoord

theorem position_length (t : Text) : t.position t.length = t.extent := by
  rw [position, List.take_length]

theorem position_of_le (h : t.length ≤ i) : t.position i = t.extent := by
  rw [position, List.take_of_length_le h]

/-- **One character on.** The end of the text is its own successor. -/
theorem nextCoord_position (hs : t.size < capacity) (hi : i ≤ t.length) :
    t.nextCoord (t.position i) = .ok (t.position (i + 1)) := by
  have hnext : t.next (size (t.take i)) = size (t.take (i + 1)) := by
    rcases hi.eq_or_lt with rfl | hlt
    · rw [List.take_length, List.take_of_length_le (Nat.le_succ _), next_size_self]
    · have hsplit := List.take_append_drop i t
      rw [List.drop_eq_getElem_cons hlt] at hsplit
      have hstep := next_size (t.take i) (t.drop (i + 1)) t[i]
      rwa [hsplit, ← List.take_succ_eq_append_getElem hlt] at hstep
  rw [nextCoord, offset_position hs, Fault.ok_bind, hnext, coordAt_take, Fault.pure_eq_ok]

/-- **The next character** is at or in front of all positions further on. -/
theorem nextCoord_le {t : Text} {c d e : Coord} (ht : t.size < capacity) (hc : t.Valid c) (hd : t.Valid d)
    (hnext : t.nextCoord c = .ok e) (hlt : c < d) : c < e ∧ e ≤ d := by
  obtain ⟨i, hi, rfl⟩ := valid_iff.1 hc
  obtain ⟨j, hj, rfl⟩ := valid_iff.1 hd
  rw [nextCoord_position ht hi] at hnext
  rw [position_lt_iff hi hj] at hlt
  rw [← Except.ok.inj hnext, position_lt_iff hi (by omega), position_le_iff (by omega) hj]
  omega

/-- **One character back.** The start of the text is its own predecessor. -/
theorem previousCoord_position (hs : t.size < capacity) (hi : i ≤ t.length) :
    t.previousCoord (t.position i) = .ok (t.position (i - 1)) := by
  have hprevious : t.previous (size (t.take i)) = size (t.take (i - 1)) := by
    cases i with
    | zero =>
      have hstart := characterStart_size [] t
      rw [List.nil_append, size_nil] at hstart
      rw [List.take_zero, size_nil, previous, hstart, hstart]
    | succ i =>
      have hsplit := List.take_append_drop i t
      rw [List.drop_eq_getElem_cons hi] at hsplit
      have hstep := previous_size (t.take i) (t.drop (i + 1)) t[i]
      rwa [hsplit, ← List.take_succ_eq_append_getElem hi] at hstep
  rw [previousCoord, offset_position hs, Fault.ok_bind, hprevious, coordAt_take, Fault.pure_eq_ok]

end

/-- **The end of a text** is its extent. -/
theorem endCoord_eq (t : Text) : t.endCoord = t.extent := by
  have hlast : t.lineCount - 1 = t.extent.line ∧ t.lineLength t.extent.line = t.extent.column := by
    induction t with
    | nil => exact ⟨rfl, rfl⟩
    | cons c t ih =>
      obtain ⟨hline, hlength⟩ := ih
      have hcount : lineCount t = lineCount t - 1 + 1 := rfl
      rw [lineCount_cons]
      by_cases hc : c = '\n'
      · subst hc
        rw [extent_newline, lineLength_newline_succ, if_pos rfl]
        exact ⟨by dsimp only; omega, hlength⟩
      · rw [extent_cons_line hc, extent_cons_column hc, if_neg hc]
        refine ⟨hline, ?_⟩
        cases hl : (extent t).line with
        | zero =>
          rw [hl] at hlength
          rw [lineLength_cons_zero hc, hlength, if_pos rfl]
        | succ l =>
          rw [hl] at hlength
          rw [lineLength_cons_succ hc, hlength, if_neg (Nat.succ_ne_zero l)]
  obtain ⟨hline, hlength⟩ := hlast
  rw [endCoord, hline, hlength]

/-- No position lies behind the end. -/
theorem Valid.le_extent {t : Text} {c : Coord} (h : t.Valid c) : c ≤ t.extent := by
  obtain ⟨before, after, rfl, rfl⟩ := valid_iff_extent.1 h
  exact extent_le_append before after

/-! ## Clamping -/

/-- A line that exists begins at a position. -/
theorem valid_lineStart {t : Text} {line : ℕ} (h : line < t.lineCount) : t.Valid ⟨line, 0⟩ := by
  induction t generalizing line with
  | nil =>
    obtain rfl : line = 0 := Nat.lt_one_iff.1 h
    exact valid_zero []
  | cons c t ih =>
    cases line with
    | zero => exact valid_zero (c :: t)
    | succ line =>
      rw [lineCount_cons] at h
      by_cases hc : c = '\n'
      · subst hc
        rw [if_pos rfl] at h
        exact valid_newline_succ.2 (ih (Nat.lt_of_succ_lt_succ h))
      · rw [if_neg hc] at h
        exact (valid_cons_succ hc).2 (ih h)

theorem lineStart_le_characterStart {t : Text} {line : ℕ} (h : line < t.lineCount) (column : ℕ) :
    t.lineStart line ≤ t.characterStart (t.lineStart line + column) := by
  obtain ⟨-, -, hboundary⟩ := valid_lineStart h
  have hstart : t.characterStart (t.lineStart line) = t.lineStart line := beq_iff_eq.1 hboundary
  have hle := characterStart_mono t (Nat.le_add_right (t.lineStart line) column)
  rwa [hstart] at hle

/-- **Clamping leads to positions**, wherever it begins. -/
theorem valid_clamp (t : Text) (c : Coord) : t.Valid (t.clamp c) := by
  have hline : min c.line (t.lineCount - 1) < t.lineCount := by
    have hpos : 0 < t.lineCount := Nat.succ_pos _
    omega
  unfold clamp
  dsimp only
  generalize min c.line (t.lineCount - 1) = line at hline ⊢
  have hcolumn := Nat.min_le_right c.column (t.lineLength line)
  generalize min c.column (t.lineLength line) = column at hcolumn ⊢
  have hge := lineStart_le_characterStart hline column
  have hle := characterStart_le t (t.lineStart line + column)
  refine ⟨hline, by dsimp only; omega, ?_⟩
  obtain ⟨before, after, rfl, hstart⟩ := exists_characterStart t (t.lineStart line + column)
  dsimp only
  rw [Nat.add_sub_cancel' hge, hstart]
  exact beq_iff_eq.2 (characterStart_size before after)

/-- **Clamping keeps the order** of coordinates on lines that exist. -/
theorem clamp_le_clamp {t : Text} {c d : Coord} (h : c ≤ d) (hd : d.line < t.lineCount) :
    t.clamp c ≤ t.clamp d := by
  obtain ⟨cl, cc⟩ := c
  obtain ⟨dl, dc⟩ := d
  dsimp only at hd
  have hc : cl < t.lineCount := by
    rcases h with h | h <;> dsimp only at h <;> omega
  unfold clamp
  simp only [Nat.min_eq_left (show cl ≤ t.lineCount - 1 by omega),
    Nat.min_eq_left (show dl ≤ t.lineCount - 1 by omega)]
  rcases h with h | ⟨rfl, h⟩
  · exact .inl h
  · refine .inr ⟨rfl, Nat.sub_le_sub_right (characterStart_mono t ?_) _⟩
    dsimp only at h ⊢
    omega

end Text

end Caret
