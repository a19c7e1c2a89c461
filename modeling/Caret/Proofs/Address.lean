import Mathlib.Order.Cover
import Mathlib.Order.Hom.Basic
import Caret.Proofs.Nearest
import Caret.Proofs.Patch

/-!
# Coordinates and byte offsets

A place in a text is told by line and column or by the number of bytes in front of it. Both ways lead
to the same places in the same order: the positions on the one side, the boundaries between characters
on the other.

* `Text.isBoundary_iff`: the boundaries are where beginnings of the text end.
* `Text.address`: positions and boundaries correspond, and the order is the same.
* `Text.address_covBy`: neighbouring characters are neighbours in this order.
* `Text.intercalate_lines`: a text is its lines with newlines between them.
* `Text.addressed`: coordinates and byte offsets are the same positions.
-/

namespace Caret

namespace Text

variable {t : Text} {n : ℕ}

/-! ## Boundaries -/

/-- **Boundaries** are where beginnings of the text end. -/
theorem isBoundary_iff : t.isBoundary n = true ↔ ∃ before after, t = before ++ after ∧ before.size = n := by
  constructor
  · intro h
    obtain ⟨before, after, ht, hstart⟩ := exists_characterStart t n
    exact ⟨before, after, ht, hstart.symm.trans (beq_iff_eq.1 h)⟩
  · rintro ⟨before, after, rfl, rfl⟩
    exact beq_iff_eq.2 (characterStart_size before after)

theorem isBoundary_iff_take : t.isBoundary n = true ↔ ∃ i ≤ t.length, n = size (t.take i) := by
  rw [isBoundary_iff]
  constructor
  · rintro ⟨before, after, rfl, rfl⟩
    exact ⟨before.length, by simp, by rw [List.take_left]⟩
  · rintro ⟨i, -, rfl⟩
    exact ⟨t.take i, t.drop i, (List.take_append_drop i t).symm, rfl⟩

/-- Two beginnings of a text are in the same order by their extents and by their sizes. -/
theorem size_le_iff_extent_le {p q s t : Text} (h : p ++ s = q ++ t) :
    p.size ≤ q.size ↔ p.extent ≤ q.extent := by
  constructor
  · intro hle
    obtain ⟨m, rfl, -⟩ := exists_append_of_size_le h hle
    exact extent_le_append p m
  · intro hle
    obtain ⟨m, rfl, -⟩ := exists_append_of_extent_le h hle
    rw [size_append]
    omega

/-- A boundary has a coordinate, which is a position. -/
theorem valid_coordAt (h : t.isBoundary n = true) : t.Valid (t.coordAt n) := by
  obtain ⟨before, after, rfl, rfl⟩ := isBoundary_iff.1 h
  rw [coordAt_size]
  exact valid_extent_append before after

theorem Valid.isBoundary {c : Coord} (h : t.Valid c) :
    t.isBoundary (t.lineStart c.line + c.column) = true := h.2.2

/-- **Positions and boundaries** correspond to each other: the bytes of the lines in front of a
position and those in front of it on its line, and the coordinate of a byte offset. -/
def address (t : Text) : {c // t.Valid c} ≃o {n // t.isBoundary n = true} where
  toFun c := ⟨t.lineStart c.1.line + c.1.column, c.2.isBoundary⟩
  invFun n := ⟨t.coordAt n, valid_coordAt n.2⟩
  left_inv := by
    rintro ⟨c, hc⟩
    obtain ⟨before, after, rfl, rfl⟩ := valid_iff_extent.1 hc
    refine Subtype.ext ?_
    dsimp only
    rw [lineStart_extent, coordAt_size]
  right_inv := by
    rintro ⟨n, hn⟩
    obtain ⟨before, after, rfl, rfl⟩ := isBoundary_iff.1 hn
    refine Subtype.ext ?_
    dsimp only
    rw [coordAt_size, lineStart_extent]
  map_rel_iff' := by
    rintro ⟨c, hc⟩ ⟨d, hd⟩
    obtain ⟨p, s, rfl, rfl⟩ := valid_iff_extent.1 hc
    obtain ⟨q, u, hsplit, rfl⟩ := valid_iff_extent.1 hd
    have hp := lineStart_extent p s
    have hq := lineStart_extent q u
    rw [← hsplit] at hq
    simp only [Equiv.coe_fn_mk, Subtype.mk_le_mk, hp, hq]
    exact size_le_iff_extent_le hsplit

theorem offset_eq_address (ht : t.size < capacity) (c : {c // t.Valid c}) :
    t.offset c = .ok (t.address c : ℕ) := by
  obtain ⟨c, hc⟩ := c
  obtain ⟨before, after, rfl, rfl⟩ := valid_iff_extent.1 hc
  have hstart := lineStart_extent before after
  rw [offset_extent ht]
  exact congrArg Except.ok hstart.symm

/-- **Neighbours.** There is no boundary between the two ends of a character. -/
theorem address_covBy {i : ℕ} (hi : i < t.length) :
    t.address ⟨t.position i, valid_position hi.le⟩ ⋖ t.address ⟨t.position (i + 1), valid_position hi⟩ := by
  rw [apply_covBy_apply_iff]
  refine ⟨?_, ?_⟩
  · exact (position_lt_iff hi.le hi).2 (Nat.lt_succ_self i)
  · rintro ⟨d, hd⟩ hlt hgt
    obtain ⟨j, hj, rfl⟩ := valid_iff.1 hd
    have hij : i < j := (position_lt_iff hi.le hj).1 hlt
    have hji : j < i + 1 := (position_lt_iff hj hi).1 hgt
    omega

/-- A position that is not the end has a character behind it. -/
theorem Valid.exists_position_lt {c : Coord} (h : t.Valid c) (hne : c ≠ t.endCoord) :
    ∃ i, i < t.length ∧ c = t.position i := by
  obtain ⟨i, hi, rfl⟩ := valid_iff.1 h
  refine ⟨i, hi.lt_of_ne ?_, rfl⟩
  rintro rfl
  rw [endCoord_eq, position_length] at hne
  exact hne rfl

theorem Valid.exists_position_succ {c : Coord} (h : t.Valid c) (hne : c ≠ 0) :
    ∃ i, i < t.length ∧ c = t.position (i + 1) := by
  obtain ⟨i, hi, rfl⟩ := valid_iff.1 h
  cases i with
  | zero => exact absurd (position_zero t) hne
  | succ i => exact ⟨i, hi, rfl⟩

/-! ## Lines -/

/-- Reading off a line is splitting the text at its newlines. -/
theorem line?_eq_splitOn (t : Text) (n : ℕ) : t.line? n = (t.splitOn '\n')[n]? := by
  induction t generalizing n with
  | nil => cases n <;> rfl
  | cons c t ih =>
    rw [List.splitOn_cons_eq_if_modifyHead]
    by_cases hc : c = '\n'
    · subst hc
      rw [if_pos (beq_self_eq_true _)]
      cases n with
      | zero => rfl
      | succ n => rw [line?_newline_succ, ih, List.getElem?_cons_succ]
    · rw [if_neg (by simpa using hc)]
      obtain ⟨l, rest, hsplit⟩ := List.exists_cons_of_ne_nil (List.splitOn_ne_nil '\n' t)
      rw [hsplit] at ih ⊢
      rw [List.modifyHead_cons]
      cases n with
      | zero =>
        -- the character goes in front of the first line of what follows
        have hfirst := ih 0
        rw [line?_zero, List.getElem?_cons_zero, Option.some_inj] at hfirst
        rw [line?_zero, List.getElem?_cons_zero, List.takeWhile_cons_of_pos (by simpa using hc), hfirst]
      | succ n => rw [line?_cons_succ hc, ih, List.getElem?_cons_succ, List.getElem?_cons_succ]

theorem length_splitOn (t : Text) : (t.splitOn '\n').length = t.lineCount := by
  induction t with
  | nil => rfl
  | cons c t ih =>
    rw [List.splitOn_cons_eq_if_modifyHead, lineCount_cons, ← ih]
    by_cases hc : c = '\n'
    · rw [if_pos (by simpa using hc), if_pos hc, List.length_cons]
    · rw [if_neg (by simpa using hc), if_neg hc, List.length_modifyHead, Nat.add_zero]

theorem lines_eq_splitOn (t : Text) : t.lines = t.splitOn '\n' := by
  unfold lines
  refine List.ext_getElem ?_ fun n _ hn => ?_
  · rw [length_splitOn, List.length_map, List.length_range]
  · rw [List.getElem_map, List.getElem_range, line?_eq_splitOn, List.getElem?_eq_getElem hn, Option.getD_some]

theorem line?_eq_lines (t : Text) (n : ℕ) : t.line? n = t.lines[n]? := by
  rw [lines_eq_splitOn, line?_eq_splitOn]

/-- **A text is its lines** with newlines between them. -/
theorem intercalate_lines (t : Text) : ['\n'].intercalate t.lines = t := by
  rw [lines_eq_splitOn]
  exact List.intercalate_splitOn '\n'

theorem newline_not_mem_line {l : Text} (h : t.line? n = some l) : '\n' ∉ l := by
  induction t generalizing n l with
  | nil =>
    cases n with
    | zero =>
      cases h
      exact List.not_mem_nil
    | succ n => cases h
  | cons c t ih =>
    cases n with
    | zero =>
      rw [line?_zero, Option.some_inj] at h
      intro hmem
      rw [← h] at hmem
      simpa using List.mem_takeWhile_imp hmem
    | succ n =>
      by_cases hc : c = '\n'
      · subst hc
        rw [line?_newline_succ] at h
        exact ih h
      · rw [line?_cons_succ hc] at h
        exact ih h

/-! ## Positions twice -/

/-- **Coordinates and byte offsets are the same positions**: the offset of a position is a boundary,
the coordinate of a boundary is a position, one undoes the other, and the order stays. Stepping to the
next or previous character is stepping to the next or previous boundary, and lines are what is between
newlines. -/
structure Addressed (t : Text) : Prop where
  boundary : ∀ n, t.isBoundary n = true ↔ ∃ i ≤ t.length, n = size (t.take i)
  offset : ∀ c : {c // t.Valid c}, t.offset c = .ok (t.address c : ℕ)
  coordAt : ∀ n : {n // t.isBoundary n = true}, t.coordAt n = t.address.symm n
  start : t.Valid 0 ∧ t.offset 0 = .ok 0
  stop : t.Valid t.endCoord ∧ t.offset t.endCoord = .ok t.size
  next : ∀ c : {c // t.Valid c}, (c : Coord) ≠ t.endCoord →
    ∃ d : {c // t.Valid c}, t.nextCoord c = .ok (d : Coord) ∧ t.address c ⋖ t.address d
  next_stop : t.nextCoord t.endCoord = .ok t.endCoord
  previous : ∀ c : {c // t.Valid c}, (c : Coord) ≠ 0 →
    ∃ d : {c // t.Valid c}, t.previousCoord c = .ok (d : Coord) ∧ t.address d ⋖ t.address c
  previous_start : t.previousCoord 0 = .ok 0
  line : ∀ n, t.line? n = t.lines[n]?
  lineCount : t.lines.length = t.lineCount
  newline : ∀ l ∈ t.lines, '\n' ∉ l
  join : ['\n'].intercalate t.lines = t

/-- **Positions and byte offsets agree** in every text. -/
theorem addressed (t : Text) (ht : t.size < capacity) : t.Addressed where
  boundary _ := isBoundary_iff_take
  offset := offset_eq_address ht
  coordAt _ := rfl
  start := by
    have hoffset := offset_position ht 0
    rw [position_zero, List.take_zero] at hoffset
    exact ⟨valid_zero t, hoffset⟩
  stop := by
    have hoffset := offset_position ht t.length
    rw [position_length, ← endCoord_eq, List.take_length] at hoffset
    exact ⟨t.valid_endCoord, hoffset⟩
  next := by
    rintro ⟨c, hc⟩ hne
    obtain ⟨i, hi, rfl⟩ := hc.exists_position_lt hne
    exact ⟨⟨_, valid_position hi⟩, nextCoord_position ht hi.le, address_covBy hi⟩
  next_stop := by
    have hnext := nextCoord_position ht (le_refl t.length)
    rwa [position_of_le (Nat.le_succ _), position_length, ← endCoord_eq] at hnext
  previous := by
    rintro ⟨c, hc⟩ hne
    obtain ⟨i, hi, rfl⟩ := hc.exists_position_succ hne
    exact ⟨⟨_, valid_position hi.le⟩, previousCoord_position ht hi, address_covBy hi⟩
  previous_start := by
    have hprevious := previousCoord_position ht (Nat.zero_le t.length)
    rwa [Nat.zero_sub, position_zero] at hprevious
  line := line?_eq_lines t
  lineCount := by rw [lines_eq_splitOn, length_splitOn]
  newline := by
    intro l hl
    obtain ⟨n, hn⟩ := List.mem_iff_getElem?.1 hl
    rw [← line?_eq_lines] at hn
    exact newline_not_mem_line hn
  join := intercalate_lines t

/-- The column behind the last character of a line stands for the newline, and behind a last newline
there is an empty line. -/
theorem addressed_sample :
    Text.size ['a', 'é', '\n'] < capacity ∧ Addressed ['a', 'é', '\n'] ∧
      Text.offset ['a', 'é', '\n'] ⟨0, 3⟩ = .ok 3 ∧
      Text.nextCoord ['a', 'é', '\n'] ⟨0, 3⟩ = .ok ⟨1, 0⟩ ∧
      Text.previousCoord ['a', 'é', '\n'] ⟨0, 3⟩ = .ok ⟨0, 1⟩ ∧
      ['\n'].intercalate [['a', 'é'], []] = ['a', 'é', '\n'] := by
  have hsize : Text.size ['a', 'é', '\n'] < capacity := by decide
  have haddressed := addressed ['a', 'é', '\n'] hsize
  have hlines : Text.lines ['a', 'é', '\n'] = [['a', 'é'], []] := by decide
  have hjoin := haddressed.join
  rw [hlines] at hjoin
  exact ⟨hsize, haddressed, by decide, by decide, by decide, hjoin⟩

end Text

end Caret
