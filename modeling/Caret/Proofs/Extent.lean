import Caret.Proofs.Coord
import Caret.Text

/-!
# Positions of a text

The extent of a text is where it ends when it begins at zero. A coordinate is a position of a text
exactly when it is the extent of one of its beginnings, so that positions are numbered by the
characters before them, and their order is that of the numbers.

* `Text.valid_iff`: the positions of a text are `t.position i` for `i ≤ t.length`.
* `Text.position_le_iff`, `Text.position_lt_iff`: order of positions and of their numbers.
* `Text.offset_extent`, `Text.coordAt_size`: positions and byte offsets.
* `Text.clamp_of_valid`: clamping leaves positions where they are.
-/

namespace Caret

/-- The extent of a single character. -/
def Coord.ofChar (c : Char) : Coord := if c = '\n' then ⟨1, 0⟩ else ⟨0, c.utf8Size⟩

theorem Coord.zero_lt_ofChar (c : Char) : 0 < Coord.ofChar c := by
  unfold Coord.ofChar
  split
  · exact .inl Nat.one_pos
  · exact .inr ⟨rfl, c.utf8Size_pos⟩

theorem Coord.newline_add (d : Coord) : Coord.ofChar '\n' + d = ⟨d.line + 1, d.column⟩ := by
  rw [Coord.ext_iff, Coord.add_line, Coord.add_column]
  simp [Coord.ofChar, Nat.add_comm]

theorem Coord.ofChar_add {c : Char} (h : c ≠ '\n') (d : Coord) :
    Coord.ofChar c + d = if d.line = 0 then ⟨0, c.utf8Size + d.column⟩ else d := by
  rw [Coord.add_def, Coord.ofChar, if_neg h]
  split <;> simp

namespace Text

/-! ## Extents -/

/-- The extent of a text: its newlines, and the bytes behind the last of them. -/
def extent : Text → Coord
  | [] => 0
  | c :: rest => Coord.ofChar c + extent rest

@[simp] theorem extent_nil : extent [] = 0 := rfl

theorem extent_cons (c : Char) (t : Text) : extent (c :: t) = Coord.ofChar c + extent t := rfl

@[simp] theorem extent_append (s t : Text) : extent (s ++ t) = extent s + extent t := by
  induction s with
  | nil => rw [List.nil_append, extent_nil, zero_add]
  | cons c s ih => rw [List.cons_append, extent_cons, extent_cons, ih, add_assoc]

theorem extent_newline (t : Text) :
    extent ('\n' :: t) = ⟨(extent t).line + 1, (extent t).column⟩ := by
  rw [extent_cons, Coord.newline_add]

theorem extent_cons_line {c : Char} (h : c ≠ '\n') (t : Text) :
    (extent (c :: t)).line = (extent t).line := by
  rw [extent_cons, Coord.add_line, Coord.ofChar, if_neg h]
  exact Nat.zero_add _

theorem extent_cons_column {c : Char} (h : c ≠ '\n') (t : Text) :
    (extent (c :: t)).column =
      if (extent t).line = 0 then c.utf8Size + (extent t).column else (extent t).column := by
  rw [extent_cons, Coord.add_column, Coord.ofChar, if_neg h]

theorem extent_le_size (t : Text) : (extent t).line + (extent t).column ≤ t.size := by
  induction t with
  | nil => exact le_rfl
  | cons c t ih =>
    rw [size_cons]
    by_cases h : c = '\n'
    · subst h
      have : '\n'.utf8Size = 1 := rfl
      rw [extent_newline]
      dsimp only
      omega
    · rw [extent_cons_line h, extent_cons_column h]
      split <;> omega

theorem extent_signed {t : Text} (h : t.size < capacity) : t.extent.Signed := by
  have := extent_le_size t
  unfold capacity at h
  exact ⟨by omega, by omega⟩

/-- A text that is not empty has an extent. -/
theorem zero_lt_extent {t : Text} (h : t ≠ []) : 0 < t.extent := by
  obtain ⟨c, rest, rfl⟩ := List.exists_cons_of_ne_nil h
  rw [extent_cons]
  exact lt_of_lt_of_le (Coord.zero_lt_ofChar c) (Coord.le_add _ _)

theorem extent_lt_append (s : Text) {t : Text} (h : t ≠ []) : s.extent < (s ++ t).extent := by
  rw [extent_append]
  simpa using Coord.add_lt_add_iff.2 (zero_lt_extent h)

theorem extent_le_append (s t : Text) : s.extent ≤ (s ++ t).extent := by
  rw [extent_append]
  exact Coord.le_add _ _

/-! ## Positions by number -/

/-- The position behind the first `i` characters. -/
def position (t : Text) (i : ℕ) : Coord := extent (t.take i)

@[simp] theorem position_zero (t : Text) : t.position 0 = 0 := by simp [position]

theorem position_append_left {s : Text} (t : Text) {i : ℕ} (h : i ≤ s.length) :
    (s ++ t).position i = s.position i := by
  unfold position; rw [List.take_append_of_le_length h]

theorem position_append_right (s t : Text) (i : ℕ) :
    (s ++ t).position (s.length + i) = s.extent + t.position i := by
  unfold position; rw [List.take_length_add_append, extent_append]

@[simp] theorem position_append (s t : Text) : (s ++ t).position s.length = s.extent := by
  simpa using position_append_right s t 0

theorem position_lt {t : Text} {i j : ℕ} (h : i < j) (hj : j ≤ t.length) :
    t.position i < t.position j := by
  have hs : t.take j = t.take i ++ (t.drop i).take (j - i) := by
    rw [← List.take_add]; congr 1; omega
  have hne : (t.drop i).take (j - i) ≠ [] := by
    intro h0
    have := congrArg List.length h0
    simp only [List.length_take, List.length_drop, List.length_nil] at this
    omega
  unfold position
  rw [hs, extent_append]
  simpa using Coord.add_lt_add_iff.2 (zero_lt_extent hne)

theorem position_lt_iff {t : Text} {i j : ℕ} (hi : i ≤ t.length) (hj : j ≤ t.length) :
    t.position i < t.position j ↔ i < j := by
  refine ⟨?_, fun h => position_lt h hj⟩
  intro h
  by_contra hc
  rcases Nat.eq_or_lt_of_le (Nat.le_of_not_lt hc) with he | hl
  · subst he; exact lt_irrefl _ h
  · exact lt_asymm h (position_lt hl hi)

theorem position_le_iff {t : Text} {i j : ℕ} (hi : i ≤ t.length) (hj : j ≤ t.length) :
    t.position i ≤ t.position j ↔ i ≤ j := by
  rw [← not_lt, ← not_lt, position_lt_iff hj hi]

theorem position_inj {t : Text} {i j : ℕ} (hi : i ≤ t.length) (hj : j ≤ t.length) :
    t.position i = t.position j ↔ i = j := by
  rw [le_antisymm_iff, position_le_iff hi hj, position_le_iff hj hi, ← le_antisymm_iff]

theorem size_take_le (t : Text) (i : ℕ) : size (t.take i) ≤ t.size := by
  have h := size_append (t.take i) (t.drop i)
  rw [List.take_append_drop] at h
  omega

theorem position_signed {t : Text} (h : t.size < capacity) (i : ℕ) : (t.position i).Signed :=
  extent_signed (lt_of_le_of_lt (size_take_le t i) h)

/-- Two beginnings of a text whose extents are in order: the longer one goes on from the
shorter. -/
theorem exists_append_of_extent_le {p q s t : Text} (h : p ++ s = q ++ t)
    (hle : p.extent ≤ q.extent) : ∃ m, q = p ++ m ∧ s = m ++ t := by
  have hp : (p ++ s).position p.length = p.extent := position_append p s
  have hq : (p ++ s).position q.length = q.extent := by rw [h]; exact position_append q t
  have hlen := congrArg List.length h
  simp only [List.length_append] at hlen
  rw [← hp, ← hq, position_le_iff (by simp) (by rw [List.length_append]; omega)] at hle
  -- one of the two goes on from the other; if it is `p`, then both are the same
  rcases List.append_eq_append_iff.1 h with ⟨m, hm, hs⟩ | ⟨m, hm, hs⟩
  · exact ⟨m, hm, hs⟩
  · have h0 : m = [] := by
      have := congrArg List.length hm
      rw [List.length_append] at this
      exact List.length_eq_zero_iff.1 (by omega)
    subst h0
    exact ⟨[], by simpa using hm.symm, by simpa using hs.symm⟩

/-- A beginning of a text is told by its extent. -/
theorem eq_of_extent_eq {p q s t : Text} (h : p ++ s = q ++ t) (he : p.extent = q.extent) :
    p = q ∧ s = t := by
  obtain ⟨m, rfl, rfl⟩ := exists_append_of_extent_le h he.le
  have hnil : m = [] := by
    by_contra hne
    exact absurd he (extent_lt_append p hne).ne
  simp [hnil]

/-! ## Byte offsets -/

theorem eq_nil_of_size_eq_zero {t : Text} (h : t.size = 0) : t = [] := by
  cases t with
  | nil => rfl
  | cons c t =>
    have hpos := c.utf8Size_pos
    rw [size_cons] at h
    omega

/-- Two beginnings of a text whose sizes are in order: the longer one goes on from the shorter. -/
theorem exists_append_of_size_le {p q s t : Text} (h : p ++ s = q ++ t) (hle : p.size ≤ q.size) :
    ∃ m, q = p ++ m ∧ s = m ++ t := by
  rcases List.append_eq_append_iff.1 h with ⟨m, hm, hs⟩ | ⟨m, hm, hs⟩
  · exact ⟨m, hm, hs⟩
  · -- `p` is the longer one, so that both are the same
    rw [hm, size_append] at hle
    have hnil : m = [] := eq_nil_of_size_eq_zero (by omega)
    subst hnil
    exact ⟨[], by simpa using hm.symm, by simpa using hs.symm⟩

/-- A beginning of a text is told by its size. -/
theorem eq_of_size_eq {p q s t : Text} (h : p ++ s = q ++ t) (he : p.size = q.size) :
    p = q ∧ s = t := by
  obtain ⟨m, rfl, rfl⟩ := exists_append_of_size_le h he.le
  rw [size_append] at he
  have hnil : m = [] := eq_nil_of_size_eq_zero (by omega)
  simp [hnil]

/-- The line of a position, and the bytes in front of it. -/
theorem lineStart_extent (before after : Text) :
    (before ++ after).lineStart before.extent.line + before.extent.column = before.size := by
  induction before with
  | nil => cases after <;> simp [lineStart]
  | cons c before ih =>
    rw [List.cons_append, size_cons]
    by_cases h : c = '\n'
    · subst h
      simp only [extent_newline, lineStart, if_true]
      omega
    · rw [extent_cons_line h, extent_cons_column h]
      -- the character adds to the line start, unless the position is on the first line still
      cases hl : (extent before).line with
      | zero =>
        rw [hl] at ih
        have h0 : Text.lineStart (before ++ after) 0 = 0 := by cases before ++ after <;> rfl
        have h0' : Text.lineStart (c :: (before ++ after)) 0 = 0 := rfl
        simp only [if_true]
        omega
      | succ l =>
        rw [hl] at ih
        simp only [lineStart, if_neg h, Nat.succ_ne_zero, if_false]
        omega

theorem lineAt_size (before after : Text) :
    (before ++ after).lineAt before.size = before.extent.line := by
  induction before with
  | nil => cases after <;> simp [lineAt]
  | cons c before ih =>
    have hpos := c.utf8Size_pos
    rw [List.cons_append, size_cons, lineAt, if_neg (by omega), Nat.add_sub_cancel_left, ih]
    by_cases h : c = '\n'
    · subst h
      rw [extent_newline, if_pos rfl, Nat.add_comm]
    · rw [extent_cons_line h, if_neg h, Nat.zero_add]

/-- The byte offset of a position is the size of the text before it. -/
theorem offset_extent {before after : Text} (h : (before ++ after).size < capacity) :
    (before ++ after).offset before.extent = .ok before.size := by
  have hs := lineStart_extent before after
  have hb := Count.signedBound_add_self
  rw [size_append] at h
  unfold capacity at h
  unfold offset
  rw [Count.add_of_lt (by omega), hs, Fault.ok_bind, size_append, Nat.min_eq_left (by omega),
    Fault.pure_eq_ok]

/-- The coordinate of the byte offset behind the beginning of a text is its extent. -/
theorem coordAt_size (before after : Text) :
    (before ++ after).coordAt before.size = before.extent := by
  have hs := lineStart_extent before after
  unfold coordAt
  simp only [size_append, Nat.min_eq_left (Nat.le_add_right before.size after.size),
    lineAt_size, Coord.ext_iff, true_and]
  omega

/-! ## Validity -/

theorem lineCount_cons (c : Char) (t : Text) :
    lineCount (c :: t) = lineCount t + if c = '\n' then 1 else 0 := by
  unfold lineCount
  rw [List.count_cons]
  by_cases h : c = '\n' <;> simp [h]

theorem line?_zero (t : Text) : t.line? 0 = some (t.takeWhile (· ≠ '\n')) := by
  cases t <;> rfl

theorem line?_newline_succ (t : Text) (n : ℕ) : line? ('\n' :: t) (n + 1) = t.line? n := if_pos rfl

theorem line?_cons_succ {c : Char} (h : c ≠ '\n') (t : Text) (n : ℕ) :
    line? (c :: t) (n + 1) = t.line? (n + 1) := if_neg h

theorem lineLength_newline_zero (t : Text) : lineLength ('\n' :: t) 0 = 0 := by
  simp [lineLength, line?_zero]

theorem lineLength_newline_succ (t : Text) (n : ℕ) :
    lineLength ('\n' :: t) (n + 1) = lineLength t n := by
  rw [lineLength, line?_newline_succ, lineLength]

theorem lineLength_cons_zero {c : Char} (h : c ≠ '\n') (t : Text) :
    lineLength (c :: t) 0 = c.utf8Size + lineLength t 0 := by
  simp [lineLength, line?_zero, h]

theorem lineLength_cons_succ {c : Char} (h : c ≠ '\n') (t : Text) (n : ℕ) :
    lineLength (c :: t) (n + 1) = lineLength t (n + 1) := by
  rw [lineLength, line?_cons_succ h, lineLength]

theorem isBoundary_zero (t : Text) : t.isBoundary 0 = true := by
  cases t with
  | nil => rfl
  | cons c t => simp [isBoundary, characterStart, c.utf8Size_pos]

theorem isBoundary_cons {c : Char} {t : Text} {n : ℕ} (hn : n ≠ 0) :
    isBoundary (c :: t) n = true ↔ c.utf8Size ≤ n ∧ t.isBoundary (n - c.utf8Size) = true := by
  simp only [isBoundary, characterStart, beq_iff_eq]
  split <;> omega

theorem valid_zero (t : Text) : t.Valid 0 := by
  have h0 : t.lineStart 0 = 0 := by cases t <;> rfl
  exact ⟨by simp [lineCount], Nat.zero_le _, by simp [h0, isBoundary_zero]⟩

theorem valid_newline_succ {t : Text} {line column : ℕ} :
    Valid ('\n' :: t) ⟨line + 1, column⟩ ↔ t.Valid ⟨line, column⟩ := by
  have hsize : '\n'.utf8Size = 1 := rfl
  have hboundary : isBoundary ('\n' :: t) (1 + t.lineStart line + column) = true ↔
      t.isBoundary (t.lineStart line + column) = true := by
    have hsub : 1 + t.lineStart line + column - 1 = t.lineStart line + column := by omega
    rw [isBoundary_cons (by omega), hsize, hsub]
    exact and_iff_right (by omega)
  simp only [Valid, lineCount_cons, lineLength_newline_succ, lineStart, if_true, hsize, hboundary,
    Nat.add_lt_add_iff_right]

theorem valid_newline_iff {t : Text} {c : Coord} :
    Valid ('\n' :: t) c ↔ c = 0 ∨ ∃ d, t.Valid d ∧ c = Coord.ofChar '\n' + d := by
  obtain ⟨line, column⟩ := c
  simp only [Coord.newline_add]
  cases line with
  | zero =>
    constructor
    · rintro ⟨-, hc, -⟩
      rw [lineLength_newline_zero] at hc
      exact .inl (Coord.ext_iff.2 ⟨rfl, Nat.le_zero.1 hc⟩)
    · rintro (h | ⟨d, -, h⟩)
      · rw [h]; exact valid_zero _
      · simp at h
  | succ line =>
    rw [valid_newline_succ]
    constructor
    · intro h; exact .inr ⟨⟨line, column⟩, h, rfl⟩
    · rintro (h | ⟨d, hd, h⟩)
      · simp [Coord.ext_iff] at h
      · simp only [Coord.mk.injEq, Nat.add_right_cancel_iff] at h
        obtain ⟨rfl, rfl⟩ := h
        exact hd

/-- On the first line a character moves the positions behind it by its size. -/
theorem valid_cons_zero {ch : Char} (hch : ch ≠ '\n') {t : Text} {column : ℕ} :
    Valid (ch :: t) ⟨0, column⟩ ↔
      column = 0 ∨ ch.utf8Size ≤ column ∧ t.Valid ⟨0, column - ch.utf8Size⟩ := by
  have hpos := ch.utf8Size_pos
  have hstart : t.lineStart 0 = 0 := by cases t <;> rfl
  by_cases hz : column = 0
  · subst hz
    exact ⟨fun _ => .inl rfl, fun _ => valid_zero (ch :: t)⟩
  simp only [Valid, lineCount_cons, if_neg hch, lineLength_cons_zero hch, lineStart, hstart,
    Nat.zero_add, isBoundary_cons hz]
  constructor
  · rintro ⟨hl, hc, hb, hv⟩
    exact .inr ⟨hb, hl, by omega, hv⟩
  · rintro (h | ⟨hb, hl, hc, hv⟩)
    · exact absurd h hz
    · exact ⟨hl, by omega, hb, hv⟩

theorem valid_cons_succ {ch : Char} (hch : ch ≠ '\n') {t : Text} {line column : ℕ} :
    Valid (ch :: t) ⟨line + 1, column⟩ ↔ t.Valid ⟨line + 1, column⟩ := by
  have hpos := ch.utf8Size_pos
  have hboundary : ∀ n, isBoundary (ch :: t) (ch.utf8Size + n) = true ↔ t.isBoundary n = true := by
    intro n
    rw [isBoundary_cons (by omega), Nat.add_sub_cancel_left]
    exact and_iff_right (by omega)
  simp only [Valid, lineCount_cons, if_neg hch, lineLength_cons_succ hch, lineStart,
    Nat.add_assoc, hboundary, Nat.add_zero]

theorem valid_cons_iff {ch : Char} (hch : ch ≠ '\n') {t : Text} {c : Coord} :
    Valid (ch :: t) c ↔ c = 0 ∨ ∃ d, t.Valid d ∧ c = Coord.ofChar ch + d := by
  obtain ⟨line, column⟩ := c
  simp only [Coord.ofChar_add hch]
  cases line with
  | zero =>
    rw [valid_cons_zero hch]
    constructor
    · rintro (h | ⟨hb, hv⟩)
      · exact .inl (Coord.ext_iff.2 ⟨rfl, h⟩)
      · refine .inr ⟨_, hv, ?_⟩
        rw [if_pos rfl, Coord.mk.injEq]
        exact ⟨rfl, (Nat.add_sub_cancel' hb).symm⟩
    · rintro (h | ⟨⟨dl, dc⟩, hd, h⟩)
      · exact .inl (Coord.ext_iff.1 h).2
      by_cases hl : dl = 0
      · subst hl
        rw [if_pos rfl, Coord.mk.injEq] at h
        have hcolumn : column = ch.utf8Size + dc := h.2
        refine .inr ⟨by omega, ?_⟩
        rw [hcolumn, Nat.add_sub_cancel_left]
        exact hd
      · rw [if_neg hl, Coord.mk.injEq] at h
        exact absurd h.1.symm hl
  | succ line =>
    rw [valid_cons_succ hch]
    constructor
    · intro h
      exact .inr ⟨⟨line + 1, column⟩, h, (if_neg (Nat.succ_ne_zero line)).symm⟩
    · rintro (h | ⟨d, hd, h⟩)
      · simp [Coord.ext_iff] at h
      by_cases hl : d.line = 0
      · rw [if_pos hl] at h; simp at h
      · rw [if_neg hl] at h; rw [h]; exact hd

/-- **Positions.** A coordinate is a position of a text exactly when it is the extent of one of its
beginnings. -/
theorem valid_iff_extent {t : Text} {c : Coord} :
    t.Valid c ↔ ∃ before after, t = before ++ after ∧ c = before.extent := by
  induction t generalizing c with
  | nil =>
    constructor
    · rintro ⟨hl, hc, -⟩
      refine ⟨[], [], rfl, Coord.ext_iff.2 ?_⟩
      have hlen : lineLength [] c.line = 0 := by cases h : c.line <;> rfl
      rw [hlen] at hc
      simp only [lineCount, List.count_nil] at hl
      simp only [extent_nil, Coord.zero_line, Coord.zero_column]
      omega
    · rintro ⟨before, after, h, rfl⟩
      obtain ⟨rfl, -⟩ := List.append_eq_nil_iff.1 h.symm
      exact valid_zero _
  | cons ch t ih =>
    have hstep : Valid (ch :: t) c ↔ c = 0 ∨ ∃ d, Valid t d ∧ c = Coord.ofChar ch + d := by
      by_cases hch : ch = '\n'
      · subst hch
        exact valid_newline_iff
      · exact valid_cons_iff hch
    rw [hstep]
    constructor
    · rintro (rfl | ⟨d, hd, rfl⟩)
      · exact ⟨[], ch :: t, rfl, rfl⟩
      · obtain ⟨before, after, rfl, rfl⟩ := ih.1 hd
        exact ⟨ch :: before, after, rfl, rfl⟩
    · rintro ⟨before, after, h, rfl⟩
      cases before with
      | nil => exact .inl rfl
      | cons c' before =>
        obtain ⟨rfl, rfl⟩ := List.cons.inj h
        exact .inr ⟨extent before, ih.2 ⟨before, after, rfl, rfl⟩, rfl⟩

/-- **Positions by number.** -/
theorem valid_iff {t : Text} {c : Coord} : t.Valid c ↔ ∃ i, i ≤ t.length ∧ c = t.position i := by
  rw [valid_iff_extent]
  constructor
  · rintro ⟨before, after, rfl, rfl⟩
    exact ⟨before.length, by simp, (position_append before after).symm⟩
  · rintro ⟨i, -, rfl⟩
    exact ⟨t.take i, t.drop i, (List.take_append_drop i t).symm, rfl⟩

/-- Where a beginning of a text ends is a position. -/
theorem valid_extent_append (before after : Text) : (before ++ after).Valid before.extent :=
  valid_iff_extent.2 ⟨before, after, rfl, rfl⟩

/-- A position at or behind the end of a beginning. -/
theorem exists_behind {a q : Text} {c : Coord} (hc : (a ++ q).Valid c) (hle : a.extent ≤ c) :
    ∃ m r, q = m ++ r ∧ c = (a ++ m).extent := by
  obtain ⟨long, r, hsplit, rfl⟩ := valid_iff_extent.1 hc
  obtain ⟨m, rfl, hq⟩ := exists_append_of_extent_le hsplit hle
  exact ⟨m, r, hq, rfl⟩

/-- Two positions in order are the ends of a piece of the text. -/
theorem exists_pieces {t : Text} {start stop : Coord} (hstart : t.Valid start) (hstop : t.Valid stop)
    (hle : start ≤ stop) : ∃ before mid after, t = before ++ mid ++ after ∧ start = before.extent ∧
      stop = (before ++ mid).extent := by
  obtain ⟨before, rest, rfl, rfl⟩ := valid_iff_extent.1 hstart
  obtain ⟨mid, after, rfl, hmid⟩ := exists_behind hstop hle
  exact ⟨before, mid, after, (List.append_assoc _ _ _).symm, rfl, hmid⟩

theorem valid_position {t : Text} {i : ℕ} (h : i ≤ t.length) : t.Valid (t.position i) :=
  valid_iff.2 ⟨i, h, rfl⟩

theorem Valid.signed {t : Text} {c : Coord} (h : t.Valid c) (ht : t.size < capacity) : c.Signed := by
  obtain ⟨i, -, rfl⟩ := valid_iff.1 h
  exact position_signed ht i

/-- Clamping leaves positions where they are. -/
theorem clamp_of_valid {t : Text} {c : Coord} (h : t.Valid c) : t.clamp c = c := by
  obtain ⟨hl, hc, hb⟩ := h
  have hb' := beq_iff_eq.1 hb
  unfold clamp
  simp only [Nat.min_eq_left (show c.line ≤ t.lineCount - 1 by omega), Nat.min_eq_left hc, hb',
    Nat.add_sub_cancel_left]

end Text

end Caret
