import Caret.Proofs.Character
import Caret.Unicode.Cells

/-!
# Display columns and back

The display column of a place on a line, and the place that lies at or just before a display column. The
two walk along the pieces of the line and stop by different rules. What both come to is a stretch of pieces
at the beginning of the line and the column that it reaches.

* `Rendering.Lawful`: lines are cut into pieces that are not empty and join back.
* `Rendering.reach`, `Rendering.Breaks`: the column behind some pieces, and where pieces begin and end.
* `Rendering.measure_eq`, `Rendering.exists_measure`: a display column is that of a stretch of pieces.
* `Rendering.exists_seek`: the longest stretch that keeps to a display column.
* `Rendering.coordAtColumn_last`: the last break of a line at or before a display column.
-/

namespace Caret

namespace Text

/-- **The positions on a line** are where beginnings of the line end. -/
theorem valid_iff_line {t : Text} {n column : ℕ} :
    t.Valid ⟨n, column⟩ ↔
      ∃ before after, t.line? n = some (before ++ after) ∧ before.size = column := by
  induction t generalizing n column with
  | nil =>
    rw [valid_iff_extent]
    cases n with
    | zero => simp [line?, Coord.ext_iff, eq_comm]
    | succ n => simp [line?, Coord.ext_iff]
  | cons c t ih =>
    by_cases hc : c = '\n'
    · subst hc
      cases n with
      | zero => simp [valid_newline_iff, line?_zero, Coord.newline_add, Coord.ext_iff, eq_comm]
      | succ n => rw [valid_newline_succ, line?_newline_succ, ih]
    · cases n with
      | zero =>
        have hline : line? (c :: t) 0 = (line? t 0).map (c :: ·) := by simp [line?_zero, hc]
        rw [valid_cons_zero hc, ih, hline]
        constructor
        · rintro (rfl | ⟨hle, before, after, hrest, hsize⟩)
          · exact ⟨[], c :: t.takeWhile (· ≠ '\n'), by rw [line?_zero]; rfl, rfl⟩
          · exact ⟨c :: before, after, by rw [hrest]; rfl, by rw [size_cons]; omega⟩
        · rintro ⟨before, after, hrest, rfl⟩
          obtain ⟨l, hl, hcons⟩ := Option.map_eq_some_iff.1 hrest
          cases before with
          | nil => exact .inl rfl
          | cons d before =>
            obtain ⟨rfl, rfl⟩ := List.cons.inj hcons
            refine .inr ⟨Nat.le_add_right _ _, before, after, hl, ?_⟩
            rw [size_cons, Nat.add_sub_cancel_left]
      | succ n => rw [valid_cons_succ hc, line?_cons_succ hc, ih]

end Text

/-! ## Lawful renderings -/

/-- Lines are cut into pieces that are not empty and join back to the line. -/
structure Rendering.Lawful (r : Rendering) : Prop where
  ne_nil : ∀ line, ∀ piece ∈ r.clusters line, piece ≠ []
  flatten : ∀ line, (r.clusters line).flatten = line

namespace Unicode

theorem flatten_clustersFrom (s : ClusterState) (cluster t : Text) :
    (clustersFrom s cluster t).flatten = cluster.reverse ++ t := by
  induction t generalizing s cluster with
  | nil => simp [clustersFrom]
  | cons c t ih =>
    unfold clustersFrom
    dsimp only
    split
    · rw [ih, List.reverse_cons, List.append_assoc]
      rfl
    · rw [List.flatten_cons, ih]
      rfl

theorem ne_nil_of_mem_clustersFrom {s : ClusterState} {cluster t piece : Text} (hne : cluster ≠ [])
    (h : piece ∈ clustersFrom s cluster t) : piece ≠ [] := by
  induction t generalizing s cluster with
  | nil =>
    rw [List.mem_singleton.1 h]
    simpa using hne
  | cons c t ih =>
    unfold clustersFrom at h
    dsimp only at h
    split at h
    · exact ih (List.cons_ne_nil _ _) h
    · rcases List.mem_cons.1 h with rfl | h
      · simpa using hne
      · exact ih (List.cons_ne_nil _ _) h

/-- Clusters are not empty and join back to the text. -/
theorem terminal_lawful : terminal.Lawful where
  ne_nil line piece h := by
    cases line with
    | nil => cases h
    | cons c line => exact ne_nil_of_mem_clustersFrom (List.cons_ne_nil _ _) h
  flatten line := by
    cases line with
    | nil => rfl
    | cons c line => exact flatten_clustersFrom _ _ _

end Unicode

/-! ## Pieces -/

namespace Rendering

variable {r : Rendering} {tabstop column target : ℕ} {pieces before after : List Text} {line : Text}

/-- The display column behind some pieces that begin at a display column. -/
def reach (r : Rendering) (tabstop : ℕ) (column : ℕ) (pieces : List Text) : ℕ :=
  pieces.foldl (fun column piece => column + r.cells tabstop column piece) column

/-- A byte of a line at which a piece begins, or at which the line ends. -/
def Breaks (r : Rendering) (line : Text) (n : ℕ) : Prop :=
  ∃ before, before <+: r.clusters line ∧ n = Text.size before.flatten

theorem reach_append : r.reach tabstop column (before ++ after) =
    r.reach tabstop (r.reach tabstop column before) after := List.foldl_append

theorem le_reach : column ≤ r.reach tabstop column pieces := by
  induction pieces generalizing column with
  | nil => exact le_rfl
  | cons piece pieces ih => exact (Nat.le_add_right _ _).trans ih

/-- A stretch of pieces reaches no further than all of them. -/
theorem reach_le : r.reach tabstop column before ≤ r.reach tabstop column (before ++ after) := by
  rw [reach_append]
  exact le_reach

/-- One more piece is measured. -/
theorem add_cells {piece : Text} (h : r.reach tabstop column (piece :: pieces) < Count.bound) :
    Count.add column (r.cells tabstop column piece) = .ok (column + r.cells tabstop column piece) :=
  Count.add_of_lt ((le_reach (r := r)).trans_lt h)

/-- **A stretch of pieces is measured** up to where it ends. -/
theorem measure_eq (start : ℕ) (hne : ∀ piece ∈ before, piece ≠ [])
    (hfits : r.reach tabstop column (before ++ after) < Count.bound) :
    r.measure tabstop (start + Text.size before.flatten) (before ++ after) start column =
      .ok (r.reach tabstop column before) := by
  induction before generalizing start column with
  | nil => cases after <;> simp [measure, reach]
  | cons piece before ih =>
    obtain ⟨hpiece, hne⟩ := List.forall_mem_cons.1 hne
    have hpos : 0 < piece.size := Nat.pos_of_ne_zero fun h => hpiece (Text.eq_nil_of_size_eq_zero h)
    rw [List.cons_append] at hfits
    rw [List.cons_append, measure, List.flatten_cons, Text.size_append, if_neg (by omega), add_cells hfits,
      Fault.ok_bind, ← Nat.add_assoc]
    exact ih _ hne hfits

/-- Wherever measuring stops, it has measured a stretch of pieces. -/
theorem exists_measure (start stop : ℕ) (hfits : r.reach tabstop column pieces < Count.bound) :
    ∃ before after, pieces = before ++ after ∧
      r.measure tabstop stop pieces start column = .ok (r.reach tabstop column before) := by
  induction pieces generalizing start column with
  | nil => exact ⟨[], [], rfl, rfl⟩
  | cons piece pieces ih =>
    by_cases hstop : stop ≤ start
    · exact ⟨[], piece :: pieces, rfl, if_pos hstop⟩
    · obtain ⟨before, after, rfl, hmeasure⟩ := ih (start + piece.size) hfits
      refine ⟨piece :: before, after, rfl, ?_⟩
      rw [measure, if_neg hstop, add_cells hfits, Fault.ok_bind, hmeasure]
      rfl

/-- **The longest stretch of pieces that keeps to a column.** All others are shorter or reach past it. -/
theorem exists_seek (start : ℕ) (hle : column ≤ target) (hfits : r.reach tabstop column pieces < Count.bound) :
    ∃ before, before <+: pieces ∧
      r.seek tabstop target pieces start column = .ok (start + Text.size before.flatten) ∧
      r.reach tabstop column before ≤ target ∧
      ∀ other, other <+: pieces → other <+: before ∨ target < r.reach tabstop column other := by
  induction pieces generalizing start column with
  | nil => exact ⟨[], List.prefix_rfl, rfl, hle, fun other hother => .inl hother⟩
  | cons piece pieces ih =>
    by_cases hpast : target < column + r.cells tabstop column piece
    · refine ⟨[], List.nil_prefix, ?_, hle, fun other hother => ?_⟩
      · rw [seek, add_cells hfits, Fault.ok_bind, if_pos hpast]
        rfl
      · rcases List.prefix_cons_iff.1 hother with rfl | ⟨rest, rfl, -⟩
        · exact .inl List.prefix_rfl
        · exact .inr (hpast.trans_le le_reach)
    · obtain ⟨before, hbefore, hseek, hreach, hlongest⟩ :=
        ih (start + piece.size) (Nat.le_of_not_lt hpast) hfits
      refine ⟨piece :: before, List.cons_prefix_cons.2 ⟨rfl, hbefore⟩, ?_, hreach, fun other hother => ?_⟩
      · rw [seek, add_cells hfits, Fault.ok_bind, if_neg hpast, hseek, List.flatten_cons, Text.size_append,
          Nat.add_assoc]
      · rcases List.prefix_cons_iff.1 hother with rfl | ⟨rest, rfl, hrest⟩
        · exact .inl List.nil_prefix
        · exact (hlongest rest hrest).imp_left fun h => List.cons_prefix_cons.2 ⟨rfl, h⟩

/-! ## Lines -/

/-- The display width of a line. -/
def lineWidth (r : Rendering) (tabstop : ℕ) (line : Text) : ℕ := r.reach tabstop 0 (r.clusters line)

variable {t : Text} {n : ℕ}

theorem breaks_size (hr : r.Lawful) (line : Text) : r.Breaks line line.size :=
  ⟨r.clusters line, List.prefix_rfl, by rw [hr.flatten]⟩

/-- What pieces begin a line is the beginning of the line. -/
theorem flatten_of_begins (hr : r.Lawful) (h : before <+: r.clusters line) :
    ∃ rest : Text, line = before.flatten ++ rest := by
  obtain ⟨after, hafter⟩ := h
  exact ⟨after.flatten, by rw [← List.flatten_append, hafter, hr.flatten]⟩

/-- Where pieces end there is a position. -/
theorem valid_of_begins (hr : r.Lawful) (hline : t.line? n = some line) (h : before <+: r.clusters line) :
    t.Valid ⟨n, Text.size before.flatten⟩ := by
  obtain ⟨rest, hrest⟩ := flatten_of_begins hr h
  exact Text.valid_iff_line.2 ⟨before.flatten, rest, by rw [hline, ← hrest], rfl⟩

/-- **The display column at a break** is the one that the pieces before it reach. -/
theorem columnOf_eq (hr : r.Lawful) (hline : t.line? n = some line)
    (hwidth : r.lineWidth tabstop line < Count.bound) (h : before <+: r.clusters line) :
    r.columnOf t ⟨n, Text.size before.flatten⟩ tabstop = .ok (r.reach tabstop 0 before) := by
  obtain ⟨rest, hrest⟩ := flatten_of_begins hr h
  have hmin : min (Text.size before.flatten) line.size = Text.size before.flatten := by
    rw [hrest, Text.size_append]
    omega
  have hne := hr.ne_nil line
  obtain ⟨after, hafter⟩ := h
  unfold lineWidth at hwidth
  unfold columnOf
  rw [hline]
  dsimp only
  rw [hmin]
  rw [← hafter] at hwidth hne ⊢
  have hmeasure := measure_eq 0 (fun piece hpiece => hne piece (List.mem_append_left _ hpiece)) hwidth
  rwa [Nat.zero_add] at hmeasure

/-- The display column of any place is that of some break. -/
theorem exists_columnOf (c : Coord) (hline : t.line? c.line = some line)
    (hwidth : r.lineWidth tabstop line < Count.bound) :
    ∃ before, before <+: r.clusters line ∧ r.columnOf t c tabstop = .ok (r.reach tabstop 0 before) := by
  obtain ⟨before, after, hpieces, hmeasure⟩ :=
    exists_measure 0 (min c.column line.size) hwidth
  refine ⟨before, ⟨after, hpieces.symm⟩, ?_⟩
  unfold columnOf
  rw [hline]
  exact hmeasure

/-- **The longest stretch of a line that keeps to a display column** ends where the column leads to. -/
theorem exists_coordAtColumn (hline : t.line? (min n (t.lineCount - 1)) = some line)
    (hwidth : r.lineWidth tabstop line < Count.bound) (target : ℕ) :
    ∃ before, before <+: r.clusters line ∧
      r.coordAtColumn t n target tabstop = .ok ⟨min n (t.lineCount - 1), Text.size before.flatten⟩ ∧
      r.reach tabstop 0 before ≤ target ∧
      ∀ other, other <+: r.clusters line → other <+: before ∨ target < r.reach tabstop 0 other := by
  obtain ⟨before, hbefore, hseek, hreach, hlongest⟩ := exists_seek 0 (Nat.zero_le target) hwidth
  refine ⟨before, hbefore, ?_, hreach, hlongest⟩
  unfold coordAtColumn
  dsimp only
  rw [hline]
  dsimp only
  rw [hseek, Nat.zero_add]
  rfl

/-- There is a last line. -/
theorem exists_line (t : Text) (n : ℕ) : ∃ line, t.line? (min n (t.lineCount - 1)) = some line := by
  have hlt : min n (t.lineCount - 1) < t.lineCount := by
    have hpos : 0 < t.lineCount := Nat.succ_pos _
    omega
  obtain ⟨before, after, hline, -⟩ := Text.valid_iff_line.1 (Text.valid_lineStart hlt)
  exact ⟨_, hline⟩

/-- **The last break at or before a display column.** On the line of that number, or on the last one, a
display column leads to a position at which a piece begins or the line ends. Its own display column is at
most the wanted one, and that of every break behind it is larger. -/
theorem coordAtColumn_last (hr : r.Lawful) (t : Text) (n target tabstop : ℕ)
    (hwidth : ∀ line, t.line? (min n (t.lineCount - 1)) = some line →
      r.lineWidth tabstop line < Count.bound) :
    ∃ line c, t.line? (min n (t.lineCount - 1)) = some line ∧
      r.coordAtColumn t n target tabstop = .ok c ∧ c.line = min n (t.lineCount - 1) ∧ t.Valid c ∧
      r.Breaks line c.column ∧ r.Breaks line line.size ∧
      (∃ column, r.columnOf t c tabstop = .ok column ∧ column ≤ target) ∧
      ∀ k, r.Breaks line k → c.column < k →
        ∃ column, r.columnOf t ⟨c.line, k⟩ tabstop = .ok column ∧ target < column := by
  obtain ⟨line, hline⟩ := exists_line t n
  have hwidth := hwidth line hline
  obtain ⟨before, hbefore, hcoord, hreach, hlongest⟩ := exists_coordAtColumn hline hwidth target
  refine ⟨line, _, hline, hcoord, rfl, valid_of_begins hr hline hbefore, ⟨before, hbefore, rfl⟩,
    breaks_size hr line, ⟨_, columnOf_eq hr hline hwidth hbefore, hreach⟩, ?_⟩
  rintro k ⟨other, hother, rfl⟩ hlt
  refine ⟨_, columnOf_eq hr hline hwidth hother, (hlongest other hother).resolve_left ?_⟩
  -- a shorter stretch does not end behind a longer one
  rintro ⟨rest, rfl⟩
  rw [List.flatten_append, Text.size_append] at hlt
  exact absurd hlt (by dsimp only; omega)

/-- Display column 3 falls into the two cells of the wide character, at which the cursor stops. The tab behind
it begins at display column 4 and ends at the next tab stop. -/
theorem coordAtColumn_last_sample :
    Unicode.terminal.coordAtColumn ['x', '\n', 'a', 'b', '中', '\t'] 1 3 3 = .ok ⟨1, 2⟩ ∧
      (∃ column, Unicode.terminal.columnOf ['x', '\n', 'a', 'b', '中', '\t'] ⟨1, 5⟩ 3 = .ok column ∧
        3 < column) ∧
      Unicode.terminal.columnOf ['x', '\n', 'a', 'b', '中', '\t'] ⟨1, 6⟩ 3 = .ok 6 := by
  have hsecond :
      Text.line? ['x', '\n', 'a', 'b', '中', '\t'] (min 1 (2 - 1)) = some ['a', 'b', '中', '\t'] := by decide
  obtain ⟨line, c, hline, hcoord, -, -, -, -, -, hlater⟩ :=
    coordAtColumn_last Unicode.terminal_lawful ['x', '\n', 'a', 'b', '中', '\t'] 1 3 3 (by
      intro line hline
      rw [← Option.some.inj (hsecond.symm.trans hline)]
      decide +kernel)
  have hwhere : Unicode.terminal.coordAtColumn ['x', '\n', 'a', 'b', '中', '\t'] 1 3 3 = .ok ⟨1, 2⟩ := by
    decide +kernel
  obtain rfl := Except.ok.inj (hwhere.symm.trans hcoord)
  obtain rfl := Option.some.inj (hsecond.symm.trans hline)
  have hbreak : Unicode.terminal.Breaks ['a', 'b', '中', '\t'] 5 :=
    ⟨[['a'], ['b'], ['中']], ⟨[['\t']], by decide +kernel⟩, by decide⟩
  exact ⟨hwhere, hlater 5 hbreak (by decide), by decide +kernel⟩

end Rendering

end Caret
