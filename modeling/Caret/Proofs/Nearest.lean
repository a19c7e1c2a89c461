import Mathlib.Order.Bounds.Basic
import Caret.Proofs.Character

/-!
# The nearest position

Clamping leads to the last position at or before a coordinate whose line exists. A coordinate on a
line past the last one is first brought to the last line, in the column that it has, so that what it
is clamped to may lie in front of the end of the text, and of what smaller coordinates are clamped to.

* `Text.clamp_isGreatest`: what clamping leads to, whatever the coordinate.
* `Text.Reaches`: the coordinates for which that is the last position at or before them.
* `Text.reaches_iff`: these are the ones that keep all positions before them on the last line.
* `Text.clamp_isGreatest_iff`: clamping is exact, and keeps the order, just for these.
-/

namespace Caret

namespace Text

variable {t : Text} {c d : Coord}

/-- The coordinate, or the same column of the last line if there is no line of its number. -/
def onLine (t : Text) (c : Coord) : Coord := ⟨min c.line (t.lineCount - 1), c.column⟩

/-- The line of the coordinate exists, or its column reaches the end of the last line. -/
def Reaches (t : Text) (c : Coord) : Prop :=
  c.line < t.lineCount ∨ t.lineLength (t.lineCount - 1) ≤ c.column

theorem onLine_line_lt (t : Text) (c : Coord) : (t.onLine c).line < t.lineCount := by
  have hpos : 0 < t.lineCount := Nat.succ_pos _
  unfold onLine
  dsimp only
  omega

theorem onLine_of_lt (h : c.line < t.lineCount) : t.onLine c = c := by
  unfold onLine
  rw [Nat.min_eq_left (by omega)]

theorem onLine_le (t : Text) (c : Coord) : t.onLine c ≤ c := by
  simp only [Coord.le_def, onLine]
  omega

theorem clamp_onLine (t : Text) (c : Coord) : t.clamp (t.onLine c) = t.clamp c := by
  unfold clamp onLine
  simp only [Nat.min_assoc, Nat.min_self]

/-- On a line that exists clamping goes back in the line. -/
theorem clamp_le_of_lt (h : c.line < t.lineCount) : t.clamp c ≤ c := by
  have hle := characterStart_le t (t.lineStart c.line + min c.column (t.lineLength c.line))
  have hcolumn := Nat.min_le_left c.column (t.lineLength c.line)
  unfold clamp
  simp only [Nat.min_eq_left (show c.line ≤ t.lineCount - 1 by omega)]
  refine .inr ⟨rfl, ?_⟩
  dsimp only
  omega

/-- **What clamping leads to**: the last position at or before the coordinate, after this was brought
to a line that exists. -/
theorem clamp_isGreatest (t : Text) (c : Coord) :
    IsGreatest {d | t.Valid d ∧ d ≤ t.onLine c} (t.clamp c) := by
  have hline := t.onLine_line_lt c
  refine ⟨⟨t.valid_clamp c, ?_⟩, ?_⟩
  · rw [← clamp_onLine]
    exact clamp_le_of_lt hline
  · rintro d ⟨hvalid, hle⟩
    have hclamp := clamp_le_clamp hle hline
    rwa [clamp_of_valid hvalid, clamp_onLine] at hclamp

theorem clamp_le (t : Text) (c : Coord) : t.clamp c ≤ c := (t.clamp_isGreatest c).1.2.trans (t.onLine_le c)

/-- Clamping goes back from the lines that exist to all others. -/
theorem le_clamp_iff (h : t.Valid d) : d ≤ t.clamp c ↔ d ≤ t.onLine c :=
  ⟨fun hle => hle.trans (t.clamp_isGreatest c).1.2, fun hle => (t.clamp_isGreatest c).2 ⟨h, hle⟩⟩

theorem valid_endCoord (t : Text) : t.Valid t.endCoord := by
  rw [endCoord_eq, ← position_length]
  exact valid_position le_rfl

theorem Valid.le_endCoord (h : t.Valid c) : c ≤ t.endCoord := by
  rw [endCoord_eq]
  exact h.le_extent

/-- **The coordinates that reach the end of the last line, or do not need to**, are those that no
position gets ahead of when they are brought to a line that exists. -/
theorem reaches_iff : t.Reaches c ↔ ∀ d, t.Valid d → d ≤ c → d ≤ t.onLine c := by
  constructor
  · intro h d hvalid hle
    by_cases hline : c.line < t.lineCount
    · rwa [onLine_of_lt hline]
    · -- all of the text lies in front of such a coordinate
      have hcolumn : t.lineLength (t.lineCount - 1) ≤ c.column := h.resolve_left hline
      have hend : t.endCoord ≤ t.onLine c := by
        refine .inr ⟨?_, hcolumn⟩
        unfold endCoord onLine
        dsimp only
        omega
      exact hvalid.le_endCoord.trans hend
  · intro h
    by_cases hline : c.line < t.lineCount
    · exact .inl hline
    · have hpos : 0 < t.lineCount := Nat.succ_pos _
      have hbehind : t.endCoord ≤ c := by
        refine .inl ?_
        unfold endCoord
        dsimp only
        omega
      have hend := h t.endCoord t.valid_endCoord hbehind
      rcases hend with hlt | ⟨-, hcolumn⟩
      · unfold endCoord onLine at hlt
        dsimp only at hlt
        omega
      · exact .inr hcolumn

/-- **The nearest position.** Any coordinate is clamped to the last position at or before it, as soon
as it is brought to the last line if there is no line of its number. That is the last position at or
before the coordinate itself exactly when its line exists or its column reaches the end of the last
line; and just then nothing at or before the coordinate is clamped to a position behind. Positions
stay where they are, so that clamping twice is clamping once. -/
theorem clamp_isGreatest_iff (t : Text) (c : Coord) :
    IsGreatest {d | t.Valid d ∧ d ≤ t.onLine c} (t.clamp c) ∧
      (IsGreatest {d | t.Valid d ∧ d ≤ c} (t.clamp c) ↔ t.Reaches c) ∧
      ((∀ b ≤ c, t.clamp b ≤ t.clamp c) ↔ t.Reaches c) ∧
      (t.Valid c → t.clamp c = c) ∧ t.clamp (t.clamp c) = t.clamp c := by
  refine ⟨t.clamp_isGreatest c, ?_, ?_, clamp_of_valid, clamp_of_valid (t.valid_clamp c)⟩
  · rw [reaches_iff]
    constructor
    · intro h d hvalid hle
      exact (le_clamp_iff hvalid).1 (h.2 ⟨hvalid, hle⟩)
    · intro h
      refine ⟨⟨t.valid_clamp c, t.clamp_le c⟩, ?_⟩
      rintro d ⟨hvalid, hle⟩
      exact (le_clamp_iff hvalid).2 (h d hvalid hle)
  · rw [reaches_iff]
    constructor
    · intro h d hvalid hle
      have hclamp := h d hle
      rw [clamp_of_valid hvalid] at hclamp
      exact (le_clamp_iff hvalid).1 hclamp
    · intro h b hle
      have hvalid := t.valid_clamp b
      exact (le_clamp_iff hvalid).2 (h _ hvalid ((t.clamp_le b).trans hle))

/-- A coordinate inside of a character, and one far behind the end of the text. -/
theorem clamp_isGreatest_iff_sample :
    Text.clamp ['a', 'é', '\n', 'b'] ⟨0, 2⟩ = ⟨0, 1⟩ ∧
      IsGreatest {d | Text.Valid ['a', 'é', '\n', 'b'] d ∧ d ≤ ⟨0, 2⟩}
        (Text.clamp ['a', 'é', '\n', 'b'] ⟨0, 2⟩) ∧
      Text.clamp ['a', 'é', '\n', 'b'] ⟨7, 9⟩ = ⟨1, 1⟩ ∧
      (∀ b ≤ (⟨7, 9⟩ : Coord), Text.clamp ['a', 'é', '\n', 'b'] b ≤
        Text.clamp ['a', 'é', '\n', 'b'] ⟨7, 9⟩) ∧
      Text.clamp ['a', 'é', '\n', 'b'] ⟨0, 3⟩ = ⟨0, 3⟩ := by
  obtain ⟨-, hgreatest, -, -, -⟩ := clamp_isGreatest_iff ['a', 'é', '\n', 'b'] ⟨0, 2⟩
  obtain ⟨-, -, horder, -, -⟩ := clamp_isGreatest_iff ['a', 'é', '\n', 'b'] ⟨7, 9⟩
  obtain ⟨-, -, -, hstays, -⟩ := clamp_isGreatest_iff ['a', 'é', '\n', 'b'] ⟨0, 3⟩
  exact ⟨by decide, hgreatest.2 (.inl (by decide)), by decide, horder.2 (.inr (by decide)),
    hstays (by decide)⟩

/-- On a line that is not there the column stays, also when it is in front of the end of the last
line. What comes out is not the last position, and in front of what a smaller coordinate leads to. -/
theorem not_clamp_isGreatest :
    ∃ (t : Text) (c d : Coord), c ≤ d ∧ t.clamp d = ⟨0, 0⟩ ∧ ¬IsGreatest {e | t.Valid e ∧ e ≤ d} (t.clamp d) ∧
      IsGreatest {e | t.Valid e ∧ e ≤ d} ⟨0, 3⟩ ∧ ¬t.clamp c ≤ t.clamp d := by
  have hlast : IsGreatest {e | Text.Valid ['a', 'b', 'c'] e ∧ e ≤ ⟨5, 0⟩} ⟨0, 3⟩ :=
    ⟨⟨by decide, by decide⟩, fun e he => he.1.le_endCoord⟩
  refine ⟨['a', 'b', 'c'], ⟨0, 3⟩, ⟨5, 0⟩, by decide, by decide, fun h => ?_, hlast, by decide⟩
  exact absurd (h.unique hlast) (by decide)

end Text

end Caret
