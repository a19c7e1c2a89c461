import Caret.Fault

/-!
# Coordinates

A position in a text as a zero-based line and a zero-based byte column. Coordinates are ordered by
line first. The column equal to the length of a line addresses the end of that line: its newline,
or the end of the text on the last line.

* `Coord.carry`: the rule by which every position of the library moves.
-/

namespace Caret

/-- A line and a byte column, both counted from zero. -/
structure Coord where
  line : Nat
  column : Nat
  deriving DecidableEq, Repr, Inhabited

namespace Coord

/-- The first position of any text. -/
def zero : Coord := ⟨0, 0⟩

/-- Line first, then column. -/
protected def Before (a b : Coord) : Prop := a.line < b.line ∨ a.line = b.line ∧ a.column < b.column

/-- Line first, then column, equality included. -/
protected def AtOrBefore (a b : Coord) : Prop :=
  a.line < b.line ∨ a.line = b.line ∧ a.column ≤ b.column

instance : LT Coord := ⟨Coord.Before⟩
instance : LE Coord := ⟨Coord.AtOrBefore⟩

theorem lt_def {a b : Coord} :
    a < b ↔ a.line < b.line ∨ a.line = b.line ∧ a.column < b.column := Iff.rfl

theorem le_def {a b : Coord} :
    a ≤ b ↔ a.line < b.line ∨ a.line = b.line ∧ a.column ≤ b.column := Iff.rfl

theorem ext_iff {a b : Coord} : a = b ↔ a.line = b.line ∧ a.column = b.column := by
  cases a; cases b; simp

protected theorem le_refl (a : Coord) : a ≤ a := Or.inr ⟨rfl, Nat.le_refl _⟩

protected theorem le_trans {a b c : Coord} (hab : a ≤ b) (hbc : b ≤ c) : a ≤ c := by
  simp only [le_def] at *; omega

protected theorem le_antisymm {a b : Coord} (hab : a ≤ b) (hba : b ≤ a) : a = b := by
  simp only [le_def, ext_iff] at *; omega

protected theorem le_total (a b : Coord) : a ≤ b ∨ b ≤ a := by
  simp only [le_def]; omega

instance (a b : Coord) : Decidable (a < b) :=
  inferInstanceAs (Decidable (a.line < b.line ∨ a.line = b.line ∧ a.column < b.column))

instance (a b : Coord) : Decidable (a ≤ b) :=
  inferInstanceAs (Decidable (a.line < b.line ∨ a.line = b.line ∧ a.column ≤ b.column))

instance : Min Coord := minOfLe
instance : Max Coord := maxOfLe
instance : Ord Coord := ⟨fun a b => compareOfLessAndEq a b⟩

/-- Written as `line:column`. -/
instance : ToString Coord := ⟨fun c => s!"{c.line}:{c.column}"⟩

/-- The position that stands to `target` as `c` stands to `origin`: the lines move together, the
column only where `c` shares the line of `origin`. -/
def carry (c origin target : Coord) : Except Fault Coord := do
  let columns ← if c.line = origin.line then Count.diff target.column origin.column else pure 0
  let lines ← Count.diff target.line origin.line
  return ⟨← Count.shift c.line lines, ← Count.shift c.column columns⟩

end Coord

/-- A stretch of text from `start` up to but not including `stop`. -/
structure Span where
  start : Coord
  stop : Coord
  deriving DecidableEq, Repr, Inhabited

end Caret
