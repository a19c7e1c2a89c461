import Mathlib.Algebra.Order.Monoid.Unbundled.Basic
import Mathlib.Tactic.Common
import Caret.Coord
import Caret.Proofs.Fault

/-!
# Coordinates as extents

A coordinate is also the extent of a piece of text: the newlines in it, and the bytes behind the
last of them. Extents are put behind each other with `+`. In these terms `Coord.carry` is plain: it
moves `a + d` to `b + d`.

* `Coord.add_le_add_iff`, `Coord.le_add`: order and sums.
* `Coord.carry_add_eq_ok_iff`, `Coord.carry_add`: the rule by which positions move, on sums.
-/

namespace Caret

namespace Coord

instance : LinearOrder Coord where
  le_refl := Coord.le_refl
  le_trans _ _ _ := Coord.le_trans
  le_antisymm _ _ := Coord.le_antisymm
  le_total := Coord.le_total
  lt_iff_le_not_ge a b := by simp only [le_def, lt_def]; omega
  toDecidableLE := inferInstance
  toDecidableLT := inferInstance
  toDecidableEq := inferInstance
  toMin := inferInstance
  toMax := inferInstance
  toOrd := inferInstance

/-! ## Sums -/

/-- `a + d` is the end of a piece of text of extent `d` that begins at `a`. -/
instance : Add Coord where
  add a d := if d.line = 0 then ⟨a.line, a.column + d.column⟩ else ⟨a.line + d.line, d.column⟩

theorem add_def (a d : Coord) :
    a + d = if d.line = 0 then ⟨a.line, a.column + d.column⟩ else ⟨a.line + d.line, d.column⟩ := rfl

theorem add_line (a d : Coord) : (a + d).line = a.line + d.line := by
  rw [add_def]; split <;> simp_all

theorem add_column (a d : Coord) :
    (a + d).column = if d.line = 0 then a.column + d.column else d.column := by
  rw [add_def]; split <;> rfl

theorem add_column_le (a d : Coord) : (a + d).column ≤ a.column + d.column := by
  rw [add_column]; split <;> omega

instance : Zero Coord := ⟨Coord.zero⟩

@[simp] theorem zero_line : (0 : Coord).line = 0 := rfl
@[simp] theorem zero_column : (0 : Coord).column = 0 := rfl

instance : AddLeftCancelMonoid Coord where
  add_assoc a b c := by
    simp only [ext_iff, add_line, add_column]
    constructor
    · omega
    · by_cases hb : b.line = 0 <;> by_cases hc : c.line = 0 <;> simp [hb, hc, Nat.add_assoc]
  zero_add a := by
    simp only [ext_iff, add_line, add_column, zero_line, zero_column]
    exact ⟨Nat.zero_add _, by split <;> omega⟩
  add_zero a := by
    simp only [ext_iff, add_line, add_column, zero_line, zero_column]
    exact ⟨Nat.add_zero _, rfl⟩
  nsmul := nsmulRec
  add_left_cancel a b c h := by
    simp only [ext_iff, add_line, add_column] at h ⊢
    obtain ⟨hl, hc⟩ := h
    have hl' : b.line = c.line := by omega
    refine ⟨hl', ?_⟩
    rw [hl'] at hc
    split at hc <;> omega

theorem zero_le (a : Coord) : 0 ≤ a := by
  simp only [le_def, zero_line, zero_column]; omega

theorem add_le_add_iff {a b c : Coord} : a + b ≤ a + c ↔ b ≤ c := by
  simp only [le_def, add_line, add_column]
  split <;> split <;> omega

theorem add_lt_add_iff {a b c : Coord} : a + b < a + c ↔ b < c := by
  rw [← not_le, ← not_le, add_le_add_iff]

theorem le_add (a d : Coord) : a ≤ a + d := by
  simpa using add_le_add_iff.2 (zero_le d)

theorem le_add_left (d a : Coord) : d ≤ a + d := by
  simp only [le_def, add_line, add_column]
  split <;> omega

/-- Behind something on the same line nothing stays where it was. -/
theorem lt_add_left {a d : Coord} (ha : 0 < a) (hd : d.line = 0) : d < a + d := by
  simp only [lt_def, zero_line, zero_column, add_line, add_column] at ha ⊢
  split <;> omega

/-! ## Moving -/

/-- Both numbers have a signed form. -/
def Signed (c : Coord) : Prop := c.line < Count.signedBound ∧ c.column < Count.signedBound

/-- Both numbers are counts. -/
def Counted (c : Coord) : Prop := c.line < Count.bound ∧ c.column < Count.bound

/-- The end of a piece of signed extent behind a signed position is no farther than counts
reach. -/
theorem Signed.add {a d : Coord} (ha : a.Signed) (hd : d.Signed) : (a + d).Counted := by
  have hb := Count.signedBound_add_self
  have hc := add_column_le a d
  obtain ⟨hal, hac⟩ := ha
  obtain ⟨hdl, hdc⟩ := hd
  exact ⟨by rw [add_line]; omega, by omega⟩

theorem Signed.counted {c : Coord} (h : c.Signed) : c.Counted := by
  have hb := Count.signedBound_add_self
  obtain ⟨hl, hc⟩ := h
  exact ⟨by omega, by omega⟩

/-- What lies behind a position in the signed range is itself an extent in that range. -/
theorem Signed.of_add {a d : Coord} (h : (a + d).Signed) : d.Signed := by
  obtain ⟨hl, hc⟩ := h
  rw [add_line] at hl
  rw [add_column] at hc
  refine ⟨by omega, ?_⟩
  split at hc <;> omega

variable {a b d r : Coord}

/-- Lines and columns move apart from each other, the column only on the line of `a`. -/
theorem carry_add_eq (ha : a.Signed) (hb : b.Signed) :
    (a + d).carry a b = (do
      let line ← Count.shift (a + d).line ((b.line : ℤ) - a.line)
      let column ← Count.shift (a + d).column (if d.line = 0 then (b.column : ℤ) - a.column else 0)
      return ⟨line, column⟩) := by
  unfold carry
  rw [Count.diff_eq (Nat.lt_add_left _ hb.1) (Nat.lt_add_left _ ha.1),
    Count.diff_eq (Nat.lt_add_left _ hb.2) (Nat.lt_add_left _ ha.2)]
  by_cases hd : d.line = 0
  · rw [if_pos (show (a + d).line = a.line by rw [add_line]; omega), if_pos hd]
    rfl
  · rw [if_neg (show (a + d).line ≠ a.line by rw [add_line]; omega), if_neg hd]
    rfl

/-- **The rule by which positions move**, and the one way in which it can fail: what stands behind
`a` by `d` comes to stand behind `b` by `d`, unless that is too far to be counted. -/
theorem carry_add_eq_ok_iff (ha : a.Signed) (hb : b.Signed) :
    (a + d).carry a b = .ok r ↔ r = b + d ∧ r.Counted := by
  constructor
  · intro h
    rw [carry_add_eq ha hb, Fault.bind_eq_ok] at h
    obtain ⟨line, hline, h⟩ := h
    rw [Fault.bind_eq_ok] at h
    obtain ⟨column, hcolumn, h⟩ := h
    cases h
    obtain ⟨hl, hlc⟩ := Count.of_shift_eq_ok hline
    obtain ⟨hc, hcc⟩ := Count.of_shift_eq_ok hcolumn
    refine ⟨ext_iff.2 ⟨?_, ?_⟩, hlc, hcc⟩
    · rw [add_line] at hl ⊢
      dsimp only
      omega
    · rw [add_column] at hc ⊢
      dsimp only
      by_cases hd : d.line = 0
      · simp only [if_pos hd] at hc ⊢
        omega
      · simp only [if_neg hd] at hc ⊢
        omega
  · rintro ⟨rfl, hline, hcolumn⟩
    rw [carry_add_eq ha hb, Count.shift_eq (k := (b + d).line) (by simp only [add_line]; omega) hline,
      Fault.ok_bind, Count.shift_eq (k := (b + d).column) (by simp only [add_column]; split <;> omega)
        hcolumn]
    rfl

/-- The rule where the target can be counted. -/
theorem carry_add (ha : a.Signed) (hb : b.Signed) (hc : (b + d).Counted) :
    (a + d).carry a b = .ok (b + d) := (carry_add_eq_ok_iff ha hb).2 ⟨rfl, hc⟩

end Coord

end Caret
