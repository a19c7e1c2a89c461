import Caret.Proofs.Column
import Caret.Selection

/-!
# Vertical motion

A selection that is moved up and down some lines at a time. Each step starts from the cursor that the last
one left, which may stand far in front of the column that was aimed for. Still the cursor depends on nothing
but the line it has come to, because what is aimed for is fixed by the first step and no later one loses it.

* `Text.lineAfter`: the line that steps lead to.
* `Selection.Aims`: the cursor is where a display column leads to on a line, and goes on aiming for it.
* `Selection.exists_moveLines`, `Selection.exists_moveAll`: one step and any number of steps.
* `Selection.moveAll_aims`: where vertical motion ends, and that it leads home.
-/

namespace Caret

namespace Text

/-- The line some lines further down or up, the last or the first one at most. -/
def lineMoved (t : Text) (line : ℕ) (lines : ℤ) : ℕ := min ((line : ℤ) + lines).toNat (t.lineCount - 1)

/-- The line after steps of so many lines each. -/
def lineAfter (t : Text) (line : ℕ) (steps : List ℤ) : ℕ := steps.foldl t.lineMoved line

/-- Where lines can be counted no move saturates short of the last line. -/
theorem min_saturatingShift {t : Text} (h : t.lineCount ≤ Count.bound) (line : ℕ) (lines : ℤ) :
    min (Count.saturatingShift line lines) (t.lineCount - 1) = t.lineMoved line lines := by
  have hlast : t.lineCount - 1 ≤ Count.bound - 1 := Nat.sub_le_sub_right h 1
  unfold Count.saturatingShift lineMoved
  rw [min_assoc, min_eq_right hlast]

end Text

/-- A place is found again by its own display column, or else one that has the same display column. -/
theorem Rendering.columnOf_coordAtColumn {r : Rendering} {t : Text} {c d : Coord} {column tabstop : ℕ}
    (hr : r.Lawful) (hlast : c.line < t.lineCount)
    (hwidth : ∀ n line, t.line? n = some line → r.lineWidth tabstop line < Count.bound)
    (hcolumn : r.columnOf t c tabstop = .ok column) (hcoord : r.coordAtColumn t c.line column tabstop = .ok d) :
    r.columnOf t d tabstop = .ok column := by
  obtain ⟨line, hline⟩ := exists_line t c.line
  have hmin : min c.line (t.lineCount - 1) = c.line := Nat.min_eq_left (Nat.le_pred_of_lt hlast)
  obtain ⟨before, hbefore, hfound, hreach, hlongest⟩ := exists_coordAtColumn hline (hwidth _ _ hline) column
  rw [hmin] at hline hfound
  obtain rfl := Except.ok.inj (hcoord.symm.trans hfound)
  obtain ⟨own, hown, hownColumn⟩ := exists_columnOf c hline (hwidth _ _ hline)
  obtain rfl := Except.ok.inj (hcolumn.symm.trans hownColumn)
  -- the stretch before the place keeps to its column, so it is within the longest one that does
  obtain ⟨rest, rfl⟩ := (hlongest own hown).resolve_right (lt_irrefl _)
  rw [columnOf_eq hr hline (hwidth _ _ hline) hbefore, le_antisymm hreach reach_le]

namespace Selection

variable {r : Rendering} {b : Buffer} {s s' : Selection} {target line : ℕ} {moves : List (ℤ × Bool)}

/-- The display column that vertical motion of a selection aims for: the one it has, or that of the
cursor. -/
def aim (r : Rendering) (b : Buffer) (s : Selection) : Except Fault ℕ :=
  match s.target with
  | some column => .ok column
  | none => r.columnOf b.text s.cursor b.options.tabstop

/-- The cursor is where a display column leads to on a line, and vertical motion goes on aiming for that
column. -/
structure Aims (r : Rendering) (b : Buffer) (target line : ℕ) (s : Selection) : Prop where
  target_eq : s.target = some target
  cursor_eq : r.coordAtColumn b.text line target b.options.tabstop = .ok s.cursor
  line_eq : s.cursor.line = line
  valid : b.text.Valid s.cursor

/-- Vertical motion in several steps, each of so many lines and with the selection extended or not. -/
def moveAll (r : Rendering) (b : Buffer) (moves : List (ℤ × Bool)) (s : Selection) : Except Fault Selection :=
  moves.foldlM (fun s (lines, extend) => s.moveLines r b lines extend) s

theorem moveAll_cons {move : ℤ × Bool} {s₁ : Selection} (hmove : s.moveLines r b move.1 move.2 = .ok s₁)
    (hmoves : s₁.moveAll r b moves = .ok s') : s.moveAll r b (move :: moves) = .ok s' := by
  unfold moveAll at hmoves ⊢
  rw [List.foldlM_cons]
  dsimp only
  rw [hmove]
  exact hmoves

theorem Aims.aim_eq (h : s.Aims r b target line) : s.aim r b = .ok target := by
  unfold aim
  rw [h.target_eq]

section

variable (hr : r.Lawful) (hcount : b.text.lineCount ≤ Count.bound)
  (hwidth : ∀ n line, b.text.line? n = some line → r.lineWidth b.options.tabstop line < Count.bound)
include hwidth

/-- There is always a display column to aim for. -/
theorem exists_aim (s : Selection) : ∃ target, s.aim r b = .ok target := by
  unfold aim
  cases s.target with
  | some column => exact ⟨column, rfl⟩
  | none =>
    cases hline : b.text.line? s.cursor.line with
    | none => exact ⟨0, by unfold Rendering.columnOf; rw [hline]⟩
    | some line =>
      obtain ⟨before, -, hcolumn⟩ := Rendering.exists_columnOf s.cursor hline (hwidth _ _ hline)
      exact ⟨_, hcolumn⟩

include hr hcount

/-- **One step** leads to the next line's place for the column that was aimed for. -/
theorem exists_moveLines (haim : s.aim r b = .ok target) (lines : ℤ) (extend : Bool) :
    ∃ s', s.moveLines r b lines extend = .ok s' ∧
      s'.Aims r b target (b.text.lineMoved s.cursor.line lines) := by
  have hlast : min (b.text.lineMoved s.cursor.line lines) (b.text.lineCount - 1) =
      b.text.lineMoved s.cursor.line lines := Nat.min_eq_left (Nat.min_le_right _ _)
  obtain ⟨text, htext⟩ := Rendering.exists_line b.text (b.text.lineMoved s.cursor.line lines)
  obtain ⟨before, hbefore, hcoord, -, -⟩ :=
    Rendering.exists_coordAtColumn htext (hwidth _ _ htext) target
  rw [hlast] at htext hcoord
  have hmove : s.moveLines r b lines extend = (do
      let target ← s.aim r b
      let cursor ← r.verticalMove b.text s.cursor lines (some target) b.options.tabstop
      return { s with anchor := if extend then s.anchor else cursor, cursor, target := some target }) := by
    unfold moveLines aim
    cases s.target <;> rfl
  have hvertical : r.verticalMove b.text s.cursor lines (some target) b.options.tabstop =
      .ok ⟨b.text.lineMoved s.cursor.line lines, Text.size before.flatten⟩ := by
    unfold Rendering.verticalMove
    rw [Text.min_saturatingShift hcount]
    exact hcoord
  rw [hmove, haim, Fault.ok_bind, hvertical]
  exact ⟨_, rfl, rfl, hcoord, rfl, Rendering.valid_of_begins hr htext hbefore⟩

/-- Further steps stay with the column. -/
theorem Aims.exists_moveAll (h : s.Aims r b target line) (moves : List (ℤ × Bool)) :
    ∃ s', s.moveAll r b moves = .ok s' ∧
      s'.Aims r b target (b.text.lineAfter line (moves.map Prod.fst)) := by
  induction moves generalizing s line with
  | nil => exact ⟨s, rfl, h⟩
  | cons move moves ih =>
    obtain ⟨s₁, hmove, h₁⟩ := exists_moveLines hr hcount hwidth h.aim_eq move.1 move.2
    rw [h.line_eq] at h₁
    obtain ⟨s', hmoves, h'⟩ := ih h₁
    exact ⟨s', moveAll_cons hmove hmoves, h'⟩

/-- **Any number of steps** lead to the last line's place for the column that the first one aimed for. -/
theorem exists_moveAll (haim : s.aim r b = .ok target) (hmoves : moves ≠ []) :
    ∃ s', s.moveAll r b moves = .ok s' ∧
      s'.Aims r b target (b.text.lineAfter s.cursor.line (moves.map Prod.fst)) := by
  obtain ⟨move, rest, rfl⟩ := List.exists_cons_of_ne_nil hmoves
  obtain ⟨s₁, hmove, h₁⟩ := exists_moveLines hr hcount hwidth haim move.1 move.2
  obtain ⟨s', hrest, h'⟩ := h₁.exists_moveAll hr hcount hwidth rest
  exact ⟨s', moveAll_cons hmove hrest, h'⟩

/-- Two ways to the same line end at the same place. -/
theorem moveAll_cursor_eq (s : Selection) {others : List (ℤ × Bool)} (hmoves : moves ≠ [])
    (hothers : others ≠ [])
    (hline : b.text.lineAfter s.cursor.line (moves.map Prod.fst) =
      b.text.lineAfter s.cursor.line (others.map Prod.fst)) :
    ∃ s' s'', s.moveAll r b moves = .ok s' ∧ s.moveAll r b others = .ok s'' ∧ s'.cursor = s''.cursor := by
  obtain ⟨target, haim⟩ := exists_aim hwidth s
  obtain ⟨s', hmove, h'⟩ := exists_moveAll hr hcount hwidth haim hmoves
  obtain ⟨s'', hother, h''⟩ := exists_moveAll hr hcount hwidth haim hothers
  rw [← hline] at h''
  exact ⟨s', s'', hmove, hother, Except.ok.inj (h'.cursor_eq.symm.trans h''.cursor_eq)⟩

/-- **Vertical motion depends on the line it comes to.** The first step fixes the column that is aimed for,
and from then on it stays. Whatever lines lie in between, the cursor is where that column leads to on the
line that the steps add up to, and motion that leads back to the line it began on, with no other column in
view, leads back to the display column it began in. -/
theorem moveAll_aims (s : Selection) (hmoves : moves ≠ []) :
    ∃ target s', s.aim r b = .ok target ∧ s.moveAll r b moves = .ok s' ∧
      s'.Aims r b target (b.text.lineAfter s.cursor.line (moves.map Prod.fst)) ∧
      (s.target = none → b.text.lineAfter s.cursor.line (moves.map Prod.fst) = s.cursor.line →
        r.columnOf b.text s.cursor b.options.tabstop = .ok target ∧
          r.columnOf b.text s'.cursor b.options.tabstop = .ok target) := by
  obtain ⟨target, haim⟩ := exists_aim hwidth s
  obtain ⟨s', hmove, h'⟩ := exists_moveAll hr hcount hwidth haim hmoves
  refine ⟨target, s', haim, hmove, h', fun hunset hhome => ?_⟩
  have hcolumn : r.columnOf b.text s.cursor b.options.tabstop = .ok target := by
    unfold aim at haim
    rwa [hunset] at haim
  rw [hhome] at h'
  have hlast : s.cursor.line < b.text.lineCount := h'.line_eq ▸ h'.valid.1
  exact ⟨hcolumn, Rendering.columnOf_coordAtColumn hr hlast hwidth hcolumn h'.cursor_eq⟩

end

/-- A wide character between others, a tab, and an empty line. -/
def sampleLines : Buffer := .ofText 0 ['a', '中', 'b', '\n', '\t', 'x', '\n'] {}

/-- From display column 3 over a line that begins with a tab, further down than there are lines, and back. -/
theorem moveAll_aims_sample :
    ∃ s', (point ⟨0, 4⟩).moveAll Unicode.terminal sampleLines [(1, false), (5, true), (-2, false)] = .ok s' ∧
      s'.target = some 3 ∧ s'.cursor = ⟨0, 4⟩ := by
  have hwidth : ∀ n line, sampleLines.text.line? n = some line →
      Unicode.terminal.lineWidth sampleLines.options.tabstop line < Count.bound := by
    intro n line hline
    match n with
    | 0 | 1 | 2 =>
      obtain rfl := Option.some.inj hline
      decide +kernel
    | n + 3 => cases hline
  obtain ⟨target, s', haim, hmove, haims, -⟩ :=
    moveAll_aims Unicode.terminal_lawful (by decide) hwidth (.point ⟨0, 4⟩)
      (show [(1, false), (5, true), (-2, false)] ≠ [] by decide)
  have htarget : aim Unicode.terminal sampleLines (.point ⟨0, 4⟩) = .ok 3 := by decide +kernel
  obtain rfl := Except.ok.inj (htarget.symm.trans haim)
  have hplace : Unicode.terminal.coordAtColumn sampleLines.text 0 3 sampleLines.options.tabstop =
      .ok ⟨0, 4⟩ := by decide +kernel
  exact ⟨s', hmove, haims.target_eq, Except.ok.inj (haims.cursor_eq.symm.trans hplace)⟩

end Selection

end Caret
