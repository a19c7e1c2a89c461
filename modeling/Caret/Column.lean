import Caret.Text

/-!
# Display columns

Byte columns measured in the cells of a display. How a line is cut into the clusters that a display
draws as one, and how many cells a cluster takes, is a `Rendering`; a tab reaches to the next tab
stop.

* `Rendering.columnOf`: the display column of a coordinate.
* `Rendering.coordAtColumn`: the coordinate at or before a display column.
* `Rendering.verticalMove`: a coordinate some lines further, aiming for a display column.
-/

namespace Caret

/-- How a display draws a line. -/
structure Rendering where
  /-- The pieces that are drawn as one. They are not empty and join back to the line. -/
  clusters : Text → List Text
  /-- The number of cells of a piece. -/
  width : Text → Nat

namespace Rendering

variable (r : Rendering)

/-- The number of cells of a piece that is drawn at a display column. -/
def cells (tabstop column : Nat) (cluster : Text) : Nat :=
  if cluster = ['\t'] then
    let tabstop := max tabstop 1
    tabstop - column % tabstop
  else r.width cluster

/-- The display column reached before the first piece that starts at or behind `stop`, with the
pieces starting at byte `start` and display column `column`. -/
def measure (tabstop stop : Nat) : List Text → Nat → Nat → Except Fault Nat
  | [], _, column => .ok column
  | cluster :: rest, start, column =>
    if stop ≤ start then .ok column
    else do
      let column ← Count.add column (r.cells tabstop column cluster)
      measure tabstop stop rest (start + cluster.size) column

/-- The display column of a coordinate, zero on a line that does not exist. -/
def columnOf (t : Text) (c : Coord) (tabstop : Nat) : Except Fault Nat :=
  match t.line? c.line with
  | none => .ok 0
  | some line => r.measure tabstop (min c.column line.size) (r.clusters line) 0 0

/-- The byte at which the first piece starts that reaches past the display column `target`, or at
which the pieces end. -/
def seek (tabstop target : Nat) : List Text → Nat → Nat → Except Fault Nat
  | [], start, _ => .ok start
  | cluster :: rest, start, column => do
    let column ← Count.add column (r.cells tabstop column cluster)
    if target < column then return start
    else seek tabstop target rest (start + cluster.size) column

/-- The coordinate on a line, or on the last line, that lies at or just before a display column. -/
def coordAtColumn (t : Text) (line target tabstop : Nat) : Except Fault Coord := do
  let line := min line (t.lineCount - 1)
  match t.line? line with
  | none => return ⟨line, 0⟩
  | some text => return ⟨line, ← r.seek tabstop target (r.clusters text) 0 0⟩

/-- The coordinate `lines` further down or up, aiming for a display column or else for its own. -/
def verticalMove (t : Text) (c : Coord) (lines : Int) (target : Option Nat) (tabstop : Nat) :
    Except Fault Coord := do
  let target ← match target with
    | some column => pure column
    | none => r.columnOf t c tabstop
  r.coordAtColumn t (min (Count.saturatingShift c.line lines) (t.lineCount - 1)) target tabstop

end Rendering

end Caret
