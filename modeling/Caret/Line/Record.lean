import Caret.Change

/-!
# Line records

What a change means for those who only care about whole lines: lines put in or taken out.

* `LineRecord.ofChange`: the records of one change.
-/

namespace Caret

/-- Lines put in (`count > 0`) or taken out (`count < 0`) from line `line` on. -/
structure LineRecord where
  line : Nat
  count : Int
  deriving DecidableEq, Repr, Inhabited

namespace LineRecord

/-- Lines put in. -/
def inserted (line count : Nat) : Except Fault LineRecord := .ok ⟨line, Count.signed count⟩

/-- Lines taken out. -/
def removed (line count : Nat) : Except Fault LineRecord := do
  return ⟨line, ← Count.neg (Count.signed count)⟩

/-- The records of a change. A change with both ends at column zero puts in or takes out whole
lines. Any other one touches the content of lines: those that it touches are taken out, and those
that result are put in, at the same place. -/
def ofChange (change : Change) : Except Fault (List LineRecord) := do
  let line := change.start.line
  let count ← Count.sub change.stop.line line
  let whole := change.start.column = 0 ∧ change.stop.column = 0
  match change.kind with
  | .insert =>
    if whole then return [← inserted line count]
    else return [← removed line 1, ← inserted line (← Count.add count 1)]
  | .erase =>
    if whole then return [← removed line count]
    else return [← removed line (← Count.add count 1), ← inserted line 1]

end LineRecord

end Caret
