import Caret.Selection.List

/-!
# Selection descriptions

The textual form of selections: `<line>.<column>,<line>.<column>`, anchor first, lines and byte
columns counted from one. A list is written with its main selection first.

* `Selection.describe`, `Selection.ofDescription`: one selection written and read.
* `SelectionList.describe`, `SelectionList.ofDescriptions`: the same for a list.
-/

namespace Caret

namespace Description

/-- White space at either end of a number is ignored. -/
def isBlank (c : Char) : Bool :=
  let n := c.toNat
  (9 ≤ n && n ≤ 13) || n == 0x20 || n == 0x85 || n == 0xA0 || n == 0x1680 ||
    (0x2000 ≤ n && n ≤ 0x200A) || n == 0x2028 || n == 0x2029 || n == 0x202F || n == 0x205F ||
    n == 0x3000

/-- Without the white space at either end. -/
def trim (cs : List Char) : List Char :=
  (cs.dropWhile isBlank).reverse.dropWhile isBlank |>.reverse

/-- The parts before and after the first occurrence of a character. -/
def splitFirst (separator : Char) : List Char → Option (List Char × List Char)
  | [] => none
  | c :: rest =>
    if c = separator then some ([], rest)
    else (splitFirst separator rest).map fun (before, after) => (c :: before, after)

/-- The value of a sequence of decimal digits. -/
def value (digits : List Char) : Nat :=
  digits.foldl (fun n c => 10 * n + (c.toNat - '0'.toNat)) 0

/-- Reads a count: at least one decimal digit, with a plus sign in front if one likes. -/
def count? (cs : List Char) : Option Nat :=
  let digits := match cs with
    | '+' :: rest => rest
    | _ => cs
  if digits ≠ [] ∧ digits.all Char.isDigit ∧ value digits < Count.bound then some (value digits)
  else none

/-- A description that has not the form of one. -/
def malformed (description : String) : EditError :=
  .invalidSelection s!"'{description}' does not follow <line>.<column>,<line>.<column> format"

/-- A description with a line or column zero. -/
def notPositive (description : String) : EditError :=
  .invalidSelection s!"coordinates must be >= 1: '{description}'"

/-- Reads one coordinate of a description. -/
def coord (description : String) (part : List Char) : Except EditError Coord := do
  let some (line, column) := splitFirst '.' part | throw (malformed description)
  let some line := count? (trim line) | throw (malformed description)
  let some column := count? (trim column) | throw (malformed description)
  if line = 0 ∨ column = 0 then throw (notPositive description)
  return ⟨line - 1, column - 1⟩

end Description

namespace Selection

/-- The description of a selection. -/
def describe (s : Selection) : Except Fault String := do
  let anchorLine ← Count.add s.anchor.line 1
  let anchorColumn ← Count.add s.anchor.column 1
  let cursorLine ← Count.add s.cursor.line 1
  let cursorColumn ← Count.add s.cursor.column 1
  return s!"{anchorLine}.{anchorColumn},{cursorLine}.{cursorColumn}"

/-- The selection that a description stands for. -/
def ofDescription (description : String) : Except EditError Selection := do
  let some (anchor, cursor) := Description.splitFirst ',' description.toList
    | throw (Description.malformed description)
  let anchor ← Description.coord description anchor
  let cursor ← Description.coord description cursor
  return { anchor, cursor }

end Selection

namespace SelectionList

/-- The descriptions of a list with spaces between them, the main selection first and the ones
before it last. -/
def describe (l : SelectionList) : Except Fault String := do
  let items := l.group.items.rotateLeft l.group.main
  return " ".intercalate (← items.mapM Selection.describe)

/-- The list that descriptions taken at a timestamp of the buffer stand for, as it was then. -/
def ofDescriptionsThen (b : Buffer) (descriptions : List String) (timestamp main : Nat) :
    Except Failure SelectionList := do
  if b.timestamp < timestamp then throw (.error (.invalidTimestamp timestamp b.timestamp))
  let items ← match descriptions.mapM Selection.ofDescription with
    | .ok items => pure items
    | .error e => throw (.error e)
  if items.isEmpty then throw (.error .emptySelectionList)
  unless main < items.length do throw (.error (.invalidMainIndex main items.length))
  let group := Selections.normalize { items, main }
  Failure.ofFault do
    let list ← ofTimestamp b group.items timestamp
    return { list with group := ← list.group.setMain group.main }

/-- A list read from descriptions as it is now: moved across the changes made since then, or put at
the nearest positions if there are none. -/
def refresh (l : SelectionList) (b : Buffer) : Except Fault SelectionList :=
  if l.timestamp < b.timestamp then l.updateMerging b
  else .ok (l.mapGroup (Selections.clamp b.text))

/-- The list that descriptions taken at a timestamp of the buffer stand for, as it is now. -/
def ofDescriptions (b : Buffer) (descriptions : List String) (timestamp main : Nat) :
    Except Failure SelectionList := do
  Failure.ofFault ((← ofDescriptionsThen b descriptions timestamp main).refresh b)

end SelectionList

end Caret
