import Caret.Coord

/-!
# Texts

A text is a sequence of characters, addressed by byte offsets of its UTF-8 form or by coordinates.
Only newlines break lines, and a trailing newline opens an empty last line, so that every text has
at least one line.

* `Text.lineStart`, `Text.lineAt`, `Text.lineLength`: lines in terms of byte offsets.
* `Text.characterStart`, `Text.next`, `Text.previous`: characters in terms of byte offsets.
* `Text.offset`, `Text.coordAt`: between coordinates and byte offsets.
* `Text.Valid`, `Text.clamp`: which coordinates are positions, and the position nearest to one.
* `Text.insertAt`, `Text.removeRange`: the two primitive edits.
-/

namespace Caret

/-- A text as a sequence of characters. -/
abbrev Text := List Char

namespace Text

/-! ## Sizes -/

/-- The number of bytes. -/
def size : Text → Nat
  | [] => 0
  | c :: rest => c.utf8Size + size rest

@[simp] theorem size_nil : size [] = 0 := rfl

@[simp] theorem size_cons (c : Char) (t : Text) : size (c :: t) = c.utf8Size + size t := rfl

@[simp] theorem size_append (s t : Text) : size (s ++ t) = size s + size t := by
  induction s with
  | nil => simp
  | cons c s ih => simp only [List.cons_append, size_cons, ih, Nat.add_assoc]

/-- A text holds fewer bytes than this, so that every offset has a signed form. -/
def capacity : Nat := Count.signedBound

/-! ## Lines -/

/-- The number of lines. -/
def lineCount (t : Text) : Nat := t.count '\n' + 1

/-- A line with the newline that ends it. -/
def fullLine? : Text → Nat → Option Text
  | t, 0 => some (t.takeWhile (· ≠ '\n') ++ (t.dropWhile (· ≠ '\n')).take 1)
  | [], _ + 1 => none
  | c :: rest, n + 1 => if c = '\n' then fullLine? rest n else fullLine? rest (n + 1)

/-- A line without its newline. -/
def line? : Text → Nat → Option Text
  | t, 0 => some (t.takeWhile (· ≠ '\n'))
  | [], _ + 1 => none
  | c :: rest, n + 1 => if c = '\n' then line? rest n else line? rest (n + 1)

/-- The number of bytes of a line without its newline, zero past the last line. -/
def lineLength (t : Text) (n : Nat) : Nat := ((t.line? n).map size).getD 0

/-- The byte offset of the beginning of a line, the end of the text past the last line. -/
def lineStart : Text → Nat → Nat
  | _, 0 => 0
  | [], _ + 1 => 0
  | c :: rest, n + 1 => c.utf8Size + if c = '\n' then lineStart rest n else lineStart rest (n + 1)

/-- The line that holds a byte offset: the number of newlines before it. -/
def lineAt : Text → Nat → Nat
  | [], _ => 0
  | c :: rest, n =>
    if n = 0 then 0 else (if c = '\n' then 1 else 0) + lineAt rest (n - c.utf8Size)

/-! ## Characters -/

/-- The start of the character that holds a byte offset, the end of the text past its end. -/
def characterStart : Text → Nat → Nat
  | [], _ => 0
  | c :: rest, n =>
    if n < c.utf8Size then 0 else c.utf8Size + characterStart rest (n - c.utf8Size)

/-- Whether a byte offset is the start of a character or the end of the text. -/
def isBoundary (t : Text) (n : Nat) : Bool := t.characterStart n == n

/-- The start of the character after the one that holds a byte offset, at most the end. -/
def next : Text → Nat → Nat
  | [], _ => 0
  | c :: rest, n => c.utf8Size + if n < c.utf8Size then 0 else next rest (n - c.utf8Size)

/-- The start of the character before the one that holds a byte offset, at least zero. -/
def previous (t : Text) (n : Nat) : Nat := t.characterStart (t.characterStart n - 1)

/-! ## Coordinates -/

/-- The byte offset of a coordinate, at most the end of the text. -/
def offset (t : Text) (c : Coord) : Except Fault Nat := do
  return min (← Count.add (t.lineStart c.line) c.column) t.size

/-- The coordinate of a byte offset, at most the end of the text. -/
def coordAt (t : Text) (n : Nat) : Coord :=
  let n := min n t.size
  let line := t.lineAt n
  ⟨line, n - t.lineStart line⟩

/-- The position behind the last character. -/
def endCoord (t : Text) : Coord :=
  let last := t.lineCount - 1
  ⟨last, t.lineLength last⟩

/-- A coordinate is a position of the text when its line exists, its column does not exceed the
length of that line, and it does not split a character. -/
def Valid (t : Text) (c : Coord) : Prop :=
  c.line < t.lineCount ∧ c.column ≤ t.lineLength c.line ∧
    t.isBoundary (t.lineStart c.line + c.column) = true

instance (t : Text) (c : Coord) : Decidable (t.Valid c) :=
  inferInstanceAs (Decidable (_ ∧ _ ∧ _))

/-- Whether a coordinate is at or past the end of the text. -/
def isEnd (t : Text) (c : Coord) : Bool := decide (t.endCoord ≤ c)

/-- The nearest position at or before a coordinate. -/
def clamp (t : Text) (c : Coord) : Coord :=
  let line := min c.line (t.lineCount - 1)
  let column := min c.column (t.lineLength line)
  let start := t.lineStart line
  ⟨line, t.characterStart (start + column) - start⟩

/-- The coordinate of the next character, at most the end of the text. -/
def nextCoord (t : Text) (c : Coord) : Except Fault Coord := do
  return t.coordAt (t.next (← t.offset c))

/-- The coordinate of the previous character, at least the start of the text. -/
def previousCoord (t : Text) (c : Coord) : Except Fault Coord := do
  return t.coordAt (t.previous (← t.offset c))

/-! ## Parts and edits -/

/-- The text before and after a byte offset, if that is a boundary. -/
def cut? : Text → Nat → Option (Text × Text)
  | t, 0 => some ([], t)
  | [], _ + 1 => none
  | c :: rest, n + 1 =>
    if c.utf8Size ≤ n + 1 then
      (cut? rest (n + 1 - c.utf8Size)).map fun (before, after) => (c :: before, after)
    else none

/-- Cutting takes a text apart into two whose first has the wanted size. -/
theorem cut?_eq_some_iff {t before after : Text} {n : Nat} :
    t.cut? n = some (before, after) ↔ t = before ++ after ∧ before.size = n := by
  fun_induction cut? t n generalizing before with
  | case1 t =>
    cases before with
    | nil => simp
    | cons c before =>
      have := c.utf8Size_pos
      simp only [size_cons, Option.some.injEq, Prod.mk.injEq]
      constructor
      · intro h; simp at h
      · intro h; omega
  | case2 n =>
    simp only [reduceCtorEq, false_iff, not_and]
    intro h
    have : before = [] := by cases before <;> simp_all
    simp [this]
  | case3 c rest n hc ih =>
    simp only [Option.map_eq_some_iff, Prod.mk.injEq, Prod.exists]
    constructor
    · rintro ⟨b, a, h, rfl, rfl⟩
      obtain ⟨rfl, hb⟩ := ih.1 h
      simp only [List.cons_append, size_cons, hb, true_and]; omega
    · rintro ⟨h, hn⟩
      cases before with
      | nil => simp at hn
      | cons d b =>
        simp only [List.cons_append, List.cons.injEq] at h
        obtain ⟨rfl, rfl⟩ := h
        simp only [size_cons] at hn
        exact ⟨b, after, ih.2 ⟨rfl, by omega⟩, rfl, rfl⟩
  | case4 c rest n hc =>
    simp only [reduceCtorEq, false_iff, not_and]
    intro h hn
    cases before with
    | nil => simp at hn
    | cons d b =>
      simp only [List.cons_append, List.cons.injEq] at h
      simp only [size_cons, ← h.1] at hn
      omega

/-- The text between two byte offsets, if these are boundaries in order. -/
def slice? (t : Text) (start stop : Nat) : Option Text := do
  if stop < start then none
  let (before, _) ← t.cut? stop
  let (_, part) ← before.cut? start
  return part

/-- The text between two coordinates. It is empty when they are out of order or split a
character. -/
def between (t : Text) (start stop : Coord) : Except Fault Text := do
  let low ← t.offset start
  let high ← t.offset stop
  return (t.slice? low (max low high)).getD []

/-- The text with `new` put in at a byte offset. -/
def insertAt (t : Text) (n : Nat) (new : Text) : Except Fault Text :=
  match t.cut? n with
  | none => .error .splitCharacter
  | some (before, after) =>
    if t.size + new.size < capacity then .ok (before ++ new ++ after) else .error .tooLarge

/-- The text without the part between two byte offsets. -/
def removeRange (t : Text) (start stop : Nat) : Except Fault Text :=
  match t.cut? start, t.cut? stop with
  | some (before, _), some (_, after) =>
    if start ≤ stop then .ok (before ++ after) else .error .reversed
  | _, _ => .error .splitCharacter

end Text

end Caret
