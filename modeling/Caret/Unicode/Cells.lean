import Caret.Column
import Caret.Unicode.Cluster
import Caret.Unicode.Wide

/-!
# Cells of a display

How many cells a grapheme cluster takes on a display with cells of one width. Most characters take
one, wide ones take two and marks take none; some sequences take more or less than their characters
alone.

* `cellsOf`: the cells of a single character.
* `CellContext.add`: the cells of a character in view of what follows it.
* `clusterCells`: the cells of a cluster.
* `terminal`: the rendering of such a display.
-/

namespace Caret.Unicode

/-- Marks with a cell of their own: the voiced sound marks of halfwidth Katakana and the joiner of
Tifinagh. -/
def isMarkWithCell (c : Char) : Bool :=
  let n := c.toNat
  n == 0x2D7F || n == 0xFF9E || n == 0xFF9F

/-- Prepended letters and signs that are drawn above what follows them. Numbering signs, which go
below it, keep their cell. -/
def isDrawnAbove (c : Char) : Bool :=
  let n := c.toNat
  (Property.prepended.has c && !Property.format.has c) ||
    n == 0x605 || n == 0x70F || n == 0x890 || n == 0x891 || n == 0x8E2

/-- A character that takes no cell of its own. -/
def isZeroWidth (c : Char) : Bool :=
  !isMarkWithCell c &&
    (Property.defaultIgnorable.has c || Property.graphemeExtend.has c || Property.newMark.has c ||
      isHangulVowel c || isHangulTrailing c || isDrawnAbove c || c.toNat == 0xA8FA)

/-- The cells of a character alone. -/
def cellsOf (c : Char) : Nat :=
  let n := c.toNat
  if n ≤ 0xA0 then 1
  else if n == 0x115F || n == 0x17A4 then 2
  else if n == 0x17D8 then 3
  else if isZeroWidth c then 0
  else if Property.wide.has c then 2
  else 1

/-- What follows a character, as far as it bears on the cells of the character. -/
inductive CellContext
  | plain
  | lineFeed
  /-- An emoji in colour. -/
  | emoji
  /-- One or more regional indicators. -/
  | regional
  | skinTone
  /-- A joiner with an emoji behind it. -/
  | joinedEmoji
  /-- The same with the frame of a key before it. -/
  | joinedKey
  /-- An odd number of regional indicators, or an even one, before a joiner with an emoji. -/
  | joinedHalfFlag
  | joinedFlag
  /-- The sign that asks for colour. -/
  | inColour
  /-- The same before a joiner with an emoji behind it. -/
  | joinedInColour
  /-- The sign that asks for plain text. -/
  | asText
  /-- The sign that asks for a wide quotation mark. -/
  | wideQuote
  /-- The end of a tag sequence before a joiner with an emoji behind it, and how many letters of the
  tag were read. -/
  | tagLetters (n : Nat)
  /-- The same for the digits of the tag. -/
  | tagDigits (n : Nat)
  /-- A Khmer letter that can be written below another one. -/
  | subscript
  /-- The Kirat Rai vowel signs E and AI. -/
  | kiratE
  | kiratAi
  deriving DecidableEq, Repr, Inhabited

/-- An emoji that is displayed in colour by default and takes one cell if asked to be plain text.
Ideographs in a square stay wide. -/
def canBeText (c : Char) : Bool :=
  Property.emojiVariation.has c && Property.emojiPresentation.has c &&
    !(0x1F200 ≤ c.toNat && c.toNat ≤ 0x1F2FF)

/-- A curly quotation mark. -/
def isCurlyQuote (c : Char) : Bool :=
  let n := c.toNat
  n == 0x2018 || n == 0x2019 || n == 0x201C || n == 0x201D

/-- Joiners, variation selectors and other invisible marks, which do not part a subscript letter
from the sign that makes it one. -/
def isInvisibleMark (c : Char) : Bool :=
  let n := c.toNat
  isJoiner c || n == 0x34F || n == 0x17B4 || n == 0x17B5 || (0x180B ≤ n && n ≤ 0x180D) ||
    n == 0x180F || (0xFE00 ≤ n && n ≤ 0xFE0F) || (0xE0100 ≤ n && n ≤ 0xE01EF)

/-- A Khmer letter that can be written below another one. -/
def isSubscriptLetter (c : Char) : Bool :=
  let n := c.toNat
  (0x1780 ≤ n && n ≤ 0x1782) || (0x1784 ≤ n && n ≤ 0x1787) || (0x1789 ≤ n && n ≤ 0x178C) ||
    (0x178E ≤ n && n ≤ 0x1793) || (0x1795 ≤ n && n ≤ 0x1798) || (0x179B ≤ n && n ≤ 0x179D) ||
    n == 0x17A0 || n == 0x17A2 || n == 0x17A7 || (0x17AB ≤ n && n ≤ 0x17AC) || n == 0x17AF

/-- A lower case letter of a tag. -/
def isTagLetter (c : Char) : Bool := 0xE0061 ≤ c.toNat && c.toNat ≤ 0xE007A

/-- A digit of a tag. -/
def isTagDigit (c : Char) : Bool := 0xE0030 ≤ c.toNat && c.toNat ≤ 0xE0039

namespace CellContext

/-- What a character is to the one before it, whatever follows. -/
def ofChar (c : Char) : CellContext :=
  let n := c.toNat
  if c = '\n' then .lineFeed
  else if n ≤ 0xA0 then .plain
  else if n == 0xFE0F then .inColour
  else if n == 0xFE0E then .asText
  else if n == 0xFE01 then .wideQuote
  else if isRegional c then .regional
  else if isSkinTone c then .skinTone
  else if Property.emojiPresentation.has c then .emoji
  else if isSubscriptLetter c then .subscript
  else if n == 0x16D67 then .kiratE
  else if n == 0x16D68 then .kiratAi
  else .plain

/-- The cells of a character alone, and what it is to the one before it. -/
def alone (c : Char) : Int × CellContext := (cellsOf c, ofChar c)

/-- The sign that asks for colour, in view of what follows it. -/
def colour : CellContext → CellContext
  | .joinedEmoji | .joinedKey => .joinedInColour
  | _ => .inColour

/-- A character that is not asked to be in colour: the cells it takes beyond those of what follows
it, and what it is to the one before it. -/
def addPlain (following : CellContext) (c : Char) : Int × CellContext :=
  let n := c.toNat
  if c = '\r' && following = .lineFeed then (0, .plain)
  else if n ≤ 0xA0 then alone c
  else if following = .subscript && isInvisibleMark c then (0, .subscript)
  else if n == 0xFE0F then (0, following.colour)
  else
    match following with
    | .asText => if canBeText c then (1, .plain) else alone c
    | .wideQuote => if isCurlyQuote c then (2, .plain) else alone c
    | .subscript => if n == 0x17D2 then (-1, .plain) else alone c
    | .kiratE =>
      if n == 0x16D63 || n == 0x16D69 then (0, .plain)
      else if n == 0x16D67 then (0, .kiratAi)
      else if n == 0x16D68 then (1, .kiratE)
      else alone c
    | .kiratAi => if n == 0x16D63 then (0, .plain) else alone c
    | .skinTone =>
      if Property.modifierBase.has c then (0, .emoji)
      else if isJoiner c then (0, .joinedEmoji)
      else alone c
    | .regional => if isRegional c then (1, .regional) else alone c
    | .emoji => if isJoiner c then (0, .joinedEmoji) else alone c
    | .joinedEmoji =>
      if isSkinTone c then (0, .skinTone)
      else if isRegional c then (1, .joinedHalfFlag)
      else if n == 0x20E3 then (0, .joinedKey)
      else if n == 0xE007F then (0, .tagLetters 0)
      else if ofChar c = .emoji then (0, .emoji)
      else alone c
    | .joinedHalfFlag => if isRegional c then (-1, .joinedFlag) else alone c
    | .joinedFlag => if isRegional c then (3, .joinedHalfFlag) else alone c
    | .tagLetters k =>
      if isTagLetter c && k < 6 then (0, .tagLetters (k + 1))
      else if isTagDigit c && k < 5 then (0, .tagDigits 1)
      else if n == 0x1F3F4 && 3 ≤ k then (0, .emoji)
      else alone c
    | .tagDigits k =>
      if isTagDigit c && k < 3 then (0, .tagDigits (k + 1))
      else if n == 0x1F3F4 && k = 3 then (0, .emoji)
      else alone c
    | _ => alone c

/-- A character in view of what follows it: the cells it takes beyond those of what follows it, and
what it is to the one before it. -/
def add (following : CellContext) (c : Char) : Int × CellContext :=
  match following with
  | .inColour => if Property.emojiVariation.has c then (2, .emoji) else addPlain .plain c
  | .joinedInColour => if Property.emojiVariation.has c then (0, .emoji) else addPlain .plain c
  | _ => addPlain following c

end CellContext

/-- The cells of a cluster. -/
def clusterCells (cluster : Text) : Nat :=
  (cluster.foldr (fun c (sum, following) =>
    let (cells, context) := CellContext.add following c
    (sum + cells, context)) ((0 : Int), CellContext.plain)).1.toNat

/-- A display with cells of one width, which draws grapheme clusters. -/
def terminal : Rendering := ⟨clusters, clusterCells⟩

end Caret.Unicode
