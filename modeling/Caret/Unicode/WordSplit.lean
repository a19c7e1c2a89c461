import Caret.Text
import Caret.Unicode.Cluster
import Caret.Unicode.Letter

/-!
# Words

A text cut at the boundaries between words and what lies between words: letters stay together with
letters and digits, and single points, colons or quotes inside of a word or number do not break it.

* `WordClass.ofChar`: what matters of a character.
* `WordUnit`: a character with the marks behind it, which never part.
* `segments`: a text cut at all boundaries.
* `words`: the segments that hold a letter or digit.
-/

namespace Caret.Unicode

/-- What matters of a character for the boundaries of words. -/
inductive WordClass
  | carriageReturn
  | lineFeed
  | newline
  /-- Marks and format controls. -/
  | extend
  | joiner
  | katakana
  | hebrew
  | letter
  | singleQuote
  | doubleQuote
  /-- Points inside of words and numbers. -/
  | midBoth
  /-- Colons inside of words. -/
  | midLetter
  /-- Commas inside of numbers. -/
  | midNumber
  | numeric
  /-- Underscores, which tie words and numbers together. -/
  | tie
  | regional
  | space
  | other
  deriving DecidableEq, Repr, Inhabited

/-- Whether a code point lies in one of a few ranges. -/
def within (n : Nat) (ranges : List (Nat × Nat)) : Bool :=
  ranges.any fun (first, last) => first ≤ n && n ≤ last

/-- Signs that count as letters though they are not alphabetic. -/
def isLetterLike (n : Nat) : Bool :=
  within n [(0xB8, 0xB8), (0x2C2, 0x2C5), (0x2D2, 0x2D7), (0x2DE, 0x2DF), (0x2E5, 0x2EB),
    (0x2ED, 0x2ED), (0x2EF, 0x2FF), (0x55A, 0x55C), (0x55E, 0x55E), (0x58A, 0x58A),
    (0x5F3, 0x5F3), (0x70F, 0x70F), (0xA708, 0xA716), (0xA720, 0xA721), (0xA789, 0xA78A),
    (0xAB5B, 0xAB5B)]

/-- Signs that count as digits though they are not decimal. -/
def isDigitLike (n : Nat) : Bool :=
  within n [(0x600, 0x605), (0x66B, 0x66B), (0x6DD, 0x6DD), (0x890, 0x891), (0x8E2, 0x8E2),
    (0x19DA, 0x19DA), (0x110BD, 0x110BD), (0x110CD, 0x110CD)]

/-- The class of a punctuation mark or space, if it has one of its own. -/
def WordClass.ofPunctuation? (n : Nat) : Option WordClass :=
  if n == 0x0D then some .carriageReturn
  else if n == 0x0A then some .lineFeed
  else if within n [(0x0B, 0x0C), (0x85, 0x85), (0x2028, 0x2029)] then some .newline
  else if n == 0x27 then some .singleQuote
  else if n == 0x22 then some .doubleQuote
  else if within n [(0x2E, 0x2E), (0x2018, 0x2019), (0x2024, 0x2024), (0xFE52, 0xFE52),
      (0xFF07, 0xFF07), (0xFF0E, 0xFF0E)] then some .midBoth
  else if within n [(0x3A, 0x3A), (0xB7, 0xB7), (0x387, 0x387), (0x55F, 0x55F), (0x5F4, 0x5F4),
      (0x2027, 0x2027), (0xFE13, 0xFE13), (0xFE55, 0xFE55), (0xFF1A, 0xFF1A)] then some .midLetter
  else if within n [(0x2C, 0x2C), (0x3B, 0x3B), (0x37E, 0x37E), (0x589, 0x589), (0x60C, 0x60D),
      (0x66C, 0x66C), (0x7F8, 0x7F8), (0x2044, 0x2044), (0xFE50, 0xFE50), (0xFE54, 0xFE54),
      (0xFF0C, 0xFF0C), (0xFF1B, 0xFF1B)] then some .midNumber
  else if within n [(0x5F, 0x5F), (0x202F, 0x202F), (0x203F, 0x2040), (0x2054, 0x2054),
      (0xFE33, 0xFE34), (0xFE4D, 0xFE4F), (0xFF3F, 0xFF3F)] then some .tie
  else if within n [(0x20, 0x20), (0x1680, 0x1680), (0x2000, 0x2006), (0x2008, 0x200A),
      (0x205F, 0x205F), (0x3000, 0x3000)] then some .space
  else none

/-- A mark or format control that is skipped inside of words. -/
def isWordExtend (c : Char) : Bool :=
  Property.graphemeExtend.has c || Property.spacingMark.has c || isSkinTone c ||
    (Property.format.has c && c.toNat != 0x200B && !Property.prepended.has c)

/-- The class of a character that is not in the ASCII range and not punctuation. -/
def WordClass.ofWideChar (c : Char) : WordClass :=
  if isJoiner c then .joiner
  else if isRegional c then .regional
  else if isWordExtend c then .extend
  else if Property.decimal.has c || isDigitLike c.toNat then .numeric
  else if Property.katakana.has c then .katakana
  else if Property.hebrew.has c then .hebrew
  else if isLetterLike c.toNat ||
      Property.alphabetic.has c && !(Property.ideographic.has c ||
        Property.complexContext.has c || Property.hiragana.has c) then
    .letter
  else .other

/-- The class of a character. -/
def WordClass.ofChar (c : Char) : WordClass :=
  match ofPunctuation? c.toNat with
  | some k => k
  | none =>
    if c.toNat < 0x80 then if c.isAlpha then .letter else if c.isDigit then .numeric else .other
    else ofWideChar c

namespace WordClass

/-- Letters that make words. -/
def isLetter : WordClass → Bool
  | .letter | .hebrew => true
  | _ => false

/-- Signs that do not break a word between two letters. -/
def isInLetters : WordClass → Bool
  | .midLetter | .midBoth | .singleQuote => true
  | _ => false

/-- Signs that do not break a number between two digits. -/
def isInNumber : WordClass → Bool
  | .midNumber | .midBoth | .singleQuote => true
  | _ => false

/-- Line ends of any kind. -/
def isBreak : WordClass → Bool
  | .carriageReturn | .lineFeed | .newline => true
  | _ => false

/-- Signs that are skipped behind others. -/
def isSkipped : WordClass → Bool
  | .extend | .joiner => true
  | _ => false

end WordClass

/-- A character and the marks behind it. -/
structure WordUnit where
  chars : Text
  kind : WordClass
  /-- Whether the character is a pictograph. -/
  picture : Bool
  /-- Whether the last mark is a joiner. -/
  joiner : Bool
  deriving DecidableEq, Repr, Inhabited

namespace WordUnit

/-- The unit of a character without marks. -/
def ofChar (c : Char) : WordUnit :=
  let kind := WordClass.ofChar c
  { chars := [c], kind, picture := Property.pictographic.has c, joiner := kind = .joiner }

/-- A unit put before others. Marks go to it, unless it is a line end. -/
def attach (u : WordUnit) : List WordUnit → List WordUnit
  | [] => [u]
  | v :: rest =>
    if v.kind.isSkipped && !u.kind.isBreak then
      { u with chars := u.chars ++ v.chars, joiner := v.joiner } :: rest
    else u :: v :: rest

/-- The units of a text. -/
def ofText (t : Text) : List WordUnit := t.foldr (fun c units => (ofChar c).attach units) []

/-- Whether `v` follows `u` as part of an emoji, or else is of a wanted class. -/
def leadsTo (u : WordUnit) (wanted : WordClass → Bool) : List WordUnit → Bool
  | [] => false
  | v :: _ => (u.joiner && v.picture) || wanted v.kind

end WordUnit

/-- What the unit after the end of a text has to be compared with. -/
structure WordState where
  last : WordUnit
  /-- The class of the unit before the last one. -/
  before : WordClass
  /-- Whether an odd number of regional indicators is at the end. -/
  halfFlag : Bool
  deriving DecidableEq, Repr, Inhabited

namespace WordState

/-- Whether the unit `u` is part of an emoji that a joiner holds together. -/
def joinsEmoji (s : WordState) (u : WordUnit) : Bool := s.last.joiner && u.picture

/-- Whether there is no boundary before the unit `u`, with `rest` behind it. -/
def joins (s : WordState) (u : WordUnit) (rest : List WordUnit) : Bool :=
  let last := s.last.kind
  let kind := u.kind
  if last.isBreak || kind.isBreak then last = .carriageReturn && kind = .lineFeed
  else if s.joinsEmoji u then true
  else if last = .space && kind = .space then s.last.chars.length == 1
  else if last.isLetter then
    kind.isLetter || kind = .numeric || kind = .tie || (last = .hebrew && kind = .singleQuote) ||
      (kind.isInLetters && u.leadsTo WordClass.isLetter rest) ||
      (last = .hebrew && kind = .doubleQuote && u.leadsTo (· = .hebrew) rest)
  else if last = .numeric then
    kind.isLetter || kind = .numeric || kind = .tie ||
      (kind.isInNumber && u.leadsTo (· = .numeric) rest)
  else if last.isInLetters && s.before.isLetter && kind.isLetter then true
  else if last = .doubleQuote && s.before = .hebrew && kind = .hebrew then true
  else if last.isInNumber && s.before = .numeric && kind = .numeric then true
  else if last = .katakana then kind = .katakana || kind = .tie
  else if last = .tie then kind.isLetter || kind = .numeric || kind = .katakana || kind = .tie
  else if last = .regional && kind = .regional then s.halfFlag
  else false

/-- The state after one more unit. One that is part of an emoji is nothing else. -/
def next (s : WordState) (u : WordUnit) : WordState where
  last := if s.joinsEmoji u then { u with kind := .other } else u
  before := s.last.kind
  halfFlag := u.kind = .regional && !(s.last.kind = .regional && s.halfFlag)

/-- The state after the first unit of a text. -/
def first (u : WordUnit) : WordState := ⟨u, .other, u.kind = .regional⟩

end WordState

/-- The segments of a text that goes on with some units after the characters of `segment`. -/
def segmentsFrom (s : WordState) (segment : Text) : List WordUnit → List Text
  | [] => [segment]
  | u :: rest =>
    if s.joins u rest then segmentsFrom (s.next u) (segment ++ u.chars) rest
    else segment :: segmentsFrom (s.next u) u.chars rest

/-- A text cut at the boundaries of words. -/
def segments (t : Text) : List Text :=
  match WordUnit.ofText t with
  | [] => []
  | u :: rest => segmentsFrom (.first u) u.chars rest

/-- A letter or a digit. -/
def isAlphanumeric (c : Char) : Bool := Property.alphabetic.has c || Property.number.has c

/-- The words of a text: the segments that hold a letter or digit. -/
def words (t : Text) : List Text := (segments t).filter (·.any isAlphanumeric)

end Caret.Unicode
