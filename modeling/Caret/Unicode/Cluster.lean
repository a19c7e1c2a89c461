import Caret.Text
import Caret.Unicode.Emoji
import Caret.Unicode.Mark

/-!
# Grapheme clusters

A text cut into what a reader takes for single characters: a base with its marks, a Hangul syllable,
a conjunct of consonants, a flag, or a sequence of joined emoji.

* `ClusterClass.ofChar`: what matters of a character.
* `ClusterState.joins`: whether a character belongs to the cluster before it.
* `clusters`: the clusters of a text.
-/

namespace Caret.Unicode

/-- What matters of a character for the boundaries of grapheme clusters. -/
inductive ClusterClass
  | carriageReturn
  | lineFeed
  | control
  | extend
  | joiner
  | spacing
  | prepended
  | regional
  /-- Leading, vowel and trailing letters of Hangul, and syllables without and with a trailing
  letter. -/
  | leading
  | vowel
  | trailing
  | syllable
  | closedSyllable
  | other
  deriving DecidableEq, Repr, Inhabited

/-- A zero width joiner. -/
def isJoiner (c : Char) : Bool := c.toNat == 0x200D

/-- A regional indicator. Two of them make a flag. -/
def isRegional (c : Char) : Bool := 0x1F1E6 ≤ c.toNat && c.toNat ≤ 0x1F1FF

/-- A modifier of the skin tone of an emoji. -/
def isSkinTone (c : Char) : Bool := 0x1F3FB ≤ c.toNat && c.toNat ≤ 0x1F3FF

/-- A vowel letter of Hangul. -/
def isHangulVowel (c : Char) : Bool :=
  let n := c.toNat
  (0x1160 ≤ n && n ≤ 0x11A7) || (0xD7B0 ≤ n && n ≤ 0xD7C6)

/-- A trailing letter of Hangul. -/
def isHangulTrailing (c : Char) : Bool :=
  let n := c.toNat
  (0x11A8 ≤ n && n ≤ 0x11FF) || (0xD7CB ≤ n && n ≤ 0xD7FB)

/-- Vowel signs of Kirat Rai, which combine as vowels of Hangul do. -/
def isKiratVowel (c : Char) : Bool :=
  c.toNat == 0x16D63 || (0x16D67 ≤ c.toNat && c.toNat ≤ 0x16D6A)

/-- A mark with space of its own that belongs to the cluster before it. -/
def isSpacing (c : Char) : Bool :=
  let n := c.toNat
  n == 0xE33 || n == 0xEB3 || Property.spacingMark.has c &&
    !((0x102B ≤ n && n ≤ 0x102C) || n == 0x1038 || (0x1062 ≤ n && n ≤ 0x1064) ||
      (0x1067 ≤ n && n ≤ 0x106D) || n == 0x1083 || (0x1087 ≤ n && n ≤ 0x108C) || n == 0x108F ||
      (0x109A ≤ n && n ≤ 0x109C) || n == 0x1A61 || (0x1A63 ≤ n && n ≤ 0x1A64) || n == 0xAA7B ||
      n == 0xAA7D || (0x11720 ≤ n && n ≤ 0x11721))

/-- The class of a character that is not in the ASCII range. -/
def ClusterClass.ofWideChar (c : Char) : ClusterClass :=
  let n := c.toNat
  if 0xAC00 ≤ n && n ≤ 0xD7A3 then
    if (n - 0xAC00) % 28 = 0 then .syllable else .closedSyllable
  else if isJoiner c then .joiner
  else if Property.control.has c then .control
  else if Property.graphemeExtend.has c || isSkinTone c then .extend
  else if isRegional c then .regional
  else if Property.prepended.has c then .prepended
  else if (0x1100 ≤ n && n ≤ 0x115F) || (0xA960 ≤ n && n ≤ 0xA97C) then .leading
  else if isHangulVowel c || isKiratVowel c then .vowel
  else if isHangulTrailing c then .trailing
  else if isSpacing c then .spacing
  else .other

/-- The class of a character. -/
def ClusterClass.ofChar (c : Char) : ClusterClass :=
  if c = '\r' then .carriageReturn
  else if c = '\n' then .lineFeed
  else if c.toNat < 0x20 || c.toNat == 0x7F then .control
  else if c.toNat < 0x7F then .other
  else ofWideChar c

/-- How far the end of a text has come towards a conjunct of consonants. -/
inductive Conjunct
  | none
  /-- A consonant, perhaps with marks. -/
  | consonant
  /-- The same with a linker among the marks. -/
  | linked
  deriving DecidableEq, Repr, Inhabited

/-- What the character after the end of a text has to be compared with. -/
structure ClusterState where
  last : ClusterClass
  /-- Whether an odd number of regional indicators is at the end. -/
  halfFlag : Bool
  /-- Whether a pictograph, perhaps with marks, is at the end. -/
  picture : Bool
  /-- The same with a joiner behind it. -/
  joinedPicture : Bool
  conjunct : Conjunct
  deriving DecidableEq, Repr, Inhabited

namespace ClusterState

/-- Whether the character `c`, of class `k`, belongs to the cluster at the end of the text. -/
def joins (s : ClusterState) (c : Char) (k : ClusterClass) : Bool :=
  match s.last, k with
  | .carriageReturn, .lineFeed => true
  | .carriageReturn, _ | .lineFeed, _ | .control, _ => false
  | _, .carriageReturn | _, .lineFeed | _, .control => false
  | .leading, .leading | .leading, .vowel | .leading, .syllable | .leading, .closedSyllable => true
  | .syllable, .vowel | .syllable, .trailing | .vowel, .vowel | .vowel, .trailing => true
  | .closedSyllable, .trailing | .trailing, .trailing => true
  | _, .extend | _, .joiner | _, .spacing => true
  | .prepended, _ => true
  | .regional, .regional => s.halfFlag
  | _, _ =>
    (s.conjunct = .linked && Property.conjunctConsonant.has c) ||
      (s.joinedPicture && Property.pictographic.has c)

/-- Whether a mark may stand between the consonants of a conjunct. -/
def extendsConjunct (c : Char) (k : ClusterClass) : Bool :=
  k = .joiner || (k = .extend && c.toNat != 0x200C)

/-- The state after one more character. -/
def next (s : ClusterState) (c : Char) (k : ClusterClass) : ClusterState where
  last := k
  halfFlag := k = .regional && !(s.last = .regional && s.halfFlag)
  picture := (k = .other && Property.pictographic.has c) || (k = .extend && s.picture)
  joinedPicture := k = .joiner && s.picture
  conjunct :=
    if Property.conjunctLinker.has c then if s.conjunct = .none then .none else .linked
    else if extendsConjunct c k then s.conjunct
    else if k = .other && Property.conjunctConsonant.has c then .consonant
    else .none

/-- The state after the first character of a text. -/
def first (c : Char) (k : ClusterClass) : ClusterState :=
  next ⟨.other, false, false, false, .none⟩ c k

end ClusterState

/-- The clusters of a text that goes on after the characters of `cluster`, the last one first. -/
def clustersFrom (s : ClusterState) (cluster : Text) : Text → List Text
  | [] => [cluster.reverse]
  | c :: rest =>
    let k := ClusterClass.ofChar c
    if s.joins c k then clustersFrom (s.next c k) (c :: cluster) rest
    else cluster.reverse :: clustersFrom (s.next c k) [c] rest

/-- The clusters of a text, in order. -/
def clusters : Text → List Text
  | [] => []
  | c :: rest => clustersFrom (.first c (.ofChar c)) [c] rest

end Caret.Unicode
