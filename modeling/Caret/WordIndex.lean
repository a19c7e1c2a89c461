import Caret.Line.Watcher

/-!
# Word index

The words of a buffer, line by line and counted as a whole. An index is built from the entire buffer
once and then patched: only the lines that were modified are split into words again. How a line is
split is a parameter.

* `WordCounts`: words with their counts, in byte order.
* `WordIndex.ofBuffer`: the index of a buffer.
* `WordIndex.update`: the index at the current timestamp of its buffer.
* `WordIndex.withBeginning`: the words that begin in a given way.
-/

namespace Caret

/-- A word of a text. -/
abbrev Word := List Char

namespace Word

/-- Words this long, in characters, or longer are not indexed. -/
def maxLength : Nat := 50

/-- The order of words by bytes, which in UTF-8 is the order by characters. -/
def before : Word → Word → Bool
  | _, [] => false
  | [], _ :: _ => true
  | a :: as, b :: bs => decide (a.toNat < b.toNat) || (a == b && before as bs)

end Word

/-- Words with the number of their occurrences, in byte order, each of them once. -/
abbrev WordCounts := List (Word × Nat)

namespace WordCounts

/-- The number of occurrences of a word. -/
def count (counts : WordCounts) (w : Word) : Nat := (counts.lookup w).getD 0

/-- One more occurrence of a word. -/
def add (w : Word) : WordCounts → WordCounts
  | [] => [(w, 1)]
  | (v, n) :: rest =>
    if v = w then (v, n + 1) :: rest
    else if w.before v then (w, 1) :: (v, n) :: rest
    else (v, n) :: add w rest

/-- One occurrence of a word less. The last one takes the word along. -/
def remove (w : Word) : WordCounts → Except Fault WordCounts
  | [] => .error .unindexedWord
  | (v, n) :: rest =>
    if v = w then .ok (if n ≤ 1 then rest else (v, n - 1) :: rest)
    else do return (v, n) :: (← remove w rest)

/-- One more occurrence of each word. -/
def addAll (counts : WordCounts) (ws : List Word) : WordCounts := ws.foldl (fun c w => add w c) counts

/-- One occurrence of each word less. -/
def removeAll (counts : WordCounts) (ws : List Word) : Except Fault WordCounts :=
  ws.foldlM (fun c w => remove w c) counts

/-- The words that begin with `start`, in byte order: those from `start` on, up to the first that
does not begin so. -/
def withBeginning (counts : WordCounts) (start : Word) : List Word :=
  ((counts.map Prod.fst).dropWhile (·.before start)).takeWhile start.isPrefixOf

end WordCounts

/-- The words of a buffer as of the last update. -/
structure WordIndex where
  watcher : LineWatcher
  lines : List (List Word)
  counts : WordCounts
  deriving DecidableEq, Repr, Inhabited

namespace WordIndex

variable (split : Text → List Word)

/-- The words of a line that are short enough, none on a line that does not exist. -/
def lineWords (t : Text) (line : Nat) : List Word :=
  (split ((t.line? line).getD [])).filter (·.length < Word.maxLength)

/-- The index of a buffer. -/
def ofBuffer (b : Buffer) : WordIndex :=
  let lines := (List.range b.text.lineCount).map (lineWords split b.text)
  { watcher := .ofBuffer b, lines, counts := lines.foldl WordCounts.addAll [] }

/-- An index being patched. -/
structure Patch where
  /-- The number of old lines passed so far. -/
  passed : Nat
  /-- The words of the old lines that are still to come. -/
  old : List (List Word)
  /-- The words of the new lines so far. -/
  new : List (List Word)
  counts : WordCounts
  deriving DecidableEq, Repr, Inhabited

/-- Keeps the lines up to a modification and exchanges those of the modification. -/
def patch (t : Text) (p : Patch) (m : LineModification) : Except Fault Patch := do
  Fault.misaligned.unless (p.passed ≤ m.oldLine)
  let kept := p.new ++ p.old.take (m.oldLine - p.passed)
  Fault.misaligned.unless (kept.length = m.newLine)
  let old := p.old.drop (m.oldLine - p.passed)
  let counts ← (old.take m.removed).foldlM WordCounts.removeAll p.counts
  let added := (List.range m.added).map fun i => lineWords split t (m.newLine + i)
  return {
    passed := m.oldLine + m.removed
    old := old.drop m.removed
    new := kept ++ added
    counts := added.foldl WordCounts.addAll counts }

/-- The index at the current timestamp of its buffer. -/
def update (x : WordIndex) (b : Buffer) : Except Fault WordIndex := do
  let (mods, watcher) ← x.watcher.query b
  if mods.isEmpty then return { x with watcher }
  let p ← mods.foldlM (patch split b.text) ⟨0, x.lines, [], x.counts⟩
  let lines := p.new ++ p.old
  Fault.misaligned.unless (lines.length = b.text.lineCount)
  return { watcher, lines, counts := p.counts }

/-- What an update tells. -/
def updateNotes (x : WordIndex) (b : Buffer) : List Note :=
  x.watcher.queryNotes b ++
    match x.watcher.query b, x.update split b with
    | .ok (mods, _), .ok updated =>
      if mods.isEmpty then []
      else [⟨.debug, s!"word index patched {mods.length} line modifications, " ++
        s!"{updated.counts.length} distinct words"⟩]
    | _, _ => []

/-- The number of occurrences of a word. -/
def occurrences (x : WordIndex) (w : Word) : Nat := x.counts.count w

/-- All words, in byte order. -/
def words (x : WordIndex) : List Word := x.counts.map Prod.fst

/-- The words that begin with `start`, in byte order. -/
def withBeginning (x : WordIndex) (start : Word) : List Word := x.counts.withBeginning start

end WordIndex

end Caret
