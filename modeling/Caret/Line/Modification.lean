import Caret.Buffer
import Caret.Line.Record
import Caret.Notice

/-!
# Line modifications

A sequence of line records folded into a sorted list of disjoint modifications, each of which says
which old lines were replaced by which new ones.

* `LineModification.fold`: the modifications that a sequence of records amounts to.
* `Buffer.lineModifications`: the line modifications of a buffer since a timestamp.
* `LineModification.foldNotes`: what the fold tells while it works.
-/

namespace Caret

/-- The old lines from `oldLine` on, `removed` in number, became the new lines from `newLine` on,
`added` in number. -/
structure LineModification where
  oldLine : Nat
  newLine : Nat
  removed : Nat
  added : Nat
  deriving DecidableEq, Repr, Inhabited

namespace LineModification

/-- The first old line behind the modification. -/
def oldEnd (m : LineModification) : Except Fault Nat := Count.add m.oldLine m.removed

/-- The first new line behind the modification. -/
def newEnd (m : LineModification) : Except Fault Nat := Count.add m.newLine m.added

/-- How far the lines behind the modification moved. -/
def displacement (m : LineModification) : Except Fault Int := do
  Count.diff (← m.newEnd) (← m.oldEnd)

/-- Whether the modification changes nothing. -/
def isEmpty (m : LineModification) : Bool := m.removed == 0 && m.added == 0

/-- The old line that a new line behind the modification comes from. -/
def oldLineOf (m : LineModification) (line : Nat) : Except Fault Nat := do
  Count.shift line (← Count.neg (← m.displacement))

/-- Sorted modifications taken apart at the one that a record at a line goes into. -/
structure Focus where
  before : List LineModification
  current : LineModification
  after : List LineModification
  deriving DecidableEq, Repr, Inhabited

/-- The modification that a record at `line` goes into: the last one to start at or before that line
if it reaches as far, and otherwise a new one, empty as yet. -/
def focus (mods : List LineModification) (line : Nat) : Except Fault Focus := do
  let before := mods.takeWhile (·.newLine ≤ line)
  let after := mods.dropWhile (·.newLine ≤ line)
  match before.getLast? with
  | none => return ⟨before, ⟨line, line, 0, 0⟩, after⟩
  | some last =>
    if line ≤ (← last.newEnd) then return ⟨before.dropLast, last, after⟩
    else return ⟨before, ⟨← last.oldLineOf line, line, 0, 0⟩, after⟩

/-- What a record leads to. -/
structure Step where
  mods : List LineModification
  /-- How many modifications were merged into the one that the record went into. -/
  merged : Nat
  deriving DecidableEq, Repr, Inhabited

/-- Puts `count` lines in at the focus. -/
def insertLines (f : Focus) (count : Nat) : Except Fault Step := do
  let current := { f.current with added := ← Count.add f.current.added count }
  let after ← f.after.mapM fun m => do
    return { m with newLine := ← Count.add m.newLine count : LineModification }
  return ⟨f.before ++ current :: after, 0⟩

/-- Takes `count` lines out from `line` on. Later modifications that start inside of them are merged
into the one in focus. -/
def removeLines (f : Focus) (line count : Nat) : Except Fault Step := do
  let stop ← Count.add line count
  let inside := f.after.takeWhile (·.newLine < stop)
  let last := inside.getLast?.getD f.current
  let newEnd := max (max stop (← f.current.newEnd)) (← last.newEnd)
  let removed ← Count.sub (← last.oldLineOf newEnd) f.current.oldLine
  let added ← Count.sub (← Count.sub newEnd f.current.newLine) count
  let after ← (f.after.dropWhile (·.newLine < stop)).mapM fun m => do
    return { m with newLine := ← Count.sub m.newLine count : LineModification }
  return ⟨f.before ++ { f.current with removed, added } :: after, inside.length⟩

/-- Takes one record into account. -/
def step (mods : List LineModification) (r : LineRecord) : Except Fault Step := do
  if r.count = 0 then return ⟨mods, 0⟩
  let f ← focus mods r.line
  if 0 < r.count then insertLines f r.count.natAbs else removeLines f r.line r.count.natAbs

/-- The modifications that a sequence of records amounts to. -/
def fold (records : List LineRecord) : Except Fault (List LineModification) := do
  let mods ← records.foldlM (fun mods r => do return (← step mods r).mods) []
  return mods.filter (!·.isEmpty)

/-! ## What the fold tells -/

/-- What a single record makes the fold tell. -/
def stepNotes (r : LineRecord) (s : Step) : List Note :=
  if s.merged = 0 then []
  else [⟨.debug,
    s!"removing {r.count.natAbs} lines at {r.line} merged {s.merged} line modifications"⟩]

/-- What the records make the fold tell one by one, as far as it gets. -/
def recordNotes (mods : List LineModification) : List LineRecord → List Note
  | [] => []
  | r :: rest =>
    match step mods r with
    | .error _ => []
    | .ok s => stepNotes r s ++ recordNotes s.mods rest

/-- What the fold tells when it is through. -/
def summaryNote (records : List LineRecord) (mods : List LineModification) : Note :=
  ⟨.debug, s!"folded {records.countP (·.count ≠ 0)} line changes into " ++
    s!"{mods.length} line modifications"⟩

/-- All that the fold tells. -/
def foldNotes (records : List LineRecord) : List Note :=
  recordNotes [] records ++
    match fold records with
    | .error _ => []
    | .ok mods => [summaryNote records mods]

/-! ## The log of a buffer -/

/-- The records of a stretch of the log. -/
def logRecords (log : List Change) : Except Fault (List LineRecord) := do
  return (← log.mapM LineRecord.ofChange).flatten

/-- The records of the changes before the first one that has none. -/
def recordsBeforeFault : List Change → List LineRecord
  | [] => []
  | change :: rest =>
    match LineRecord.ofChange change with
    | .error _ => []
    | .ok records => records ++ recordsBeforeFault rest

/-- All that folding the records of a stretch of the log tells. A change without records ends it. -/
def logNotes (log : List Change) : List Note :=
  match logRecords log with
  | .ok records => foldNotes records
  | .error _ => recordNotes [] (recordsBeforeFault log)

end LineModification

/-- The line modifications of a buffer since a timestamp. -/
def Buffer.lineModifications (b : Buffer) (timestamp : Nat) :
    Except Fault (List LineModification) := do
  LineModification.fold (← LineModification.logRecords (← b.logSince timestamp))

/-- What the search for line modifications tells. -/
def Buffer.lineModificationNotes (b : Buffer) (timestamp : Nat) : List Note :=
  match b.logSince timestamp with
  | .error _ => []
  | .ok log => LineModification.logNotes log

end Caret
