import Caret.Bisect
import Caret.Change.Run
import Caret.Change.Tracker

/-!
# Moving sorted positions across the log

All positions of a sorted collection are moved across a run of changes in one pass, with a tracker
that takes in each change once. A longer stretch of the log is moved run by run.

* `Tracked`: what can be moved, points and ranges alike.
* `Run.sweep`: a collection moved across one run.
* `sweepLog`: a collection moved across any stretch of the log.
-/

namespace Caret

/-- Something with a first and a last coordinate that can be moved. -/
class Tracked (ρ : Type) where
  first : ρ → Coord
  last : ρ → Coord
  /-- The same thing at new coordinates. -/
  withEnds : ρ → Coord → Coord → ρ

instance : Tracked Coord where
  first c := c
  last c := c
  withEnds _ first _ := first

/-- A pass in progress: the tracker, and the changes it has not taken in yet. -/
structure Pass where
  tracker : Tracker
  pending : List Change
  deriving DecidableEq, Repr, Inhabited

namespace Pass

/-- A pending change in the coordinates the tracker has reached. A forward run is logged in them;
a backward run is replayed from its end, so that its changes have to be projected. -/
def view (direction : Direction) (t : Tracker) (change : Change) : Except Fault Change :=
  match direction with
  | .forward => .ok change
  | .backward => t.express change

/-- Takes in the pending changes that concern the coordinate `c` of the reference state. -/
def advance (direction : Direction) (t : Tracker) (c : Coord) :
    List Change → Except Fault Pass
  | [] => .ok ⟨t, []⟩
  | change :: rest => do
    let viewed ← view direction t change
    if ← t.concerns viewed c then advance direction (← t.feed viewed) c rest
    else return ⟨t, change :: rest⟩

/-- Moves one coordinate, which must not lie before the ones moved earlier. -/
def move (direction : Direction) (pass : Pass) (c : Coord) : Except Fault (Coord × Pass) := do
  let pass ← advance direction pass.tracker c pass.pending
  return (← pass.tracker.landing c, pass)

/-- Moves a collection, the first end of every element before its last one. -/
def moveAll {ρ : Type} [Tracked ρ] (direction : Direction) (pass : Pass) :
    List ρ → Except Fault (List ρ)
  | [] => .ok []
  | r :: rest => do
    let (first, pass) ← pass.move direction (Tracked.first r)
    let (last, pass) ← pass.move direction (Tracked.last r)
    return Tracked.withEnds r first last :: (← pass.moveAll direction rest)

end Pass

namespace Run

/-- A collection sorted by first ends, moved across a forward run. What lies before the first change
stays as it is. -/
def sweepForward {ρ : Type} [Tracked ρ] (changes : List Change) (ranges : List ρ) :
    Except Fault (List ρ) :=
  match changes with
  | [] => .ok ranges
  | front :: _ => do
    let untouched := bisect (fun r => decide (Tracked.last r < front.start)) ranges
    let moved ← Pass.moveAll .forward ⟨.start, changes⟩ (ranges.drop untouched)
    return ranges.take untouched ++ moved

/-- A collection sorted by first ends, moved across a backward run, which is replayed from its last
change. -/
def sweepBackward {ρ : Type} [Tracked ρ] (changes : List Change) (ranges : List ρ) :
    Except Fault (List ρ) :=
  Pass.moveAll .backward ⟨.start, changes.reverse⟩ ranges

/-- A collection sorted by first ends, moved across the run. -/
def sweep {ρ : Type} [Tracked ρ] (run : Run) (ranges : List ρ) : Except Fault (List ρ) :=
  match run.direction with
  | .forward => sweepForward run.changes ranges
  | .backward => sweepBackward run.changes ranges

end Run

/-- The collection after each run of the log in turn. -/
def sweepStages {ρ : Type} [Tracked ρ] : List Run → List ρ → Except Fault (List (List ρ))
  | [], _ => .ok []
  | run :: rest, ranges => do
    let moved ← run.sweep ranges
    return moved :: (← sweepStages rest moved)

/-- A collection sorted by first ends, moved across any stretch of the log. -/
def sweepLog {ρ : Type} [Tracked ρ] (log : List Change) (ranges : List ρ) : Except Fault (List ρ) :=
  (splitRuns log).foldlM (fun ranges run => run.sweep ranges) ranges

end Caret
