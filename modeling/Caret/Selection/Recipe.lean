import Caret.Selection.Visit

/-!
# Recipes

Scripts written down as lists of actions on places that are named relative to the selection at hand.

* `Place.resolve`: the coordinate a place stands for.
* `Recipe.script`: the script that takes the actions one after the other.
-/

namespace Caret

/-- Ways to name a position. -/
inductive Place
  | coord (c : Coord)
  /-- A byte offset, counted on from the start of the text once it is past the end. -/
  | byte (n : Nat)
  /-- The position nearest to a byte offset. -/
  | nearByte (n : Nat)
  | low
  | high
  | anchor
  | cursor
  /-- The character behind the selection. -/
  | behind
  /-- The end of the text. -/
  | textEnd
  /-- The start of the first line of the selection. -/
  | lineBegin
  deriving DecidableEq, Repr, Inhabited

/-- The coordinate that a place stands for. -/
def Place.resolve (t : Text) (s : Selection) : Place → Except Fault Coord
  | .coord c => .ok c
  | .byte n => .ok (t.coordAt (n % (t.size + 1)))
  | .nearByte n => .ok (t.clamp (t.coordAt (n % (t.size + 1))))
  | .low => .ok s.low
  | .high => .ok s.high
  | .anchor => .ok s.anchor
  | .cursor => .ok s.cursor
  | .behind => t.nextCoord s.high
  | .textEnd => .ok t.endCoord
  | .lineBegin => .ok ⟨s.low.line, 0⟩

/-- One action of a recipe. -/
inductive Action
  | insert (start : Place) (new : Text)
  | erase (start stop : Place)
  | replace (start stop : Place) (new : Text)
  /-- Moves anchor and cursor of the visited selection. -/
  | set (a c : Place)
  | target (column : Option Nat)
  | captures (texts : List String)
  /-- Queues the selection of an anchor and a cursor. -/
  | queue (a c : Place)
  | flags (flags : Flags)
  /-- Gives up. -/
  | giveUp (reason : String)
  deriving DecidableEq, Repr, Inhabited

/-- Actions to be taken one after the other. -/
abbrev Recipe := List Action

namespace Recipe

/-- Goes on with the coordinate that a place stands for now. -/
def locate (p : Place) (next : Coord → Script) : Script :=
  .look fun b s => Script.given (p.resolve b.text s) next

/-- The script that takes the actions of a recipe. -/
def script : Recipe → Script
  | [] => .done
  | .insert start new :: rest => locate start fun c => .insert c new fun _ => script rest
  | .erase start stop :: rest =>
    locate start fun c => locate stop fun d => .erase c d fun _ => script rest
  | .replace start stop new :: rest =>
    locate start fun c => locate stop fun d => .replace c d new fun _ => script rest
  | .set a c :: rest =>
    locate a fun a => locate c fun c => .look fun _ s => .select (s.set a c) (script rest)
  | .target column :: rest => .look fun _ s => .select { s with target := column } (script rest)
  | .captures texts :: rest => .look fun _ s => .select { s with captures := texts } (script rest)
  | .queue a c :: rest =>
    locate a fun a => locate c fun c => .queue { anchor := a, cursor := c } (script rest)
  | .flags flags :: rest => .setFlags flags (script rest)
  | .giveUp reason :: _ => .fail (.error (.invalidSelection reason))

/-- The recipe for the selection of index `i`: the last one serves all further selections. -/
def forIndex (recipes : List Recipe) (i : Nat) : Recipe :=
  (recipes[min i (recipes.length - 1)]?).getD []

end Recipe

end Caret
