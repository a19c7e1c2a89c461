/-!
# Notices

What the library tells its host while it works: log lines by level, and named events. Nothing is
printed; a journal collects both, log lines only while somebody reads them.
-/

namespace Caret

/-- How urgent a log line is. -/
inductive Level
  | debug
  | info
  | warn
  | error
  deriving DecidableEq, Repr, Inhabited

/-- A log line. -/
structure Note where
  level : Level
  message : String
  deriving DecidableEq, Repr, Inhabited

/-- A named event with its data. -/
structure Announcement where
  name : String
  data : String
  deriving DecidableEq, Repr, Inhabited

/-- All that was told so far, oldest first. -/
structure Journal where
  /-- Whether somebody reads the log lines. -/
  logged : Bool := true
  notes : List Note := []
  announcements : List Announcement := []
  deriving DecidableEq, Repr, Inhabited

namespace Journal

/-- Adds a log line if somebody reads it. -/
def note (j : Journal) (n : Note) : Journal :=
  if j.logged then { j with notes := j.notes ++ [n] } else j

/-- Adds log lines in order. -/
def noteAll (j : Journal) (ns : List Note) : Journal := ns.foldl note j

/-- Adds an event. -/
def announce (j : Journal) (a : Announcement) : Journal :=
  { j with announcements := j.announcements ++ [a] }

/-- Forgets what was told, in order to collect what comes next. -/
def clear (j : Journal) : Journal := { j with notes := [], announcements := [] }

end Journal

end Caret
