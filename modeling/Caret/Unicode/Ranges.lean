/-!
# Character ranges

Sets of characters as sorted arrays of code point ranges, for the properties of characters.
-/

namespace Caret.Unicode

/-- First and last code point of each range, in ascending order and without overlaps. -/
abbrev Ranges := Array (Nat × Nat)

namespace Ranges

/-- Whether a code point lies in one of the ranges of index `low` up to but not including `high`. -/
def search (r : Ranges) (n low high : Nat) : Bool :=
  if low < high then
    let middle := (low + high) / 2
    match r[middle]? with
    | none => false
    | some (first, last) =>
      if n < first then search r n low middle
      else if last < n then search r n (middle + 1) high
      else true
  else false
termination_by high - low

/-- Whether a character belongs to the set. -/
def has (r : Ranges) (c : Char) : Bool := r.search c.toNat 0 r.size

end Ranges

end Caret.Unicode
