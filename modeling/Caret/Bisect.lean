/-!
# Bisection

How many elements at the beginning of a list satisfy a predicate, found with a logarithmic number
of tests. The list is meant to be partitioned: all elements that satisfy the predicate come first.
On any other list the answer is the one that halving arrives at.
-/

namespace Caret

/-- Halves a window of `size` elements at `base`, keeping the part in which the predicate turns
from true to false. The result is the start of a window of one element. -/
def bisectFrom {α : Type} (p : α → Bool) (l : List α) (base size : Nat) : Nat :=
  if 1 < size then
    let middle := base + size / 2
    bisectFrom p l (if l[middle]?.any p then middle else base) (size - size / 2)
  else base
termination_by size
decreasing_by omega

/-- The number of elements before the point at which `p` turns false. -/
def bisect {α : Type} (p : α → Bool) (l : List α) : Nat :=
  let base := bisectFrom p l 0 l.length
  if l[base]?.any p then base + 1 else base

end Caret
