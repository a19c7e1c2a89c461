/-!
# Faults and bounded counts

Lines, columns and sizes are unsigned 64-bit counts, displacements are signed ones. The values
themselves are kept as `Nat` and `Int`; every sum or difference that could leave the range goes
through one of the operations below, which answer with a fault instead of wrapping around.

* `Fault`: the ways in which a caller can break the contract of an operation.
* `Count.add`, `Count.sub`: sum and difference of two counts.
* `Count.signed`: an unsigned count read as a signed one.
* `Count.diff`: the signed difference of two counts.
* `Count.shift`: a count moved by a signed displacement.
-/

namespace Caret

/-- A broken contract. Unlike an `EditError` it is not something a caller is meant to handle. -/
inductive Fault
  /-- A sum or difference leaves the 64-bit range. -/
  | overflow
  /-- A text would no longer be addressable. -/
  | tooLarge
  /-- A tracker is fed or asked about a position before the one it has reached. -/
  | outOfOrder
  /-- A byte offset that is not the start of a character. -/
  | splitCharacter
  /-- An index past the end of its list. -/
  | outOfRange
  /-- An extent or byte range whose end lies before its start. -/
  | reversed
  /-- A selection list without selections. -/
  | emptySelections
  /-- The last selection of a list cannot be removed. -/
  | lastSelection
  /-- A timestamp newer than the buffer. -/
  | futureTimestamp
  /-- A list or watcher was given another buffer than its own. -/
  | foreignBuffer
  /-- A selection list that is not current with its buffer. -/
  | stale
  /-- Selections out of order. -/
  | unsorted
  /-- A tracked coordinate that is not a position of the buffer. -/
  | invalidPosition
  /-- A selection was queued where none may be. -/
  | notAppendable
  /-- A listener was held by its owner while the buffer had to notify it. -/
  | busyListener
  /-- A registration to be released is not in the registry. -/
  | unregistered
  /-- A buffer was dropped while handles still refer to it. -/
  | danglingHandles
  /-- The lines of an index do not line up with the line modifications of its buffer. -/
  | misaligned
  /-- A word to be taken out of an index is not in it. -/
  | unindexedWord
  /-- No object of that name. -/
  | unknownName
  deriving DecidableEq, Repr, Inhabited

/-- Fails with `f` unless `p` holds. -/
def Fault.unless (f : Fault) (p : Prop) [Decidable p] : Except Fault Unit :=
  if p then .ok () else .error f

@[simp] theorem Fault.unless_eq_ok_iff {f : Fault} {p : Prop} [Decidable p] :
    f.unless p = .ok () ↔ p := by
  by_cases h : p <;> simp [Fault.unless, h]

namespace Count

/-- Counts are below this bound, which is `2 ^ 64`. -/
def bound : Nat := 18446744073709551616

/-- Numbers below this bound, which is `2 ^ 63`, have a signed form. -/
def signedBound : Nat := 9223372036854775808

/-- The sum of two counts. -/
def add (a b : Nat) : Except Fault Nat :=
  if a + b < bound then .ok (a + b) else .error .overflow

/-- The difference of two counts. -/
def sub (a b : Nat) : Except Fault Nat :=
  if b ≤ a then .ok (a - b) else .error .overflow

/-- A count read as a signed one: the upper half of the range stands for the negative numbers. -/
def signed (n : Nat) : Int := (n : Int).bmod bound

/-- The negation of a signed count. The least one has none. -/
def neg (z : Int) : Except Fault Int :=
  if z = -signedBound then .error .overflow else .ok (-z)

/-- The signed difference `a - b`: the distance is read as a signed count, then given its sign. -/
def diff (a b : Nat) : Except Fault Int :=
  if b ≤ a then .ok (signed (a - b)) else neg (signed (b - a))

/-- The count `n` moved by `delta`. -/
def shift (n : Nat) (delta : Int) : Except Fault Nat :=
  let moved := (n : Int) + delta
  if 0 ≤ moved ∧ moved < bound then .ok moved.toNat else .error .overflow

/-- The count `n` moved by `delta` and kept between zero and `bound - 1`. -/
def saturatingShift (n : Nat) (delta : Int) : Nat :=
  min ((n : Int) + delta).toNat (bound - 1)

end Count

end Caret
