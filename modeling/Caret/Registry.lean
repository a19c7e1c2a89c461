import Caret.Buffer

/-!
# Listener registries

Who is to be told about the changes of a buffer. A listener may die without being removed; such
entries are pruned when the next listener is registered or the next change is made known.

* `Registry.add`, `Registry.remove`: registering a listener and releasing a registration.
* `Registry.prune`: dropping the entries of dead listeners.
* `Registry.active`: the registrations that were not released yet.
-/

namespace Caret

/-- Tells the registrations of one buffer apart. Numbers are given out in order and never reused. -/
abbrev ListenerId := Nat

/-- Tells listeners apart, whatever buffers they are registered on. -/
abbrev ListenerKey := Nat

/-- One registration. -/
structure Entry where
  id : ListenerId
  listener : ListenerKey
  deriving DecidableEq, Repr, Inhabited

/-- The registrations on a buffer, in order, with counts of how many there have ever been. -/
structure Registry where
  entries : List Entry := []
  nextId : ListenerId := 0
  registered : Nat := 0
  unregistered : Nat := 0
  deriving DecidableEq, Repr, Inhabited

namespace Registry

/-- Drops the entries of listeners that are no longer alive. -/
def prune (alive : ListenerKey → Bool) (r : Registry) : Registry :=
  let entries := r.entries.filter fun e => alive e.listener
  { r with entries, unregistered := r.unregistered + (r.entries.length - entries.length) }

/-- The number of entries that pruning drops. -/
def deadCount (alive : ListenerKey → Bool) (r : Registry) : Nat :=
  r.entries.countP fun e => !alive e.listener

/-- Registers a listener after pruning. The new registration has the number `r.nextId`. -/
def add (alive : ListenerKey → Bool) (listener : ListenerKey) (r : Registry) : Registry :=
  let pruned := r.prune alive
  { pruned with
    entries := pruned.entries ++ [⟨r.nextId, listener⟩]
    nextId := r.nextId + 1
    registered := r.registered + 1 }

/-- Releases a registration, `none` when there is none of that number. -/
def remove (id : ListenerId) (r : Registry) : Option Registry :=
  if r.entries.any (·.id == id) then
    some { r with
      entries := r.entries.eraseP (·.id == id)
      unregistered := r.unregistered + 1 }
  else none

/-- The number of registrations that were not released. -/
def active (r : Registry) : Except Fault Nat := Count.sub r.registered r.unregistered

end Registry

end Caret
