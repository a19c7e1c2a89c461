import Caret.Proofs.Tour
import Caret.Proofs.Tracker

/-!
# Changes that go forward

A tracker takes in all changes in one pass and moves a position but once, by where it stands in the end.
While every change begins at or behind the position that the one before it left, and not behind the
position in question, this leads to where the changes lead one by one. That position may have been
consumed by an erase, and later texts may be put in right where it collapsed.

An erase whose end is logged in front of its beginning is not ruled out by that. It does no harm as long
as its end, too, is not in front of the position that the change before it left; there the tracker stops.

* `Change.Along`: what holds of changes one after the other.
* `Change.Forward`: changes that go forward, up to what a position has become.
* `Change.EndsBehind`: changes whose ends the tracker does not pass.
* `Tracker.Follows`: a tracker that has kept up with changes.
* `Tracker.Follows.feed`: one more change.
* `Tracker.Follows.exists_feedAll_iff`: which changes that go forward are taken in.
-/

namespace Caret

namespace Change

/-- The position that the last of the changes left behind: the end of a text put in, the place of a text
taken out. -/
def lastFrontier (made : List Change) : Coord := (made.getLast?.map frontier).getD Coord.zero

/-- The coordinates of a change between texts that leave room. -/
theorem Takes.signed {change : Change} {s t : Text} (h : change.Takes s t) (hs : s.size < Text.capacity)
    (ht : t.size < Text.capacity) : change.start.Signed ∧ change.stop.Signed := by
  cases h with
  | insert before mid after hmid =>
    have hsize := (Text.size_append_lt ht).1
    exact ⟨Text.extent_signed (Text.size_append_lt hsize).1, Text.extent_signed hsize⟩
  | erase before mid after hmid =>
    have hsize := (Text.size_append_lt hs).1
    exact ⟨Text.extent_signed (Text.size_append_lt hsize).1, Text.extent_signed hsize⟩

theorem lastFrontier_concat (made : List Change) (change : Change) :
    lastFrontier (made ++ [change]) = change.frontier := by
  unfold lastFrontier
  rw [List.getLast?_concat]
  rfl

/-- **Along changes.** `P` holds of each of them and of those made before it, which at first are `made`. -/
def Along (P : List Change → Change → Prop) : List Change → List Change → Prop
  | _, [] => True
  | made, change :: more => P made change ∧ Along P (made ++ [change]) more

/-- **The changes go forward** from `made` on. Each of them begins at or behind the position that the
change before it left, and at or before what has by then become of the position `ahead`, if there is
one. -/
def Forward (ahead : Option Coord) : List Change → List Change → Prop :=
  Along fun made change => lastFrontier made ≤ change.start ∧
    ∀ c ∈ ahead, ∀ c', c.across made = .ok c' → change.start ≤ c'

/-- No text taken out ends in front of the position that the change before left. -/
def EndsBehind : List Change → List Change → Prop :=
  Along fun made change => change.kind = .erase → lastFrontier made ≤ change.stop

end Change

namespace Tracker

variable {t : Tracker} {c r d g : Coord} {change : Change} {made more : List Change}
  {ahead ahead' : Option Coord}

/-! ## One landing -/

/-- What was consumed lands where the tracker stands, and all else by its extent behind it. -/
theorem landing_cases (ht : t.Signed) (hland : t.landing c = .ok r) :
    c < t.reference ∧ r = t.current ∨ ∃ d, c = t.reference + d ∧ r = t.current + d := by
  unfold landing at hland
  split at hland
  · rename_i hlt
    cases hland
    exact .inl ⟨hlt, rfl⟩
  · obtain ⟨d, hc, hr, -⟩ := (toCurrent_eq_ok_iff ht).1 hland
    exact .inr ⟨d, hc, hr⟩

theorem landing_add (ht : t.Signed) (hd : d.Signed) :
    t.landing (t.reference + d) = .ok (t.current + d) := by
  unfold landing
  rw [if_neg (not_lt.2 (Coord.le_add _ d))]
  exact (toCurrent_eq_ok_iff ht).2 ⟨d, rfl, rfl, ht.1.add hd⟩

theorem landing_of_le (ht : t.Signed) (hle : c ≤ t.reference) : t.landing c = .ok t.current := by
  rcases hle.lt_or_eq with hlt | rfl
  · unfold landing
    exact if_pos hlt
  · have hzero : Coord.Signed 0 := signed_start.1
    simpa using landing_add ht hzero

/-- **Across a text put in**, `g` behind where the tracker stands. -/
theorem exists_landing_insert {current reference stop : Coord} (ht : Signed ⟨current, reference⟩) (hstart : (current + g).Signed)
    (ht' : Signed ⟨stop, reference + g⟩) (hc : c.Signed)
    (hland : landing ⟨current, reference⟩ c = .ok r) (hle : current + g ≤ r) :
    ∃ e, r.acrossInsert (current + g) stop = .ok e ∧ landing ⟨stop, reference + g⟩ c = .ok e := by
  unfold Coord.acrossInsert
  rw [if_neg (not_lt.2 hle)]
  obtain ⟨hlt, hr⟩ | ⟨d, rfl, hr⟩ := landing_cases ht hland
  · -- it was consumed, so the text goes in right where the tracker stands
    dsimp only at hlt hr
    have hsame : r = current + g := by
      apply le_antisymm _ hle
      rw [hr]
      exact Coord.le_add current g
    refine ⟨stop, ?_, landing_of_le ht' (hlt.le.trans (Coord.le_add reference g))⟩
    rw [hsame]
    simpa using Coord.carry_add (d := 0) hstart ht'.1 (ht'.1.add signed_start.1)
  · dsimp only at hc hr
    subst hr
    obtain ⟨k, rfl⟩ := Coord.le_iff_exists_add.1 (Coord.add_le_add_iff.1 hle)
    have hk : k.Signed := hc.of_add.of_add
    refine ⟨stop + k, ?_, ?_⟩
    · rw [← add_assoc]
      exact Coord.carry_add hstart ht'.1 (ht'.1.add hk)
    · dsimp only
      rw [← add_assoc]
      exact landing_add ht' hk

/-- **Across a text taken out**, up to `g` behind where the tracker stands. -/
theorem exists_landing_erase {current reference start : Coord} (ht : Signed ⟨current, reference⟩) (hstop : (current + g).Signed)
    (ht' : Signed ⟨start, reference + g⟩) (hc : c.Signed)
    (hland : landing ⟨current, reference⟩ c = .ok r) (hle : start ≤ r) :
    ∃ e, r.acrossErase start (current + g) = .ok e ∧ landing ⟨start, reference + g⟩ c = .ok e := by
  unfold Coord.acrossErase
  rw [if_neg (not_lt.2 hle)]
  have hcases := landing_cases ht hland
  dsimp only at hcases
  by_cases hin : r ≤ current + g
  · rw [if_pos hin]
    refine ⟨start, rfl, landing_of_le ht' ?_⟩
    obtain ⟨hlt, -⟩ | ⟨d, rfl, rfl⟩ := hcases
    · exact hlt.le.trans (Coord.le_add reference g)
    · exact Coord.add_le_add_iff.2 (Coord.add_le_add_iff.1 hin)
  · rw [if_neg hin]
    obtain ⟨-, rfl⟩ | ⟨d, rfl, rfl⟩ := hcases
    · exact absurd (Coord.le_add r g) hin
    · have hgd : g ≤ d := (Coord.add_lt_add_iff.1 (not_le.1 hin)).le
      obtain ⟨k, rfl⟩ := Coord.le_iff_exists_add.1 hgd
      have hk : k.Signed := hc.of_add.of_add
      refine ⟨start + k, ?_, ?_⟩
      · rw [← add_assoc]
        exact Coord.carry_add hstop ht'.1 (ht'.1.add hk)
      · rw [← add_assoc]
        exact landing_add ht' hk

/-! ## The tracker past some changes -/

/-- The tracker that the changes lead to, in exact numbers. -/
def past (made : List Change) : Tracker := made.foldl after Tracker.start

theorem past_concat (made : List Change) (change : Change) :
    past (made ++ [change]) = (past made).after change := by
  unfold past
  rw [List.foldl_append]
  rfl

theorem current_past (made : List Change) : (past made).current = Change.lastFrontier made := by
  rcases List.eq_nil_or_concat made with rfl | ⟨earlier, change, rfl⟩
  · rfl
  · rw [List.concat_eq_append, past_concat, Change.lastFrontier_concat]
    unfold after Change.frontier
    cases change.kind <;> rfl

/-- Along the changes all numbers stay in the signed range, those that they lead the tracker to
included. -/
def StaysSigned : List Change → List Change → Prop :=
  Change.Along fun made change => change.start.Signed ∧ change.stop.Signed ∧
    ((past made).after change).reference.Signed

/-- An erase that a tracker takes in ends behind where it stands. -/
theorem le_stop_of_feed {t' : Tracker} (h : t.feed change = .ok t') (hkind : change.kind = .erase) :
    t.current ≤ change.stop := by
  unfold feed at h
  rw [hkind, Fault.bind_eq_ok] at h
  obtain ⟨_, -, h⟩ := h
  dsimp only at h
  rw [Fault.bind_eq_ok] at h
  obtain ⟨reference, hreference, -⟩ := h
  unfold toReference at hreference
  rw [Fault.bind_eq_ok] at hreference
  obtain ⟨_, hle, -⟩ := hreference
  exact Fault.unless_eq_ok_iff.1 hle

/-- **A tracker that has kept up** with the changes `made`. A position from `ahead` on lands where they
take it one by one. -/
structure Follows (made : List Change) (ahead : Option Coord) : Prop where
  signed : (past made).Signed
  lands : ∀ p ∈ ahead, p.Signed ∧
    ∀ c, c.Signed → p ≤ c → ∃ c', c.across made = .ok c' ∧ (past made).landing c = .ok c'

namespace Follows

theorem start (hsigned : ∀ p ∈ ahead, p.Signed) : Follows [] ahead where
  signed := signed_start
  lands p hp := by
    refine ⟨hsigned p hp, fun c hc _ => ⟨c, rfl, ?_⟩⟩
    have hland := landing_add signed_start hc
    rwa [show Tracker.start.reference + c = c from zero_add c,
      show Tracker.start.current + c = c from zero_add c] at hland

/-- Fewer positions. -/
theorem mono (h : Follows made ahead) (hahead : ∀ p' ∈ ahead', p'.Signed ∧ ∃ p ∈ ahead, p ≤ p') :
    Follows made ahead' where
  signed := h.signed
  lands p' hp' := by
    obtain ⟨hsigned, p, hp, hle⟩ := hahead p' hp'
    exact ⟨hsigned, fun c hc hle' => (h.lands p hp).2 c hc (hle.trans hle')⟩

/-- A selection from there on lands where the changes take it. -/
theorem exists_arrive {s : Selection} (h : Follows made (some s.low)) (hanchor : s.anchor.Signed)
    (hcursor : s.cursor.Signed) :
    ∃ anchor cursor, s.anchor.across made = .ok anchor ∧ s.cursor.across made = .ok cursor ∧
      (past made).landing s.anchor = .ok anchor ∧ (past made).landing s.cursor = .ok cursor := by
  obtain ⟨-, hlands⟩ := h.lands s.low rfl
  obtain ⟨anchor, hacross, hland⟩ := hlands s.anchor hanchor (min_le_left _ _)
  obtain ⟨cursor, hacross', hland'⟩ := hlands s.cursor hcursor (min_le_right _ _)
  exact ⟨anchor, cursor, hacross, hacross', hland, hland'⟩

/-- **One more change.** -/
theorem feed (h : Follows made ahead) (hsmall : StaysSigned made [change])
    (hforward : Change.Forward ahead made [change]) (hends : Change.EndsBehind made [change]) :
    (past made).feed change = .ok (past (made ++ [change])) ∧ Follows (made ++ [change]) ahead := by
  obtain ⟨⟨hstart, hstop, hreference⟩, -⟩ := hsmall
  obtain ⟨⟨hfront, hahead⟩, -⟩ := hforward
  have hend := hends.1
  rw [← current_past] at hfront hend
  have ht' : ((past made).after change).Signed := by
    refine ⟨?_, hreference⟩
    unfold after
    split
    · exact hstop
    · exact hstart
  rw [past_concat]
  refine ⟨feed_eq h.signed hfront hend hreference.counted, by rw [past_concat]; exact ht', ?_⟩
  intro p hp
  obtain ⟨hsigned, hlands⟩ := h.lands p hp
  obtain ⟨p', hacross, hland⟩ := hlands p hsigned le_rfl
  refine ⟨hsigned, fun c hc hle => ?_⟩
  obtain ⟨c', hacross', hland'⟩ := hlands c hc hle
  -- what has become of the position is not in front of the change
  have hbehind : change.start ≤ c' :=
    (hahead p hp p' hacross).trans (landing_le h.signed hland hland' hle)
  obtain ⟨e, hmove, hland''⟩ : ∃ e, change.move c' = .ok e ∧ ((past made).after change).landing c = .ok e := by
    obtain ⟨kind, start, stop⟩ := change
    cases kind with
    | insert =>
      obtain ⟨g, rfl⟩ := Coord.le_iff_exists_add.1 hfront
      unfold after at ht' ⊢
      dsimp only at ht' ⊢
      rw [Coord.behind_add] at ht' ⊢
      exact exists_landing_insert h.signed hstart ht' hc hland' hbehind
    | erase =>
      obtain ⟨g, rfl⟩ := Coord.le_iff_exists_add.1 (hend rfl)
      unfold after at ht' ⊢
      dsimp only at ht' ⊢
      rw [Coord.behind_add] at ht' ⊢
      exact exists_landing_erase h.signed hstop ht' hc hland' hbehind
  rw [past_concat]
  exact ⟨e, by rw [Coord.across_append hacross', Coord.across_single]; exact hmove, hland''⟩

/-- **Changes that are taken in** keep the tracker up. -/
theorem feedAll (h : Follows made ahead) (hsmall : StaysSigned made more)
    (hforward : Change.Forward ahead made more) (hends : Change.EndsBehind made more) :
    (past made).feedAll more = .ok (past (made ++ more)) ∧ Follows (made ++ more) ahead := by
  induction more generalizing made with
  | nil =>
    rw [List.append_nil]
    exact ⟨rfl, h⟩
  | cons change more ih =>
    obtain ⟨hfeed, h'⟩ := h.feed ⟨hsmall.1, trivial⟩ ⟨hforward.1, trivial⟩ ⟨hends.1, trivial⟩
    obtain ⟨hall, hfollows⟩ := ih h' hsmall.2 hforward.2 hends.2
    rw [List.append_assoc] at hall hfollows
    refine ⟨?_, hfollows⟩
    rw [← List.singleton_append, Tracker.feedAll_append (Tracker.feedAll_single hfeed), hall]

/-- **Which changes that go forward are taken in.** -/
theorem exists_feedAll_iff (h : Follows made ahead) (hsmall : StaysSigned made more)
    (hforward : Change.Forward ahead made more) :
    (∃ t, (past made).feedAll more = .ok t) ↔ Change.EndsBehind made more := by
  refine ⟨?_, fun hends => ⟨_, (h.feedAll hsmall hforward hends).1⟩⟩
  rintro ⟨t, hall⟩
  induction more generalizing made with
  | nil => trivial
  | cons change more ih =>
    unfold Tracker.feedAll at hall
    rw [List.foldlM_cons, Fault.bind_eq_ok] at hall
    obtain ⟨next, hnext, hall⟩ := hall
    have hend : change.kind = .erase → Change.lastFrontier made ≤ change.stop := by
      rw [← current_past]
      exact le_stop_of_feed hnext
    obtain ⟨hfeed, h'⟩ := h.feed ⟨hsmall.1, trivial⟩ ⟨hforward.1, trivial⟩ ⟨hend, trivial⟩
    cases hfeed.symm.trans hnext
    exact ⟨hend, ih h' hsmall.2 hforward.2 hall⟩

end Follows

/-! ## Changes that tell how a text came about -/

namespace StandsIn

variable {s u u' : Text}

theorem signed (h : t.StandsIn s u) (hs : s.size < Text.capacity) (hu : u.size < Text.capacity) :
    t.Signed := by
  obtain ⟨a, b, q, rfl, rfl, rfl⟩ := h
  exact ⟨Text.extent_signed (Text.size_append_lt hu).1, Text.extent_signed (Text.size_append_lt hs).1⟩

/-- One change that is not in front of the tracker. -/
theorem after (h : t.StandsIn s u) (htakes : change.Takes u u') (hle : t.current ≤ change.start) :
    (t.after change).StandsIn s u' := by
  obtain ⟨a, b, q, rfl, hu, rfl⟩ := h
  unfold Tracker.after
  cases htakes with
  | insert before mid after hmid =>
    obtain ⟨g, rfl, rfl⟩ := Text.exists_append_of_extent_le hu.symm hle
    refine ⟨a ++ g, b ++ g ++ mid, after, (List.append_assoc _ _ _).symm, rfl, ?_⟩
    dsimp only
    rw [Text.extent_append b g, Coord.behind_add, Text.extent_append a g]
  | erase before mid after hmid =>
    rw [List.append_assoc before] at hu
    obtain ⟨g, rfl, rfl⟩ := Text.exists_append_of_extent_le hu.symm hle
    refine ⟨a ++ g ++ mid, b ++ g, after, by simp only [List.append_assoc], rfl, ?_⟩
    dsimp only
    rw [List.append_assoc b, Text.extent_append b (g ++ mid), Coord.behind_add, List.append_assoc a,
      Text.extent_append a]

/-- **Changes that go forward and tell how the text came about** are taken in. -/
theorem along (h : (past made).StandsIn s u) (hs : s.size < Text.capacity) (hu : u.size < Text.capacity)
    (htrail : Trail u more u') (hforward : Change.Forward ahead made more) :
    StaysSigned made more ∧ Change.EndsBehind made more ∧ (past (made ++ more)).StandsIn s u' := by
  induction more generalizing made u with
  | nil =>
    rw [List.append_nil]
    exact ⟨trivial, trivial, htrail ▸ h⟩
  | cons change more ih =>
    obtain ⟨w, htakes, hw, htrail⟩ := htrail
    obtain ⟨⟨hfront, -⟩, hforward⟩ := hforward
    have hnext : (past (made ++ [change])).StandsIn s w := by
      rw [past_concat]
      exact h.after htakes ((current_past made).le.trans hfront)
    obtain ⟨hsmall, hends, hstands⟩ := ih hnext hw htrail hforward
    rw [List.append_assoc] at hstands
    obtain ⟨hstart, hstop⟩ := htakes.signed hu hw
    have hreference := (hnext.signed hs hw).2
    rw [past_concat] at hreference
    exact ⟨⟨⟨hstart, hstop, hreference⟩, hsmall⟩,
      ⟨fun _ => hfront.trans htakes.start_lt_stop.le, hends⟩, hstands⟩

end StandsIn

end Tracker

end Caret
