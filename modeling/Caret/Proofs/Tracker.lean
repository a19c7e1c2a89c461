import Caret.Change.Tracker
import Caret.Proofs.Coord

/-!
# The two maps of a tracker

What stands behind the current position of a tracker by some extent comes from what stands behind
its reference position by the same extent. That makes its two maps inverse to each other and strictly
increasing, whatever changes have led there, as long as the numbers stay in the signed range.

* `Coord.behind`: the extent between two positions.
* `Tracker.toReference_eq_ok_iff`, `Tracker.toCurrent_eq_ok_iff`: the two maps in terms of extents.
* `Tracker.Mirrors`: the laws of the two maps, of landings and of concern.
* `Tracker.after`, `Tracker.Admits`: what changes make of a tracker in exact numbers, and which it
  can take in.
* `Tracker.feedAll_mirrors`: every tracker that changes can lead to.
-/

namespace Caret

namespace Coord

variable {a b c d r : Coord}

/-- The extent of what lies between `a` and `c`. -/
def behind (c a : Coord) : Coord :=
  if c.line = a.line then ⟨0, c.column - a.column⟩ else ⟨c.line - a.line, c.column⟩

theorem add_behind (h : a ≤ c) : a + c.behind a = c := by
  rw [le_def] at h
  rw [ext_iff, add_line, add_column]
  unfold behind
  split <;> dsimp only <;> split <;> omega

theorem behind_add (a d : Coord) : (a + d).behind a = d :=
  add_left_cancel (add_behind (le_add a d))

theorem le_iff_exists_add : a ≤ c ↔ ∃ d, c = a + d :=
  ⟨fun h => ⟨_, (add_behind h).symm⟩, fun ⟨d, hd⟩ => hd ▸ le_add a d⟩

end Coord

namespace Tracker

variable {t : Tracker} {c d r s : Coord} {change : Change} {changes : List Change}

/-- Both positions are in the signed range. -/
def Signed (t : Tracker) : Prop := t.current.Signed ∧ t.reference.Signed

/-- The tracker that sees the current state as the reference one. -/
def flip (t : Tracker) : Tracker := ⟨t.reference, t.current⟩

theorem Signed.flip (ht : t.Signed) : t.flip.Signed := ⟨ht.2, ht.1⟩

theorem toCurrent_eq (t : Tracker) (c : Coord) : t.toCurrent c = t.flip.toReference c := rfl

/-- **Back to the reference state.** What stands behind the current position by some extent comes from
what stands behind the reference position by the same extent. -/
theorem toReference_eq_ok_iff (ht : t.Signed) :
    t.toReference c = .ok r ↔ ∃ d, c = t.current + d ∧ r = t.reference + d ∧ r.Counted := by
  constructor
  · intro h
    unfold toReference at h
    rw [Fault.bind_eq_ok] at h
    obtain ⟨⟨⟩, hle, h⟩ := h
    rw [Fault.bind_eq_ok] at h
    obtain ⟨moved, hmoved, h⟩ := h
    rw [Fault.bind_eq_ok] at h
    obtain ⟨⟨⟩, -, h⟩ := h
    cases h
    obtain ⟨d, rfl⟩ := Coord.le_iff_exists_add.1 (Fault.unless_eq_ok_iff.1 hle)
    exact ⟨d, rfl, (Coord.carry_add_eq_ok_iff ht.1 ht.2).1 hmoved⟩
  · rintro ⟨d, rfl, rfl, hr⟩
    unfold toReference
    rw [Fault.unless_of (Coord.le_add _ d), Fault.ok_bind, Coord.carry_add ht.1 ht.2 hr,
      Fault.ok_bind, Fault.unless_of (Coord.le_add _ d)]
    rfl

/-- **On to the current state**, by the same extent. -/
theorem toCurrent_eq_ok_iff (ht : t.Signed) :
    t.toCurrent c = .ok r ↔ ∃ d, c = t.reference + d ∧ r = t.current + d ∧ r.Counted := by
  rw [toCurrent_eq, toReference_eq_ok_iff ht.flip]
  rfl

/-! ## The laws of the two maps -/

/-- A coordinate in the signed range that is not in front of the current position has an origin. -/
theorem exists_toReference (ht : t.Signed) (hc : c.Signed) (hle : t.current ≤ c) :
    ∃ r, t.toReference c = .ok r := by
  obtain ⟨d, rfl⟩ := Coord.le_iff_exists_add.1 hle
  exact ⟨_, (toReference_eq_ok_iff ht).2 ⟨d, rfl, rfl, ht.2.add hc.of_add⟩⟩

/-- **The second map takes back** what the first one did. -/
theorem toCurrent_of_toReference (ht : t.Signed) (hc : c.Counted) (h : t.toReference c = .ok r) :
    t.toCurrent r = .ok c := by
  obtain ⟨d, rfl, rfl, -⟩ := (toReference_eq_ok_iff ht).1 h
  exact (toCurrent_eq_ok_iff ht).2 ⟨d, rfl, rfl, hc⟩

theorem reference_le_of_toReference (ht : t.Signed) (h : t.toReference c = .ok r) :
    t.reference ≤ r := by
  obtain ⟨d, rfl, rfl, -⟩ := (toReference_eq_ok_iff ht).1 h
  exact Coord.le_add _ d

/-- **The first map keeps the order**, strictly. -/
theorem toReference_lt_iff (ht : t.Signed) (hc : t.toReference c = .ok r)
    (hd : t.toReference d = .ok s) : r < s ↔ c < d := by
  obtain ⟨x, rfl, rfl, -⟩ := (toReference_eq_ok_iff ht).1 hc
  obtain ⟨y, rfl, rfl, -⟩ := (toReference_eq_ok_iff ht).1 hd
  rw [Coord.add_lt_add_iff, Coord.add_lt_add_iff]

/-- Every coordinate in the signed range lands somewhere. -/
theorem exists_landing (ht : t.Signed) (hc : c.Signed) : ∃ r, t.landing c = .ok r := by
  unfold landing
  by_cases hlt : c < t.reference
  · rw [if_pos hlt]
    exact ⟨t.current, rfl⟩
  · rw [if_neg hlt]
    exact exists_toReference ht.flip hc (not_lt.1 hlt)

/-- **Landings keep the order.** What was consumed lands in front of all that is left. -/
theorem landing_le (ht : t.Signed) (hc : t.landing c = .ok r) (hd : t.landing d = .ok s)
    (hle : c ≤ d) : r ≤ s := by
  unfold landing at hc hd
  by_cases hlt : d < t.reference
  · rw [if_pos hlt] at hd
    rw [if_pos (hle.trans_lt hlt)] at hc
    cases hc
    cases hd
    exact le_rfl
  · rw [if_neg hlt] at hd
    by_cases hlt' : c < t.reference
    · rw [if_pos hlt'] at hc
      cases hc
      exact reference_le_of_toReference ht.flip hd
    · rw [if_neg hlt'] at hc
      exact not_lt.1 fun hgt => hle.not_gt ((toReference_lt_iff ht.flip hd hc).1 hgt)

/-- **A change that concerns a coordinate** concerns all behind it. -/
theorem exists_concerns (ht : t.Signed) (change : Change) (hc : c.Signed) (hd : d.Signed)
    (hle : c ≤ d) : ∃ p q, t.concerns change c = .ok p ∧ t.concerns change d = .ok q ∧
      (p = true → q = true) := by
  obtain ⟨r, hr⟩ := exists_landing ht hc
  obtain ⟨s, hs⟩ := exists_landing ht hd
  have hrs := landing_le ht hr hs hle
  unfold concerns
  rw [hr, hs, Fault.ok_bind, Fault.ok_bind]
  cases change.kind with
  | insert =>
    exact ⟨_, _, rfl, rfl, fun h => decide_eq_true ((of_decide_eq_true h).trans hrs)⟩
  | erase =>
    exact ⟨_, _, rfl, rfl, fun h => decide_eq_true ((of_decide_eq_true h).trans_le hrs)⟩

/-- **The laws of a tracker.** -/
structure Mirrors (t : Tracker) : Prop where
  /-- A coordinate that is not in front of the current position has an origin, and has become of it. -/
  back : ∀ c, c.Signed → t.current ≤ c →
    ∃ r, t.toReference c = .ok r ∧ t.reference ≤ r ∧ t.toCurrent r = .ok c
  /-- A coordinate that is not in front of the reference position has become one that it is the
  origin of. -/
  forth : ∀ c, c.Signed → t.reference ≤ c →
    ∃ r, t.toCurrent c = .ok r ∧ t.current ≤ r ∧ t.toReference r = .ok c
  back_lt : ∀ c d r s, t.toReference c = .ok r → t.toReference d = .ok s → c < d → r < s
  forth_lt : ∀ c d r s, t.toCurrent c = .ok r → t.toCurrent d = .ok s → c < d → r < s
  landing_le : ∀ c d, c.Signed → d.Signed → c ≤ d →
    ∃ r s, t.landing c = .ok r ∧ t.landing d = .ok s ∧ r ≤ s
  concerns_of_le : ∀ change c d, c.Signed → d.Signed → c ≤ d →
    ∃ p q, t.concerns change c = .ok p ∧ t.concerns change d = .ok q ∧ (p = true → q = true)

theorem Signed.exists_back (ht : t.Signed) (hc : c.Signed) (hle : t.current ≤ c) :
    ∃ r, t.toReference c = .ok r ∧ t.reference ≤ r ∧ t.toCurrent r = .ok c := by
  obtain ⟨r, hr⟩ := exists_toReference ht hc hle
  exact ⟨r, hr, reference_le_of_toReference ht hr, toCurrent_of_toReference ht hc.counted hr⟩

/-- **A tracker in the signed range** keeps the laws. -/
theorem Signed.mirrors (ht : t.Signed) : t.Mirrors where
  back _ hc hle := ht.exists_back hc hle
  forth _ hc hle := ht.flip.exists_back hc hle
  back_lt _ _ _ _ hc hd hlt := (toReference_lt_iff ht hc hd).2 hlt
  forth_lt _ _ _ _ hc hd hlt := (toReference_lt_iff ht.flip hc hd).2 hlt
  landing_le _ _ hc hd hle := by
    obtain ⟨r, hr⟩ := exists_landing ht hc
    obtain ⟨s, hs⟩ := exists_landing ht hd
    exact ⟨r, s, hr, hs, Tracker.landing_le ht hr hs hle⟩
  concerns_of_le change _ _ hc hd hle := exists_concerns ht change hc hd hle

/-! ## Trackers that changes lead to -/

/-- The tracker once it has taken in a change, in exact numbers. -/
def after (t : Tracker) (change : Change) : Tracker :=
  match change.kind with
  | .insert => ⟨change.stop, t.reference + change.start.behind t.current⟩
  | .erase => ⟨change.start, t.reference + change.stop.behind t.current⟩

/-- **A change that a tracker can take in.** It is not in front of the current position, and leads to
numbers in the signed range. -/
structure Admits (t : Tracker) (change : Change) : Prop where
  behind : t.current ≤ change.start
  forward : change.start ≤ change.stop
  signed : (t.after change).Signed

/-- Changes that it can take in one after the other. -/
def AdmitsAll : Tracker → List Change → Prop
  | _, [] => True
  | t, change :: changes => t.Admits change ∧ (t.after change).AdmitsAll changes

/-- What is not in front of the current position is taken in. -/
theorem feed_eq (ht : t.Signed) (hstart : t.current ≤ change.start)
    (hstop : change.kind = .erase → t.current ≤ change.stop)
    (hcounted : (t.after change).reference.Counted) : t.feed change = .ok (t.after change) := by
  obtain ⟨kind, start, stop⟩ := change
  dsimp only at hstart hstop
  -- the end of the change that was there before it has an origin
  have hback : ∀ c, t.current ≤ c → (t.reference + c.behind t.current).Counted →
      t.toReference c = .ok (t.reference + c.behind t.current) := by
    intro c hle hc
    exact (toReference_eq_ok_iff ht).2 ⟨_, (Coord.add_behind hle).symm, rfl, hc⟩
  unfold feed
  rw [Fault.unless_of hstart, Fault.ok_bind]
  cases kind with
  | insert =>
    dsimp only
    rw [hback start hstart hcounted]
    rfl
  | erase =>
    dsimp only
    rw [hback stop (hstop rfl) hcounted]
    rfl

/-- **One change.** It is taken in, and neither position moves back. -/
theorem Admits.feed (h : t.Admits change) (ht : t.Signed) :
    t.feed change = .ok (t.after change) ∧ t.current ≤ (t.after change).current ∧
      t.reference ≤ (t.after change).reference := by
  obtain ⟨hbehind, hforward, hsigned⟩ := h
  refine ⟨feed_eq ht hbehind (fun _ => hbehind.trans hforward) hsigned.2.counted, ?_⟩
  obtain ⟨kind, start, stop⟩ := change
  cases kind with
  | insert => exact ⟨hbehind.trans hforward, Coord.le_add _ _⟩
  | erase => exact ⟨hbehind, Coord.le_add _ _⟩

/-- **Changes one after the other.** All of them are taken in, the numbers stay in the signed range,
and neither position ever moves back. -/
theorem AdmitsAll.feedAll (h : t.AdmitsAll changes) (ht : t.Signed) :
    t.feedAll changes = .ok (changes.foldl after t) ∧ (changes.foldl after t).Signed ∧
      t.current ≤ (changes.foldl after t).current ∧
      t.reference ≤ (changes.foldl after t).reference := by
  induction changes generalizing t with
  | nil => exact ⟨rfl, ht, le_rfl, le_rfl⟩
  | cons change changes ih =>
    obtain ⟨hchange, hchanges⟩ := h
    obtain ⟨hfeed, hcurrent, hreference⟩ := hchange.feed ht
    obtain ⟨hall, hsigned, hcurrent', hreference'⟩ := ih hchanges hchange.signed
    refine ⟨?_, hsigned, hcurrent.trans hcurrent', hreference.trans hreference'⟩
    unfold Tracker.feedAll
    rw [List.foldlM_cons, hfeed, Fault.ok_bind]
    exact hall

theorem admitsAll_append {earlier later : List Change} :
    t.AdmitsAll (earlier ++ later) ↔
      t.AdmitsAll earlier ∧ (earlier.foldl after t).AdmitsAll later := by
  induction earlier generalizing t with
  | nil => exact ⟨fun h => ⟨trivial, h⟩, fun h => h.2⟩
  | cons change earlier ih =>
    show t.Admits change ∧ (t.after change).AdmitsAll (earlier ++ later) ↔ _
    rw [ih, ← and_assoc]
    rfl

theorem signed_start : start.Signed := by
  have hzero : Coord.zero.Signed := ⟨by decide, by decide⟩
  exact ⟨hzero, hzero⟩

/-- **Every tracker that changes lead to** keeps the laws, and while it got there neither of its
positions has moved back. -/
theorem feedAll_mirrors (h : start.AdmitsAll changes) :
    start.feedAll changes = .ok (changes.foldl after start) ∧
      (changes.foldl after start).Mirrors ∧
      ∀ earlier later, changes = earlier ++ later → ∃ t, start.feedAll earlier = .ok t ∧
        t.current ≤ (changes.foldl after start).current ∧
        t.reference ≤ (changes.foldl after start).reference := by
  obtain ⟨hall, hsigned, -, -⟩ := h.feedAll signed_start
  refine ⟨hall, hsigned.mirrors, ?_⟩
  rintro earlier later rfl
  obtain ⟨hearlier, hlater⟩ := admitsAll_append.1 h
  obtain ⟨hfeed, hsigned', -, -⟩ := hearlier.feedAll signed_start
  obtain ⟨-, -, hcurrent, hreference⟩ := hlater.feedAll hsigned'
  rw [List.foldl_append]
  exact ⟨_, hfeed, hcurrent, hreference⟩

/-- A line break is put into a line, and behind it text is taken out across two more. -/
def sampleChanges : List Change := [⟨.insert, ⟨0, 2⟩, ⟨1, 3⟩⟩, ⟨.erase, ⟨1, 5⟩, ⟨3, 1⟩⟩]

theorem feedAll_mirrors_sample :
    start.feedAll sampleChanges = .ok ⟨⟨1, 5⟩, ⟨2, 1⟩⟩ ∧
      (∃ r, toReference ⟨⟨1, 5⟩, ⟨2, 1⟩⟩ ⟨1, 9⟩ = .ok r ∧
        toCurrent ⟨⟨1, 5⟩, ⟨2, 1⟩⟩ r = .ok ⟨1, 9⟩) ∧
      ∃ t, start.feedAll (sampleChanges.take 1) = .ok t ∧ t.current ≤ ⟨1, 5⟩ ∧ t.reference ≤ ⟨2, 1⟩ := by
  have hadmits : start.AdmitsAll sampleChanges :=
    ⟨⟨by decide, by decide, ⟨by decide, by decide⟩, by decide, by decide⟩,
      ⟨by decide, by decide, ⟨by decide, by decide⟩, by decide, by decide⟩, trivial⟩
  obtain ⟨hfeed, hlaws, hpast⟩ := feedAll_mirrors hadmits
  obtain ⟨r, hr, -, hback⟩ := hlaws.back ⟨1, 9⟩ ⟨by decide, by decide⟩ (by decide)
  exact ⟨hfeed, ⟨r, hr, hback⟩, hpast _ _ rfl⟩

end Tracker

end Caret
