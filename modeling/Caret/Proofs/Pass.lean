import Caret.Proofs.Hunk
import Caret.Change.Sweep

/-!
# One pass over a run

A pass stands between the hunks it has passed and those in front of it: the tracker holds the
extents of the new and of the old text passed so far, and the pending changes are the hunks ahead.
Moving a position takes the pass to the hunk that the position lies before.

* `Hunk.pass`: a pass in terms of texts.
* `Pass.advance_eq`: how far a pass advances for a position, and that it forgets nothing that
  later positions need.
* `Pass.moveAll_eq`: a sorted collection is moved element by element, as if each had a pass of its
  own.
-/

namespace Caret

/-- Text that stays, behind `a` before and behind `b` afterwards. -/
theorem Text.carry_extent {a b m : Text} (ha : a.size < capacity) (hb : b.size < capacity)
    (hm : m.size < capacity) : (a ++ m).extent.carry a.extent b.extent = .ok (b ++ m).extent := by
  rw [extent_append, extent_append]
  exact Coord.carry_add (extent_signed ha) (extent_signed hb)
    (Coord.Signed.add (extent_signed hb) (extent_signed hm))

namespace Tracker

variable {a b m : Text}

theorem toReference_extent (ha : a.size < Text.capacity) (hb : b.size < Text.capacity)
    (hm : m.size < Text.capacity) :
    (⟨b.extent, a.extent⟩ : Tracker).toReference (b ++ m).extent = .ok (a ++ m).extent := by
  unfold toReference
  rw [Fault.unless_of (Text.extent_le_append b m), Fault.ok_bind, Text.carry_extent hb ha hm,
    Fault.ok_bind, Fault.unless_of (Text.extent_le_append a m)]
  rfl

theorem toCurrent_extent (ha : a.size < Text.capacity) (hb : b.size < Text.capacity)
    (hm : m.size < Text.capacity) :
    (⟨b.extent, a.extent⟩ : Tracker).toCurrent (a ++ m).extent = .ok (b ++ m).extent := by
  unfold toCurrent
  rw [Fault.unless_of (Text.extent_le_append a m), Fault.ok_bind, Text.carry_extent ha hb hm,
    Fault.ok_bind, Fault.unless_of (Text.extent_le_append b m)]
  rfl

/-- A position behind the old text passed comes to be as far behind the new text passed. -/
theorem toCurrent_position {q : Text} (ha : a.size < Text.capacity) (hb : b.size < Text.capacity)
    (hq : q.size < Text.capacity) {i : ℕ} (hi : a.length ≤ i) :
    (⟨b.extent, a.extent⟩ : Tracker).toCurrent ((a ++ q).position i) =
      .ok ((b ++ q).position (b.length + (i - a.length))) := by
  obtain ⟨k, rfl⟩ := Nat.exists_eq_add_of_le hi
  have hcur := toCurrent_extent ha hb (lt_of_le_of_lt (Text.size_take_le q k) hq)
  rw [Nat.add_sub_cancel_left, Text.position_append_right, Text.position_append_right]
  rwa [Text.extent_append, Text.extent_append] at hcur

/-- A position of the old text lands as far behind the new text passed as it was behind the old one,
and on the border when it lay in front of it. -/
theorem landing_position {q : Text} (ha : a.size < Text.capacity) (hb : b.size < Text.capacity)
    (hq : q.size < Text.capacity) {i : ℕ} (hi : i ≤ (a ++ q).length) :
    (⟨b.extent, a.extent⟩ : Tracker).landing ((a ++ q).position i) =
      .ok ((b ++ q).position (b.length + (i - a.length))) := by
  have hborder : a.extent = (a ++ q).position a.length := (Text.position_append a q).symm
  have hla : a.length ≤ (a ++ q).length := by simp
  unfold landing
  rcases Nat.lt_or_ge i a.length with hlt | hge
  · rw [if_pos (by rw [hborder]; exact Text.position_lt hlt hla), Nat.sub_eq_zero_of_le hlt.le,
      Nat.add_zero, Text.position_append]
  · rw [if_neg (by rw [hborder, Text.position_lt_iff hi hla]; omega), toCurrent_position ha hb hq hge]

end Tracker

namespace Hunk

/-- The pass that has the hunks in front of it, `a` of the old text and `b` of the new text behind
it. -/
def pass (direction : Direction) (a b : Text) (hunks : List Hunk) : Pass :=
  ⟨⟨b.extent, a.extent⟩, log direction
    (match direction with | .forward => b | .backward => a) hunks⟩

/-- The hunk as a change of the text that has come about when the pass gets there. -/
def viewed (b : Text) (h : Hunk) : Change :=
  ⟨h.kind, (b ++ h.gap).extent, (b ++ h.gap ++ h.content).extent⟩

theorem log_cons (direction : Direction) (p : Text) (h : Hunk) (hunks : List Hunk) :
    log direction p (h :: hunks) = h.viewed p :: log direction (p ++ h.side direction) hunks := rfl

/-- Whether the hunk has to be taken in before a position `k` characters ahead can be moved. -/
def Concerns (h : Hunk) (k : ℕ) : Prop :=
  match h.kind with
  | .insert => h.gap.length ≤ k
  | .erase => h.gap.length < k

instance (h : Hunk) (k : ℕ) : Decidable (h.Concerns k) :=
  match h with
  | ⟨gap, .insert, _, _⟩ => inferInstanceAs (Decidable (gap.length ≤ k))
  | ⟨gap, .erase, _, _⟩ => inferInstanceAs (Decidable (gap.length < k))

/-- Both texts are within capacity. -/
structure Within (a b : Text) (hunks : List Hunk) (rest : Text) : Prop where
  old : (a ++ oldText hunks ++ rest).size < Text.capacity
  new : (b ++ newText hunks ++ rest).size < Text.capacity

variable {direction : Direction} {a b rest : Text} {h : Hunk} {hunks : List Hunk} {i : ℕ}

theorem Within.tail (hw : Within a b (h :: hunks) rest) :
    Within (a ++ h.old) (b ++ h.new) hunks rest := by
  obtain ⟨ho, hn⟩ := hw
  rw [oldText_cons, ← List.append_assoc] at ho
  rw [newText_cons, ← List.append_assoc] at hn
  exact ⟨ho, hn⟩

theorem Within.passed (hw : Within a b hunks rest) :
    a.size < Text.capacity ∧ b.size < Text.capacity :=
  ⟨(Text.size_append_lt (Text.size_append_lt hw.old).1).1,
    (Text.size_append_lt (Text.size_append_lt hw.new).1).1⟩

theorem Within.ahead (hw : Within a b hunks rest) :
    (oldText hunks ++ rest).size < Text.capacity :=
  (Text.size_append_lt (s := a) (by rw [← List.append_assoc]; exact hw.old)).2

/-- The content of the next hunk belongs to the old text or to the new one. -/
theorem Within.next (hw : Within a b (h :: hunks) rest) :
    (h.gap ++ h.content).size < Text.capacity := by
  obtain ⟨ho, hn⟩ := hw.tail.passed
  obtain ⟨gap, kind, content, filled⟩ := h
  cases kind with
  | insert => exact (Text.size_append_lt hn).2
  | erase => exact (Text.size_append_lt ho).2

/-! ## Steps of a pass -/

/-- A hunk that was logged when those in front of it were not there yet. -/
theorem express_viewed (hw : Within a b (h :: hunks) rest) :
    (⟨b.extent, a.extent⟩ : Tracker).express (h.viewed a) = .ok (h.viewed b) := by
  obtain ⟨ha, hb⟩ := hw.passed
  have hgc := hw.next
  have hstart := Tracker.toCurrent_extent ha hb (Text.size_append_lt hgc).1
  have hstop := Tracker.toCurrent_extent ha hb hgc
  rw [← List.append_assoc, ← List.append_assoc] at hstop
  simp only [Tracker.express, viewed, hstart, hstop, Fault.ok_bind, Fault.pure_eq_ok]

theorem pass_cons (direction : Direction) (a b : Text) (h : Hunk) (hunks : List Hunk) :
    ∃ change, (pass direction a b (h :: hunks)).pending =
        change :: (pass direction (a ++ h.old) (b ++ h.new) hunks).pending ∧
      (Within a b (h :: hunks) rest →
        Pass.view direction (pass direction a b (h :: hunks)).tracker change = .ok (h.viewed b)) := by
  cases direction with
  | forward => exact ⟨h.viewed b, rfl, fun _ => rfl⟩
  | backward => exact ⟨h.viewed a, rfl, fun hw => express_viewed hw⟩

/-- Whether the next hunk concerns a position. -/
theorem concerns_viewed (hw : Within a b (h :: hunks) rest)
    (hi : i ≤ (a ++ (oldText (h :: hunks) ++ rest)).length) :
    (⟨b.extent, a.extent⟩ : Tracker).concerns (h.viewed b)
        ((a ++ (oldText (h :: hunks) ++ rest)).position i) =
      .ok (decide (h.Concerns (i - a.length))) := by
  obtain ⟨ha, hb⟩ := hw.passed
  -- the tracker compares in the text `b` with the old text behind it, where the hunk starts as well
  have hsplit : b ++ (oldText (h :: hunks) ++ rest) =
      b ++ h.gap ++ ((if h.kind = .insert then [] else h.content) ++ (oldText hunks ++ rest)) := by
    cases hk : h.kind <;> simp [old, hk]
  have hlen : b.length + h.gap.length ≤ (b ++ (oldText (h :: hunks) ++ rest)).length := by
    rw [hsplit]; simp
  have hlen' : b.length + (i - a.length) ≤ (b ++ (oldText (h :: hunks) ++ rest)).length := by
    simp only [List.length_append] at hi ⊢; omega
  have hstart : (b ++ h.gap).extent =
      (b ++ (oldText (h :: hunks) ++ rest)).position (b.length + h.gap.length) := by
    rw [hsplit, ← List.length_append, Text.position_append]
  unfold Tracker.concerns
  rw [Tracker.landing_position ha hb hw.ahead hi, Fault.ok_bind, viewed, hstart]
  obtain ⟨gap, kind, content, filled⟩ := h
  cases kind with
  | insert =>
    simp only [Text.position_le_iff hlen hlen', Nat.add_le_add_iff_left, Fault.pure_eq_ok]
    rfl
  | erase =>
    simp only [Text.position_lt_iff hlen hlen', Nat.add_lt_add_iff_left, Fault.pure_eq_ok]
    rfl

/-- Taking in the next hunk. -/
theorem feed_viewed (hw : Within a b (h :: hunks) rest) :
    (⟨b.extent, a.extent⟩ : Tracker).feed (h.viewed b) =
      .ok ⟨(b ++ h.new).extent, (a ++ h.old).extent⟩ := by
  obtain ⟨ha, hb⟩ := hw.passed
  have hgc := hw.next
  have hstart := Tracker.toReference_extent ha hb (Text.size_append_lt hgc).1
  have hstop := Tracker.toReference_extent ha hb hgc
  rw [← List.append_assoc, ← List.append_assoc] at hstop
  have hle : b.extent ≤ (b ++ h.gap).extent := Text.extent_le_append b h.gap
  obtain ⟨gap, kind, content, filled⟩ := h
  unfold Tracker.feed viewed
  dsimp only at hstart hstop hle ⊢
  rw [Fault.unless_of hle, Fault.ok_bind]
  cases kind with
  | insert =>
    dsimp only
    rw [hstart, Fault.ok_bind, Fault.pure_eq_ok]
    simp only [old, new, List.append_assoc]
  | erase =>
    dsimp only
    rw [hstop, Fault.ok_bind, Fault.pure_eq_ok]
    simp only [old, new, List.append_assoc]

/-- Where a pass puts a position. -/
def value (a b : Text) (hunks : List Hunk) (i : ℕ) : ℕ := b.length + land hunks (i - a.length)

/-- Taking in a hunk that concerns a position changes nothing for this position and those
behind it. -/
theorem value_tail (hi : h.Concerns (i - a.length)) :
    value (a ++ h.old) (b ++ h.new) hunks i = value a b (h :: hunks) i := by
  obtain ⟨gap, kind, content, filled⟩ := h
  unfold value
  cases kind with
  | insert =>
    replace hi : gap.length ≤ i - a.length := hi
    simp only [old, new, land, List.length_append]
    rw [if_neg (by omega), Nat.sub_sub]
    omega
  | erase =>
    replace hi : gap.length < i - a.length := hi
    simp only [old, new, land, List.length_append]
    rw [if_neg (by omega), Nat.sub_sub]
    omega

theorem Concerns.mono {k k' : ℕ} (hk : h.Concerns k) (hle : k ≤ k') : h.Concerns k' := by
  obtain ⟨gap, kind, content, filled⟩ := h
  cases kind with
  | insert => exact le_trans (show gap.length ≤ k from hk) hle
  | erase => exact lt_of_lt_of_le (show gap.length < k from hk) hle

/-- A hunk that does not concern a position lies behind it. -/
theorem land_of_not_concerns {k : ℕ} (hk : ¬h.Concerns k) :
    land (h :: hunks) k = k ∧ k ≤ h.gap.length := by
  obtain ⟨gap, kind, content, filled⟩ := h
  cases kind with
  | insert =>
    replace hk : ¬gap.length ≤ k := hk
    exact ⟨if_pos (by omega), by dsimp only; omega⟩
  | erase =>
    replace hk : ¬gap.length < k := hk
    exact ⟨if_pos (by omega), by dsimp only; omega⟩

/-- **How far a pass advances for a position.** To the hunk in front of which it lies. For this
position and all behind it the values stay what they were. -/
theorem advance_eq (direction : Direction) (hw : Within a b hunks rest)
    (hi : i ≤ (a ++ (oldText hunks ++ rest)).length) :
    ∃ a' b' hunks', Within a' b' hunks' rest ∧
      a' ++ oldText hunks' = a ++ oldText hunks ∧ b' ++ newText hunks' = b ++ newText hunks ∧
      Pass.advance direction ⟨b.extent, a.extent⟩ ((a ++ (oldText hunks ++ rest)).position i)
        (pass direction a b hunks).pending = .ok (pass direction a' b' hunks') ∧
      (∀ j, i ≤ j → value a' b' hunks' j = value a b hunks j) ∧
      land hunks' (i - a'.length) = i - a'.length ∧
      ∀ h ∈ hunks'.head?, i - a'.length ≤ h.gap.length := by
  induction hunks generalizing a b with
  | nil =>
    refine ⟨a, b, [], hw, rfl, rfl, ?_, fun _ _ => rfl, rfl, by simp⟩
    cases direction <;> rfl
  | cons h hunks ih =>
    obtain ⟨change, hpending, hview⟩ := @pass_cons rest direction a b h hunks
    have hconcerns := concerns_viewed hw hi
    have hassoc : a ++ (oldText (h :: hunks) ++ rest) = a ++ h.old ++ (oldText hunks ++ rest) := by
      simp
    rw [hpending, Pass.advance]
    rw [show Pass.view direction ⟨b.extent, a.extent⟩ change = _ from hview hw, Fault.ok_bind,
      hconcerns, Fault.ok_bind]
    by_cases hk : h.Concerns (i - a.length)
    · -- the hunk is taken in, which changes no value from `i` on
      rw [hassoc] at hi ⊢
      obtain ⟨a', b', hunks', hw', ha', hb', hadv, hval, hland, hgap⟩ := ih hw.tail hi
      refine ⟨a', b', hunks', hw', by simpa using ha', by simpa using hb', ?_, ?_, hland, hgap⟩
      · rw [if_pos (by simpa using hk), feed_viewed hw, Fault.ok_bind]
        exact hadv
      · intro j hj
        rw [hval j hj, value_tail (hk.mono (Nat.sub_le_sub_right hj _))]
    · -- the pass stays in front of it
      have hland : land (h :: hunks) (i - a.length) = i - a.length := (land_of_not_concerns hk).1
      have hgap : i - a.length ≤ h.gap.length := (@land_of_not_concerns _ hunks _ hk).2
      refine ⟨a, b, h :: hunks, hw, rfl, rfl, ?_, fun _ _ => rfl, hland, ?_⟩
      · rw [if_neg (by simpa using hk), ← hpending]
        rfl
      · intro h' hh
        rwa [← Option.mem_some.1 hh]

/-- Moving a position. -/
theorem move_eq (direction : Direction) (hw : Within a b hunks rest)
    (hi : i ≤ (a ++ oldText hunks ++ rest).length) :
    ∃ a' b' hunks', Within a' b' hunks' rest ∧
      a' ++ oldText hunks' = a ++ oldText hunks ∧ b' ++ newText hunks' = b ++ newText hunks ∧
      (pass direction a b hunks).move direction ((a ++ oldText hunks ++ rest).position i) =
        .ok ((b ++ newText hunks ++ rest).position (value a b hunks i),
          pass direction a' b' hunks') ∧
      ∀ j, i ≤ j → value a' b' hunks' j = value a b hunks j := by
  rw [List.append_assoc] at hi ⊢
  obtain ⟨a', b', hunks', hw', ha', hb', hadv, hval, hland, hgap⟩ :=
    advance_eq direction hw hi
  refine ⟨a', b', hunks', hw', ha', hb', ?_, hval⟩
  have hold : a ++ (oldText hunks ++ rest) = a' ++ (oldText hunks' ++ rest) := by
    rw [← List.append_assoc, ← List.append_assoc, ha']
  -- up to the next hunk the new text is the text that the pass has brought about so far
  have hnew : (b' ++ (oldText hunks' ++ rest)).position (b'.length + (i - a'.length)) =
      (b' ++ newText hunks' ++ rest).position (b'.length + (i - a'.length)) := by
    cases hunks' with
    | nil => simp
    | cons h hunks' =>
      have hk : b'.length + (i - a'.length) ≤ (b' ++ h.gap).length := by
        have := hgap h rfl
        rw [List.length_append]; omega
      have ho : ∃ l, b' ++ (oldText (h :: hunks') ++ rest) = b' ++ h.gap ++ l := by
        cases hkind : h.kind <;> simp [old, hkind]
      have hn : ∃ l, b' ++ newText (h :: hunks') ++ rest = b' ++ h.gap ++ l := by
        cases hkind : h.kind <;> simp [new, hkind]
      obtain ⟨l, hl⟩ := ho
      obtain ⟨l', hl'⟩ := hn
      rw [hl, hl', Text.position_append_left _ hk, Text.position_append_left _ hk]
  obtain ⟨hpa, hpb⟩ := hw'.passed
  unfold Pass.move
  rw [show (pass direction a b hunks).tracker = ⟨b.extent, a.extent⟩ from rfl, hadv, Fault.ok_bind,
    hold, show (pass direction a' b' hunks').tracker = ⟨b'.extent, a'.extent⟩ from rfl,
    Tracker.landing_position hpa hpb hw'.ahead (hold ▸ hi), Fault.ok_bind, hnew, hb',
    ← hval i le_rfl, value, hland]
  rfl

end Hunk

/-! ## Sorted collections -/

namespace Tracked

variable {ρ : Type} [Tracked ρ]

/-- The ends of all elements of a collection in turn. -/
def ends (ranges : List ρ) : List Coord := ranges.flatMap fun r => [first r, last r]

/-- An element with both ends moved. -/
def mapEnds (f : Coord → Coord) (r : ρ) : ρ := withEnds r (f (first r)) (f (last r))

@[simp] theorem ends_nil : ends ([] : List ρ) = [] := rfl

@[simp] theorem ends_cons (r : ρ) (ranges : List ρ) :
    ends (r :: ranges) = first r :: last r :: ends ranges := rfl

/-- The ends are positions of a text, in order. -/
structure InOrder (t : Text) (ranges : List ρ) : Prop where
  valid : ∀ c ∈ ends ranges, t.Valid c
  sorted : (ends ranges).Pairwise (· ≤ ·)

theorem InOrder.nil (t : Text) : InOrder t ([] : List ρ) := ⟨by simp, .nil⟩

/-- An element in front of all others. -/
theorem InOrder.cons {t : Text} {r : ρ} {ranges : List ρ} (hfirst : t.Valid (first r))
    (hlast : t.Valid (last r)) (hle : first r ≤ last r) (hfront : ∀ c ∈ ends ranges, last r ≤ c)
    (h : InOrder t ranges) : InOrder t (r :: ranges) := by
  constructor
  · rw [ends_cons]
    exact List.forall_mem_cons.2 ⟨hfirst, List.forall_mem_cons.2 ⟨hlast, h.valid⟩⟩
  · have hbehind : ∀ c ∈ last r :: ends ranges, first r ≤ c :=
      List.forall_mem_cons.2 ⟨hle, fun c hc => hle.trans (hfront c hc)⟩
    rw [ends_cons]
    exact List.pairwise_cons.2 ⟨hbehind, List.pairwise_cons.2 ⟨hfront, h.sorted⟩⟩

end Tracked

open Hunk in
/-- **A sorted collection.** Every end is moved as if it had a pass of its own, which would start
with all hunks ahead. -/
theorem Pass.moveAll_eq {ρ : Type} [Tracked ρ] (direction : Direction) {a b rest s t : Text}
    {hunks : List Hunk} {f : ℕ → ℕ} {image : Coord → Coord} {k : ℕ} {ranges : List ρ}
    (hw : Within a b hunks rest) (hs : a ++ oldText hunks ++ rest = s)
    (ht : b ++ newText hunks ++ rest = t)
    (himage : ∀ i ≤ s.length, image (s.position i) = t.position (f i))
    (hf : ∀ i, k ≤ i → value a b hunks i = f i)
    (hk : ∀ i ≤ s.length, s.position i ∈ Tracked.ends ranges → k ≤ i)
    (hr : Tracked.InOrder s ranges) :
    (pass direction a b hunks).moveAll direction ranges =
      .ok (ranges.map (Tracked.mapEnds image)) := by
  -- the pass has got somewhere, but for all ends still to come it is as good as a new one
  induction ranges generalizing a b hunks k with
  | nil => rfl
  | cons r ranges ih =>
    obtain ⟨hvalid, hsorted⟩ := hr
    simp only [Tracked.ends_cons, List.forall_mem_cons] at hvalid
    obtain ⟨hfirst, hlast, hvalid⟩ := hvalid
    obtain ⟨i, hi, hfi⟩ := Text.valid_iff.1 hfirst
    obtain ⟨j, hj, hlj⟩ := Text.valid_iff.1 hlast
    rw [Tracked.ends_cons, List.pairwise_cons, List.pairwise_cons] at hsorted
    obtain ⟨hle, hle', hsorted⟩ := hsorted
    have hki : k ≤ i := by
      refine hk i hi ?_
      rw [← hfi]
      exact List.mem_cons_self
    have hij : i ≤ j := by
      rw [← Text.position_le_iff hi hj, ← hfi, ← hlj]
      exact hle _ List.mem_cons_self
    obtain ⟨a₁, b₁, hunks₁, hw₁, ha₁, hb₁, hmove₁, hval₁⟩ :=
      move_eq direction hw (hs ▸ hi)
    obtain ⟨a₂, b₂, hunks₂, hw₂, ha₂, hb₂, hmove₂, hval₂⟩ :=
      move_eq direction hw₁ (i := j) (by rw [ha₁, hs]; exact hj)
    have hvalue : ∀ i', j ≤ i' → value a₂ b₂ hunks₂ i' = f i' := by
      intro i' hi'
      rw [hval₂ i' hi', hval₁ i' (hij.trans hi'), hf i' (hki.trans (hij.trans hi'))]
    have hbehind : ∀ i' ≤ s.length, s.position i' ∈ Tracked.ends ranges → j ≤ i' := by
      intro i' hi' hmem
      rw [← Text.position_le_iff hj hi', ← hlj]
      exact hle' _ hmem
    have hrest := ih hw₂ (by rw [ha₂, ha₁, hs]) (by rw [hb₂, hb₁, ht]) hvalue hbehind
      ⟨hvalid, hsorted⟩
    rw [hs, ht, hf i hki] at hmove₁
    rw [ha₁, hb₁, hs, ht, hval₁ j hij, hf j (hki.trans hij)] at hmove₂
    rw [Pass.moveAll, hfi, hmove₁, Fault.ok_bind]
    dsimp only
    rw [hlj, hmove₂, Fault.ok_bind]
    dsimp only
    rw [hrest, Fault.ok_bind, List.map_cons, Tracked.mapEnds, hfi, hlj, himage i hi, himage j hj]
    rfl

end Caret
