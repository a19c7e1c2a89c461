import Caret.Proofs.Extent
import Caret.Change

/-!
# Texts along the change log

What a logged change says about the texts around it, and where the positions of the text before it
go.

* `Change.Takes`: a change, the text before it and the text after it.
* `Trail`: the texts from one moment to a later one, change by change.
* `Change.Takes.exists_move`: across one change every position becomes a position, in order.
* `Trail.exists_across`: the same across any stretch of the log.
-/

namespace Caret

/-- **What a change does to a text.** An insert puts a text that is not empty between a beginning and
the rest, an erase takes such a text out. The coordinates of the change are the extents of that
beginning without and with the text put in or taken out. -/
inductive Change.Takes : Change → Text → Text → Prop
  | insert (before mid after : Text) (hmid : mid ≠ []) :
    Takes ⟨.insert, before.extent, (before ++ mid).extent⟩
      (before ++ after) (before ++ mid ++ after)
  | erase (before mid after : Text) (hmid : mid ≠ []) :
    Takes ⟨.erase, before.extent, (before ++ mid).extent⟩
      (before ++ mid ++ after) (before ++ after)

/-- Where a change ends in the text before it. -/
def Change.reach (change : Change) : Coord :=
  match change.kind with
  | .insert => change.start
  | .erase => change.stop

namespace Change.Takes

variable {change : Change} {s t : Text}

theorem start_lt_stop (h : change.Takes s t) : change.start < change.stop := by
  cases h with
  | insert before mid after hmid => exact Text.extent_lt_append before hmid
  | erase before mid after hmid => exact Text.extent_lt_append before hmid

theorem reach_le_stop (h : change.Takes s t) : change.reach ≤ change.stop := by
  unfold reach
  split
  · exact h.start_lt_stop.le
  · exact le_rfl

theorem reach_le_extent (h : change.Takes s t) : change.reach ≤ s.extent := by
  cases h with
  | insert before mid after hmid => exact Text.extent_le_append before after
  | erase before mid after hmid => exact Text.extent_le_append (before ++ mid) after

end Change.Takes

/-- The changes of a log lead from one text to another, and all texts on the way are within
capacity. -/
def Trail : Text → List Change → Text → Prop
  | s, [], t => s = t
  | s, change :: log, t => ∃ u, change.Takes s u ∧ u.size < Text.capacity ∧ Trail u log t

/-- A coordinate moved across every change of a log in turn. -/
def Coord.across (c : Coord) (log : List Change) : Except Fault Coord :=
  log.foldlM (fun c change => change.move c) c

theorem Coord.across_cons {c c' : Coord} {change : Change} {log : List Change}
    (h : change.move c = .ok c') : c.across (change :: log) = c'.across log := by
  unfold across
  rw [List.foldlM_cons, h, Fault.ok_bind]

theorem Coord.across_append {c c' : Coord} {log log' : List Change} (h : c.across log = .ok c') :
    c.across (log ++ log') = c'.across log' := by
  unfold across at *
  rw [List.foldlM_append, h, Fault.ok_bind]

theorem Coord.across_single (c : Coord) (change : Change) : c.across [change] = change.move c := by
  unfold across
  rw [List.foldlM_cons]
  cases change.move c <;> rfl

namespace Trail

variable {s t u : Text} {log log' : List Change}

theorem append_iff : Trail s (log ++ log') t ↔ ∃ u, Trail s log u ∧ Trail u log' t := by
  induction log generalizing s with
  | nil =>
    simp only [List.nil_append, Trail]
    exact ⟨fun h => ⟨s, rfl, h⟩, fun ⟨_, h1, h2⟩ => h1 ▸ h2⟩
  | cons change log ih =>
    simp only [List.cons_append, Trail, ih]
    constructor
    · rintro ⟨v, hv, hb, w, h1, h2⟩; exact ⟨w, ⟨v, hv, hb, h1⟩, h2⟩
    · rintro ⟨w, ⟨v, hv, hb, h1⟩, h2⟩; exact ⟨v, hv, hb, w, h1, h2⟩

theorem size_lt (h : Trail s log t) (hs : s.size < Text.capacity) : t.size < Text.capacity := by
  induction log generalizing s with
  | nil => exact h ▸ hs
  | cons change log ih => obtain ⟨u, -, hu, h⟩ := h; exact ih h hu

theorem exists_takes (h : Trail s log t) {change : Change} (hc : change ∈ log) :
    ∃ u v, change.Takes u v := by
  induction log generalizing s with
  | nil => simp at hc
  | cons c log ih =>
    obtain ⟨u, hu, -, h⟩ := h
    rcases List.mem_cons.1 hc with rfl | hc
    · exact ⟨s, u, hu⟩
    · exact ih h hc

theorem start_le_stop (h : Trail s log t) {change : Change} (hc : change ∈ log) :
    change.start ≤ change.stop := by
  obtain ⟨u, v, htakes⟩ := h.exists_takes hc
  exact htakes.start_lt_stop.le

end Trail

/-! ## Moving positions -/

namespace Text

theorem size_append_lt {s t : Text} (h : (s ++ t).size < capacity) :
    s.size < capacity ∧ t.size < capacity := by
  rw [size_append] at h; omega

/-- **Text that stays.** A position behind `a`, in text that comes to stand behind `b`, becomes the
position as many characters behind `b`. -/
theorem carry_position {a b q : Text} (ha : a.size < capacity) (hb : b.size < capacity)
    (hq : q.size < capacity) (k : ℕ) :
    ((a ++ q).position (a.length + k)).carry a.extent b.extent =
      .ok ((b ++ q).position (b.length + k)) := by
  rw [position_append_right, position_append_right]
  exact Coord.carry_add (extent_signed ha) (extent_signed hb)
    (Coord.Signed.add (extent_signed hb) (position_signed hq k))

/-- Across inserted text. -/
theorem move_insert {before mid after : Text}
    (h : (before ++ mid ++ after).size < capacity) {i : ℕ} (hi : i ≤ (before ++ after).length) :
    (⟨.insert, before.extent, (before ++ mid).extent⟩ : Change).move ((before ++ after).position i) =
      .ok ((before ++ mid ++ after).position
        (if i < before.length then i else i + mid.length)) := by
  obtain ⟨hbm, ha⟩ := size_append_lt h
  have hb := (size_append_lt hbm).1
  have hstart : before.extent = (before ++ after).position before.length :=
    (position_append before after).symm
  unfold Change.move Coord.acrossInsert
  dsimp only
  by_cases hc : i < before.length
  · rw [if_pos (by rw [hstart]; exact position_lt hc (by simp)), if_pos hc,
      position_append_left _ hc.le, List.append_assoc, position_append_left _ hc.le]
  · have hge : ¬(before ++ after).position i < before.extent := by
      rw [hstart, position_lt_iff hi (by simp)]; exact hc
    obtain ⟨k, rfl⟩ := Nat.exists_eq_add_of_le (Nat.le_of_not_lt hc)
    rw [if_neg hge, if_neg hc, carry_position hb hbm ha]
    rw [List.length_append, Nat.add_right_comm]

/-- Across erased text. -/
theorem move_erase {before mid after : Text}
    (h : (before ++ mid ++ after).size < capacity) {i : ℕ}
    (hi : i ≤ (before ++ mid ++ after).length) :
    (⟨.erase, before.extent, (before ++ mid).extent⟩ : Change).move
        ((before ++ mid ++ after).position i) =
      .ok ((before ++ after).position
        (if i < before.length then i else
          if i ≤ before.length + mid.length then before.length else i - mid.length)) := by
  obtain ⟨hbm, ha⟩ := size_append_lt h
  have hb := (size_append_lt hbm).1
  have hstart : before.extent = (before ++ mid ++ after).position before.length := by
    rw [List.append_assoc, position_append]
  have hstop : (before ++ mid).extent =
      (before ++ mid ++ after).position (before.length + mid.length) := by
    rw [← List.length_append, position_append]
  have hlen : before.length + mid.length ≤ (before ++ mid ++ after).length := by simp
  unfold Change.move Coord.acrossErase
  dsimp only
  by_cases hc : i < before.length
  · rw [if_pos (by rw [hstart]; exact position_lt hc (by omega)), if_pos hc,
      position_append_left _ hc.le, List.append_assoc, position_append_left _ hc.le]
  · have hge : ¬(before ++ mid ++ after).position i < before.extent := by
      rw [hstart, position_lt_iff hi (by omega)]; exact hc
    rw [if_neg hge, if_neg hc]
    by_cases hle : i ≤ before.length + mid.length
    · -- inside of the text taken out, its two ends included
      rw [if_pos (by rw [hstop, position_le_iff hi hlen]; exact hle), if_pos hle,
        position_append]
    · have hgt : ¬(before ++ mid ++ after).position i ≤ (before ++ mid).extent := by
        rw [hstop, position_le_iff hi hlen]; exact hle
      obtain ⟨k, rfl⟩ := Nat.exists_eq_add_of_le (Nat.le_of_not_le hle)
      rw [if_neg hgt, if_neg hle, ← List.length_append, carry_position hbm hb ha]
      congr 2
      rw [List.length_append]; omega

end Text

/-- **Across one change.** Every position of the text before becomes a position of the text after,
and positions keep their order. -/
theorem Change.Takes.exists_move {change : Change} {s t : Text} (h : change.Takes s t)
    (hs : s.size < Text.capacity) (ht : t.size < Text.capacity) :
    ∃ f : ℕ → ℕ, Monotone f ∧ (∀ i ≤ s.length, f i ≤ t.length) ∧
      ∀ i ≤ s.length, change.move (s.position i) = .ok (t.position (f i)) := by
  cases h with
  | insert before mid after hmid =>
    refine ⟨_, ?_, ?_, fun i hi => Text.move_insert ht hi⟩
    · intro i j hij; dsimp only; split <;> split <;> omega
    · intro i hi
      simp only [List.length_append] at hi ⊢
      split <;> omega
  | erase before mid after hmid =>
    refine ⟨_, ?_, ?_, fun i hi => Text.move_erase hs hi⟩
    · intro i j hij; dsimp only; split <;> split <;> (try split) <;> (try split) <;> omega
    · intro i hi
      simp only [List.length_append] at hi ⊢
      split
      · omega
      · split <;> omega

/-- **Across a stretch of the log.** As across one change. -/
theorem Trail.exists_across {s t : Text} {log : List Change} (h : Trail s log t)
    (hs : s.size < Text.capacity) :
    ∃ f : ℕ → ℕ, Monotone f ∧ (∀ i ≤ s.length, f i ≤ t.length) ∧
      ∀ i ≤ s.length, (s.position i).across log = .ok (t.position (f i)) := by
  induction log generalizing s with
  | nil =>
    cases h
    exact ⟨id, monotone_id, fun i hi => hi, fun i _ => rfl⟩
  | cons change log ih =>
    obtain ⟨u, hu, hub, h⟩ := h
    obtain ⟨f, hf, hfb, hfm⟩ := hu.exists_move hs hub
    obtain ⟨g, hg, hgb, hgm⟩ := ih h hub
    refine ⟨g ∘ f, hg.comp hf, fun i hi => hgb _ (hfb i hi), ?_⟩
    intro i hi
    rw [Coord.across_cons (hfm i hi), hgm _ (hfb i hi)]
    rfl

end Caret
