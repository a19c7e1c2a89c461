import Mathlib
import Caret.Proofs.Ancestry
import Caret.Proofs.Description

/-!
# What merging puts together

Merging cuts a list into parts that follow one another and puts the hull of each part in its place. The
hull keeps all but its ends from the first selection of its part. Nothing is covered that was not
covered before, and between two hulls there is a gap that the test does not bridge.

* `Selection.Hulls`: a selection is the hull of a part.
* `Cover.exists_parts`: joining cuts a list into parts, whatever the test is.
* `Selections.MadeOf`: selections made of the parts of a list, the main one of the part with the old
  main one.
* `Selections.merging_covers`: sorting and merging, and merging at the positions of a text.
-/

namespace Caret

namespace Selection

/-- **The hull of a part.** It starts where the first of them starts and ends where the last of them
ends, and has all else from the selection in front. -/
structure Hulls (s : Selection) (part : List Selection) : Prop where
  low_le : ∀ r ∈ part, s.low ≤ r.low
  low_mem : ∃ r ∈ part, r.low = s.low
  le_high : ∀ r ∈ part, r.high ≤ s.high
  high_mem : ∃ r ∈ part, r.high = s.high
  first : ∃ r, part.head? = some r ∧ s.isForward = r.isForward ∧ s.target = r.target ∧
    s.captures = r.captures

/-- The coordinate is one of those from the start through the end of a selection. -/
def Meets (s : Selection) (c : Coord) : Prop := s.low ≤ c ∧ c ≤ s.high

/-- An entry comes before another one in the stable order: by start, then by end, then by its place. -/
def Precedes (a b : Selection × ℕ) : Prop := a.1.le b.1 = true ∧ (b.1.le a.1 = true → a.2 < b.2)

variable {s r : Selection} {part : List Selection} {c low high : Coord}

theorem isForward_withEnds (h : s.low ≤ s.high) (hl : low ≤ s.low) (hh : s.high ≤ high) :
    (s.withEnds low high).isForward = s.isForward := by
  have hle := hl.trans (h.trans hh)
  rw [Bool.eq_iff_iff, isForward_iff, isForward_iff]
  by_cases hf : s.anchor ≤ s.cursor
  · rw [withEnds_of_forward hf]
    exact iff_of_true hle hf
  · rw [withEnds_of_backward hf]
    refine iff_of_false (not_le.2 ?_) hf
    -- a backward selection is not a single coordinate, and its hull neither
    have hlt := not_le.1 hf
    exact (hl.trans (min_le_right _ _)).trans_lt (hlt.trans_le ((le_max_left _ _).trans hh))

theorem isForward_cover (s r : Selection) : (s.cover r).isForward = s.isForward :=
  isForward_withEnds s.low_le_high (min_le_left _ _) (le_max_left _ _)

theorem rest_withEnds (s : Selection) (low high : Coord) :
    (s.withEnds low high).target = s.target ∧ (s.withEnds low high).captures = s.captures := by
  unfold withEnds
  split <;> exact ⟨rfl, rfl⟩

theorem hulls_self (s : Selection) : s.Hulls [s] where
  low_le := List.forall_mem_singleton.2 le_rfl
  low_mem := ⟨s, List.mem_singleton_self s, rfl⟩
  le_high := List.forall_mem_singleton.2 le_rfl
  high_mem := ⟨s, List.mem_singleton_self s, rfl⟩
  first := ⟨s, rfl, rfl, rfl, rfl⟩

/-- The hull takes in one more. -/
theorem Hulls.concat (h : s.Hulls part) (r : Selection) : (s.cover r).Hulls (part ++ [r]) where
  low_le := by
    rw [cover_low]
    refine List.forall_mem_append.2 ⟨fun r' hr' => ?_, List.forall_mem_singleton.2 (min_le_right _ _)⟩
    exact (min_le_left _ _).trans (h.low_le r' hr')
  low_mem := by
    rw [cover_low]
    rcases min_choice s.low r.low with hmin | hmin <;> rw [hmin]
    · exact h.low_mem.imp fun _ hr' => ⟨List.mem_append_left _ hr'.1, hr'.2⟩
    · exact ⟨r, List.mem_append_right _ (List.mem_singleton_self r), rfl⟩
  le_high := by
    rw [cover_high]
    refine List.forall_mem_append.2 ⟨fun r' hr' => ?_, List.forall_mem_singleton.2 (le_max_right _ _)⟩
    exact (h.le_high r' hr').trans (le_max_left _ _)
  high_mem := by
    rw [cover_high]
    rcases max_choice s.high r.high with hmax | hmax <;> rw [hmax]
    · exact h.high_mem.imp fun _ hr' => ⟨List.mem_append_left _ hr'.1, hr'.2⟩
    · exact ⟨r, List.mem_append_right _ (List.mem_singleton_self r), rfl⟩
  first := by
    obtain ⟨r', hhead, hforward, htarget, hcaptures⟩ := h.first
    obtain ⟨htarget', hcaptures'⟩ := rest_withEnds s (min s.low r.low) (max s.high r.high)
    refine ⟨r', ?_, (isForward_cover s r).trans hforward, htarget'.trans htarget,
      hcaptures'.trans hcaptures⟩
    rw [List.head?_append, hhead]
    rfl

theorem Hulls.meets (h : s.Hulls part) (hr : r ∈ part) (hc : r.Meets c) : s.Meets c :=
  ⟨(h.low_le r hr).trans hc.1, hc.2.trans (h.le_high r hr)⟩

end Selection

/-! ## The stable order -/

/-- Of two different elements of a list without repetition only one comes first. -/
theorem not_pair_sublist {α : Type} {l : List α} {a b : α} (h : l.Nodup) (hab : [a, b].Sublist l) :
    ¬[b, a].Sublist l := by
  intro hba
  obtain ⟨before, behind, rfl, ha, hb⟩ := List.cons_sublist_iff.1 hab
  replace hb := List.singleton_sublist.1 hb
  obtain ⟨l₁, l₂, heq, h₁, h₂⟩ := List.sublist_append_iff.1 hba
  have hdisjoint := List.disjoint_of_nodup_append h
  cases l₁ with
  | nil =>
    rw [List.nil_append] at heq
    exact hdisjoint ha (h₂.subset (heq ▸ List.mem_cons_of_mem _ List.mem_cons_self))
  | cons first l₁ =>
    obtain rfl := List.head_eq_of_cons_eq heq
    exact hdisjoint (h₁.subset List.mem_cons_self) hb

/-- **Sorting keeps the order of entries that are equal to it.** -/
theorem precedes_mergeSort (items : List Selection) :
    (items.zipIdx.mergeSort fun a b => a.1.le b.1).Pairwise Selection.Precedes := by
  have htrans (a b c : Selection × ℕ) : a.1.le b.1 = true → b.1.le c.1 = true → a.1.le c.1 = true :=
    Selection.le_of_le_of_le
  have htotal (a b : Selection × ℕ) : (a.1.le b.1 || b.1.le a.1) = true := a.1.le_or_le b.1
  have hplaces : items.zipIdx.Pairwise fun a b => a.2 < b.2 := by
    have hrange : (items.zipIdx.map Prod.snd).Pairwise (· < ·) := by
      rw [List.zipIdx_map_snd]
      exact List.pairwise_lt_range'
    exact List.pairwise_map.1 hrange
  have hnodup : items.zipIdx.Nodup := hplaces.imp fun hlt heq => absurd (heq ▸ hlt) (lt_irrefl _)
  have hperm := List.mergeSort_perm items.zipIdx fun a b => a.1.le b.1
  have hsorted := List.pairwise_mergeSort htrans htotal items.zipIdx
  refine List.pairwise_iff_forall_sublist.2 fun {a b} hab => ?_
  refine ⟨List.pairwise_iff_forall_sublist.1 hsorted hab, fun hba => ?_⟩
  -- the two stand in the list in one order or the other, and sorting would have kept the other
  have hrel := List.pairwise_iff_forall_sublist (R := fun a b => [a, b].Sublist items.zipIdx).2 id
  have hmem : ∀ x ∈ [a, b], x ∈ items.zipIdx := fun x hx => hperm.mem_iff.1 (hab.subset hx)
  rcases eq_or_rel_of_pairwise hrel (hmem a List.mem_cons_self)
    (hmem b (List.mem_cons_of_mem _ List.mem_cons_self)) with rfl | hsub | hsub
  · exact absurd rfl (List.pairwise_iff_forall_sublist.1 (hperm.nodup_iff.2 hnodup) hab)
  · exact List.pairwise_iff_forall_sublist.1 hplaces hsub
  · exact absurd (List.pair_sublist_mergeSort htrans htotal hba hsub)
      (not_pair_sublist (hperm.nodup_iff.2 hnodup) hab)

/-! ## Parts -/

theorem exists_rel_of_mem_right {α β : Type} {R : α → β → Prop} {l : List α} {l' : List β} {b : β}
    (h : List.Forall₂ R l l') (hb : b ∈ l') : ∃ a ∈ l, R a b := by
  induction h with
  | nil => cases hb
  | @cons a b' l l' hR _ ih =>
    rcases List.mem_cons.1 hb with rfl | hb
    · exact ⟨a, List.mem_cons_self, hR⟩
    · exact (ih hb).imp fun _ h => ⟨List.mem_cons_of_mem _ h.1, h.2⟩

theorem exists_rel_of_mem_left {α β : Type} {R : α → β → Prop} {l : List α} {l' : List β} {a : α}
    (h : List.Forall₂ R l l') (ha : a ∈ l) : ∃ b ∈ l', R a b :=
  exists_rel_of_mem_right (R := flip R) h.flip ha

namespace Cover

variable {α : Type} {f : α → Selection} {test : Selection → Selection → Except Fault Bool}
  {covers : List Cover} {c : Cover} {taken rest : List α}

/-- **Joining cuts a list into parts.** What holds of an entry by itself, and still holds when one more
is taken in from further behind, holds of every cover and the part that went into it. -/
theorem exists_parts {Q : Selection → List α → Prop} (hone : ∀ a, Q (f a) [a])
    (htake : ∀ s part a, Q s part → s.low ≤ (f a).low → test s (f a) = .ok true →
      Q (s.cover (f a)) (part ++ [a]))
    (hc : Q c.selection taken) (hsize : c.size = taken.length)
    (hs : (c.selection :: rest.map f).Pairwise fun a b => a.low ≤ b.low)
    (hj : join test c (rest.map f) = .ok covers) :
    ∃ parts : List (List α), parts.flatten = taken ++ rest ∧
      List.Forall₂ (fun e part => Q e.selection part ∧ e.size = part.length) covers parts := by
  -- `taken` is the part that is open
  induction rest generalizing c taken covers with
  | nil =>
    cases hj
    exact ⟨[taken], by simp, .cons ⟨hc, hsize⟩ .nil⟩
  | cons a rest ih =>
    obtain ⟨hle, hs'⟩ := List.pairwise_cons.1 hs
    obtain ⟨hfirst, hrest⟩ := List.forall_mem_cons.1 hle
    rw [List.map_cons, join, Fault.bind_eq_ok] at hj
    obtain ⟨b, htest, hj⟩ := hj
    cases b with
    | true =>
      rw [if_pos rfl] at hj
      have hlow : (c.selection.cover (f a)).low = c.selection.low := by
        rw [Selection.cover_low, min_eq_left hfirst]
      obtain ⟨parts, hflat, hparts⟩ :=
        ih (c := ⟨c.selection.cover (f a), c.size + 1⟩)
          (htake _ _ _ hc hfirst htest) (by simp [hsize])
          (List.pairwise_cons.2 ⟨fun s hs => hlow ▸ hrest s hs, (List.pairwise_cons.1 hs').2⟩) hj
      exact ⟨parts, by simpa using hflat, hparts⟩
    | false =>
      rw [if_neg (by simp), Fault.bind_eq_ok] at hj
      obtain ⟨covers', hj, hcovers⟩ := hj
      cases hcovers
      obtain ⟨parts, hflat, hparts⟩ := ih (c := ⟨f a, 1⟩) (hone a) rfl hs' hj
      exact ⟨taken :: parts, by simp [hflat], .cons ⟨hc, hsize⟩ hparts⟩

/-- **Neighbours that were not joined** do not meet the test, as far as it looks at where the second one
starts. -/
theorem isChain_join {R : Selection → Coord → Prop}
    (hgap : ∀ a b, test a b = .ok false → R a b.low) {items : List Selection}
    (hs : (c.selection :: items).Pairwise fun a b => a.low ≤ b.low)
    (hj : join test c items = .ok covers) :
    (covers.map selection).IsChain (fun a b => R a b.low) ∧
      ∃ e, covers.head? = some e ∧ e.selection.low = c.selection.low := by
  induction items generalizing c covers with
  | nil =>
    cases hj
    exact ⟨.singleton _, c, rfl, rfl⟩
  | cons s items ih =>
    obtain ⟨hle, hs'⟩ := List.pairwise_cons.1 hs
    obtain ⟨hfirst, hrest⟩ := List.forall_mem_cons.1 hle
    rw [join, Fault.bind_eq_ok] at hj
    obtain ⟨b, htest, hj⟩ := hj
    cases b with
    | true =>
      rw [if_pos rfl] at hj
      have hlow : (c.selection.cover s).low = c.selection.low := by
        rw [Selection.cover_low, min_eq_left hfirst]
      obtain ⟨hchain, e, he, helow⟩ := ih (c := ⟨c.selection.cover s, c.size + 1⟩)
        (List.pairwise_cons.2 ⟨fun s hs => hlow ▸ hrest s hs, (List.pairwise_cons.1 hs').2⟩) hj
      exact ⟨hchain, e, he, helow.trans hlow⟩
    | false =>
      rw [if_neg (by simp), Fault.bind_eq_ok] at hj
      obtain ⟨covers', hj, hcovers⟩ := hj
      cases hcovers
      obtain ⟨hchain, e, he, helow⟩ := ih (c := ⟨s, 1⟩) hs' hj
      refine ⟨?_, c, rfl, rfl⟩
      cases covers' with
      | nil => cases he
      | cons e' covers' =>
        cases he
        refine List.isChain_cons_cons.2 ⟨?_, hchain⟩
        rw [helow]
        exact hgap _ _ htest

/-- Where no neighbours meet the test nothing is joined. -/
theorem join_of_isChain {items : List Selection}
    (h : (c.selection :: items).IsChain fun a b => test a b = .ok false) :
    join test c items = .ok (c :: items.map fun s => ⟨s, 1⟩) := by
  induction items generalizing c with
  | nil => rfl
  | cons s items ih =>
    obtain ⟨hfirst, hrest⟩ := List.isChain_cons_cons.1 h
    rw [join, hfirst, Fault.ok_bind, if_neg (by simp), ih (c := ⟨s, 1⟩) hrest]
    rfl

theorem indexOf_single (items : List Selection) {i : ℕ} (h : i ≤ items.length) :
    indexOf (items.map fun s => ⟨s, 1⟩) i = i := by
  induction items generalizing i with
  | nil => exact (Nat.le_zero.1 h).symm
  | cons s items ih =>
    cases i with
    | zero => rfl
    | succ i =>
      rw [List.map_cons, indexOf, if_neg (by simp), Nat.add_sub_cancel, ih (Nat.le_of_succ_le_succ h)]

/-- An entry is in the part of the cover that took it in. -/
theorem exists_of_getElem?_flatten {parts : List (List α)} {i : ℕ} {a : α}
    (h : List.Forall₂ (fun (e : Cover) part => e.size = part.length) covers parts)
    (ha : parts.flatten[i]? = some a) : ∃ part, parts[indexOf covers i]? = some part ∧ a ∈ part := by
  induction h generalizing i with
  | nil => cases ha
  | @cons e part covers parts hsize _ ih =>
    rw [List.flatten_cons] at ha
    rw [indexOf, hsize]
    split
    · rw [List.getElem?_append_left ‹_›] at ha
      exact ⟨part, rfl, List.mem_of_getElem? ha⟩
    · rw [List.getElem?_append_right (Nat.not_lt.1 ‹_›)] at ha
      exact ih ha

end Cover

namespace Span

variable {covers spans : List Span} {c : Coord}

/-- **Covers reach as far as the spans do**, and no further. -/
theorem Covers.exists_iff (h : Covers covers spans) (ho : ∀ s ∈ spans, s.Ordered) :
    (∃ e ∈ covers, e.start ≤ c ∧ c ≤ e.stop) ↔ ∃ s ∈ spans, s.start ≤ c ∧ c ≤ s.stop := by
  constructor
  · rintro ⟨e, he, hstart, hstop⟩
    rcases hstart.eq_or_lt with heq | hlt
    · obtain ⟨s, hs, hs'⟩ := h.start_mem e he
      exact ⟨s, hs, (hs'.trans heq).le, heq ▸ hs' ▸ ho s hs⟩
    · -- cut the cover in front of `c`
      obtain ⟨s, hs, hbefore, hbehind⟩ :=
        h.joined e he (· < c) (fun _ _ hab hb => hab.trans_lt hb) hlt (not_lt.2 hstop)
      exact ⟨s, hs, hbefore.le, not_lt.1 hbehind⟩
  · rintro ⟨s, hs, hstart, hstop⟩
    obtain ⟨e, he, hin⟩ := h.inside s hs
    exact ⟨e, he, hin.1.trans hstart, hstop.trans hin.2⟩

/-- Single coordinates are covered by single coordinates. -/
theorem Covers.start_eq_stop (h : Covers covers spans) (hpoint : ∀ s ∈ spans, s.start = s.stop) :
    ∀ e ∈ covers, e.start = e.stop := by
  intro e he
  by_contra hne
  have hlt := lt_of_le_of_ne (h.ordered e he) hne
  -- a cut right behind the start of the cover goes through one of them
  obtain ⟨s, hs, hbefore, hbehind⟩ :=
    h.joined e he (· ≤ e.start) (fun _ _ hab hb => hab.trans hb) le_rfl (not_le.2 hlt)
  exact hbehind (hpoint s hs ▸ hbefore)

end Span

/-! ## Groups -/

namespace Selections

/-- One of the selections meets the coordinate. -/
def Touches (g : Selections) (c : Coord) : Prop := ∃ s ∈ g.items, s.Meets c

/-- **Selections made of parts.** Each is the hull of its part, and the main one is that of the part
with the entry that was the main one. -/
structure MadeOf (g : Selections) (main : ℕ) (parts : List (List (Selection × ℕ))) : Prop where
  hulls : List.Forall₂ (fun s part => s.Hulls (part.map Prod.fst)) g.items parts
  main : ∃ part s, parts[g.main]? = some part ∧ (s, main) ∈ part

variable {g g' : Selections} {t : Text} {c : Coord} {main : ℕ} {parts : List (List (Selection × ℕ))}

theorem MadeOf.main_lt (h : g.MadeOf main parts) : g.main < g.items.length := by
  obtain ⟨part, -, hpart, -⟩ := h.main
  rw [h.hulls.length_eq]
  exact (List.getElem?_eq_some_iff.1 hpart).1

/-- **Merging by a test** puts parts together, and what holds of every cover and its part along the
way. -/
theorem exists_parts {test : Selection → Selection → Except Fault Bool}
    {Q : Selection → List (Selection × ℕ) → Prop} {entries : List (Selection × ℕ)}
    {entry : Selection × ℕ} (hone : ∀ a, Q a.1 [a])
    (htake : ∀ s part a, Q s part → s.low ≤ a.1.low → test s a.1 = .ok true →
      Q (s.cover a.1) (part ++ [a]))
    (hs : g.items.Pairwise fun a b => a.low ≤ b.low) (hitems : g.items = entries.map Prod.fst)
    (hentry : entries[g.main]? = some entry) (hg : g.mergeBy test = .ok g') :
    ∃ parts, parts.flatten = entries ∧ List.Forall₂ Q g'.items parts ∧
      ∃ part, parts[g'.main]? = some part ∧ entry ∈ part := by
  unfold mergeBy at hg
  rw [Fault.bind_eq_ok] at hg
  obtain ⟨covers, hcovers, hg⟩ := hg
  cases hg
  cases entries with
  | nil => cases hentry
  | cons a entries =>
    rw [hitems] at hcovers hs
    obtain ⟨parts, hflat, hparts⟩ := Cover.exists_parts (c := ⟨a.1, 1⟩) hone htake (hone a) rfl hs hcovers
    rw [List.singleton_append] at hflat
    refine ⟨parts, hflat, List.forall₂_map_left_iff.2 (hparts.imp fun _ _ h => h.1), ?_⟩
    rw [← hflat] at hentry
    exact Cover.exists_of_getElem?_flatten (hparts.imp fun _ _ h => h.2) hentry

/-- **Neighbours are not merged** where the test fails. -/
theorem isChain_mergeBy {test : Selection → Selection → Except Fault Bool} {R : Selection → Coord → Prop}
    (hgap : ∀ a b, test a b = .ok false → R a b.low) (hs : g.items.Pairwise fun a b => a.low ≤ b.low)
    (hg : g.mergeBy test = .ok g') : g'.items.IsChain fun a b => R a b.low := by
  unfold mergeBy at hg
  rw [Fault.bind_eq_ok] at hg
  obtain ⟨covers, hcovers, hg⟩ := hg
  cases hg
  cases hitems : g.items with
  | nil =>
    rw [hitems] at hcovers
    cases hcovers
    exact .nil
  | cons s items =>
    rw [hitems] at hcovers hs
    exact (Cover.isChain_join (c := ⟨s, 1⟩) hgap hs hcovers).1

/-- **Where the test fails** for all neighbours nothing is merged. -/
theorem mergeBy_eq_self {test : Selection → Selection → Except Fault Bool}
    (h : g.items.IsChain fun a b => test a b = .ok false) (hmain : g.main < g.items.length) :
    g.mergeBy test = .ok g := by
  obtain ⟨items, main⟩ := g
  cases items with
  | nil => exact absurd hmain (Nat.not_lt_zero main)
  | cons s items =>
    have hjoin := Cover.join_of_isChain (c := ⟨s, 1⟩) h
    have hindex := Cover.indexOf_single (s :: items) hmain.le
    have hitems : (items.map fun s => (⟨s, 1⟩ : Cover)).map Cover.selection = items := by
      rw [List.map_map]
      exact List.map_id items
    rw [List.map_cons] at hindex
    unfold mergeBy
    rw [Cover.joinAll, hjoin, Fault.ok_bind, List.map_cons, hitems, hindex]
    rfl

/-- Selections that lie apart have nothing to merge, so that the main one stays where it is. -/
theorem mergeOverlapping_eq_self (h : g.items.Pairwise fun a b => a.high < b.low)
    (hmain : g.main < g.items.length) : g.mergeOverlapping = g := by
  have hchain : g.items.IsChain fun a b => (pure (a.overlaps b) : Except Fault Bool) = .ok false := by
    refine h.isChain.imp fun a b hlt => congrArg Except.ok ?_
    unfold Selection.overlaps
    rw [decide_eq_false (not_le.2 hlt), Bool.and_false]
  exact Except.ok.inj (g.mergeBy_overlaps.symm.trans (mergeBy_eq_self hchain hmain))

/-- **The hulls of sorting and merging.** -/
theorem exists_madeOf_normalize (h : g.main < g.items.length) :
    ∃ parts : List (List (Selection × ℕ)), parts.flatten.Perm g.items.zipIdx ∧
      parts.flatten.Pairwise Selection.Precedes ∧ g.normalize.MadeOf g.main parts := by
  have hentry : (g.items.zipIdx.mergeSort fun a b => a.1.le b.1)[g.sort.main]? =
      some (g.items[g.main], g.main) := getElem?_mergeSort_zipIdx (List.getElem?_eq_getElem h)
  obtain ⟨parts, hflat, hhulls, part, hpart, hmain⟩ := exists_parts (g := g.sort)
    (Q := fun s part => s.Hulls (part.map Prod.fst)) (fun a => Selection.hulls_self a.1)
    (fun s part a hs _ _ => by simpa using hs.concat a.1) g.sort_sorted rfl hentry g.sort.mergeBy_overlaps
  refine ⟨parts, ?_, ?_, hhulls, part, _, hpart, hmain⟩
  · rw [hflat]
    exact List.mergeSort_perm _ _
  · rw [hflat]
    exact precedes_mergeSort g.items

theorem touches_iff : g.Touches c ↔ ∃ e ∈ g.extents, e.start ≤ c ∧ c ≤ e.stop := by
  constructor
  · rintro ⟨s, hs, hc⟩
    exact ⟨s.extent, List.mem_map_of_mem hs, hc⟩
  · rintro ⟨e, he, hc⟩
    obtain ⟨s, hs, rfl⟩ := List.mem_map.1 he
    exact ⟨s, hs, hc⟩

theorem touches_iff_of_covers (h : Span.Covers g'.extents g.extents) : g'.Touches c ↔ g.Touches c := by
  rw [touches_iff, touches_iff]
  exact h.exists_iff g.ordered_extents

/-! ## Points -/

theorem touches_iff_of_points (h : ∀ s ∈ g.items, s.low = s.high) :
    g.Touches c ↔ ∃ s ∈ g.items, s.low = c := by
  constructor
  · rintro ⟨s, hs, hlow, hhigh⟩
    exact ⟨s, hs, le_antisymm hlow (h s hs ▸ hhigh)⟩
  · rintro ⟨s, hs, hlow⟩
    exact ⟨s, hs, hlow.le, hlow ▸ (h s hs).le⟩

/-- **Merging points** that are in order leaves each of them once, and the main one is where it was. -/
theorem mergeOverlapping_points (hs : g.items.Pairwise fun a b => a.low ≤ b.low)
    (hpoint : ∀ s ∈ g.items, s.low = s.high) (hmain : g.main < g.items.length) :
    (∀ s ∈ g.mergeOverlapping.items, s.low = s.high) ∧
      (g.mergeOverlapping.items.Pairwise fun a b => a.low < b.low) ∧
      (∀ c, (∃ s ∈ g.mergeOverlapping.items, s.low = c) ↔ ∃ s ∈ g.items, s.low = c) ∧
      ∃ s, g.mergeOverlapping.items[g.mergeOverlapping.main]? = some s ∧ s.low = g.items[g.main].low := by
  have hcovers := covers_mergeOverlapping hs
  have hpoints : ∀ s ∈ g.mergeOverlapping.items, s.low = s.high :=
    List.forall_mem_map.1 (hcovers.start_eq_stop (List.forall_mem_map.2 hpoint))
  refine ⟨hpoints, ?_, fun c => ?_, ?_⟩
  · exact (List.pairwise_map.1 hcovers.apart).imp fun {a _} hlt => a.low_le_high.trans_lt hlt
  · rw [← touches_iff_of_points hpoints, ← touches_iff_of_points hpoint]
    exact touches_iff_of_covers hcovers
  · obtain ⟨s, hs', hin⟩ := (mainHolds_self hmain).mergeOverlapping
    have hstart : s.low ≤ g.items[g.main].low := hin.1
    have hstop : g.items[g.main].high ≤ s.high := hin.2
    rw [← hpoint _ (List.getElem_mem hmain), ← hpoints s (List.mem_of_getElem? hs')] at hstop
    exact ⟨s, hs', le_antisymm hstart hstop⟩

/-! ## At the positions of a text -/

/-- Between the selection and the coordinate there is a character of the text. -/
def LeavesGap (t : Text) (a : Selection) (c : Coord) : Prop :=
  ∃ stop, t.nextCoord a.high = .ok stop ∧ stop < c

/-- The test for selections with no character in between. -/
theorem follows_iff {a b : Selection} {r : Bool} :
    (do return decide (b.low ≤ (← t.nextCoord a.high)) : Except Fault Bool) = .ok r ↔
      ∃ stop, t.nextCoord a.high = .ok stop ∧ decide (b.low ≤ stop) = r := by
  simp only [Fault.bind_eq_ok, Fault.pure_eq_ok, Except.ok.injEq]

theorem follows_eq_false_iff {a b : Selection} :
    (do return decide (b.low ≤ (← t.nextCoord a.high)) : Except Fault Bool) = .ok false ↔
      LeavesGap t a b.low := by
  simp only [follows_iff, decide_eq_false_iff_not, not_le]
  rfl

/-- **Where there are gaps nothing is merged.** -/
theorem mergeConsecutive_eq_self (h : g.items.IsChain fun a b => LeavesGap t a b.low)
    (hmain : g.main < g.items.length) : g.mergeConsecutive t = .ok g :=
  mergeBy_eq_self (h.imp fun _ _ => follows_eq_false_iff.2) hmain

/-- A position that a hull meets is met by a selection of its part. -/
def MeetsPart (t : Text) (s : Selection) (part : List (Selection × ℕ)) : Prop :=
  (∀ a ∈ part, a.1.ValidIn t) → ∀ c, t.Valid c → s.Meets c → ∃ a ∈ part, a.1.Meets c

/-- **Between selections that follow one another there is no position** that neither of them meets. -/
theorem MeetsPart.concat (ht : t.size < Text.capacity) {s : Selection} {part : List (Selection × ℕ)}
    {a : Selection × ℕ} (hhulls : s.Hulls (part.map Prod.fst)) (h : MeetsPart t s part)
    (hle : s.low ≤ a.1.low) {stop : Coord} (hstop : t.nextCoord s.high = .ok stop)
    (hfollows : a.1.low ≤ stop) : MeetsPart t (s.cover a.1) (part ++ [a]) := by
  intro hvalid c hc hmeets
  rw [Selection.Meets, Selection.cover_low, Selection.cover_high, min_eq_left hle, le_max_iff] at hmeets
  have hpart : ∀ a ∈ part, a.1.ValidIn t := fun a ha => hvalid a (List.mem_append_left _ ha)
  by_cases hhigh : c ≤ s.high
  · obtain ⟨a', ha', hmeets'⟩ := h hpart c hc ⟨hmeets.1, hhigh⟩
    exact ⟨a', List.mem_append_left _ ha', hmeets'⟩
  · -- the position is behind what was there, and so not in front of what comes in
    obtain ⟨r, hr, hrhigh⟩ := hhulls.high_mem
    obtain ⟨a', ha', rfl⟩ := List.mem_map.1 hr
    have hnext := Text.nextCoord_le ht (hrhigh ▸ (hpart a' ha').high) hc hstop (not_le.1 hhigh)
    exact ⟨a, List.mem_append_right _ (List.mem_singleton_self a), hfollows.trans hnext.2,
      hmeets.2.resolve_left hhigh⟩

/-- **The hulls of merging at the positions of a text.** -/
theorem exists_madeOf_mergeConsecutive (ht : t.size < Text.capacity) (hvalid : ∀ s ∈ g.items, s.ValidIn t)
    (hs : g.items.Pairwise fun a b => a.low ≤ b.low) (hmain : g.main < g.items.length) :
    ∃ g' parts, g.mergeConsecutive t = .ok g' ∧ parts.flatten = g.items.zipIdx ∧ g'.MadeOf g.main parts ∧
      g'.items.IsChain (fun a b => LeavesGap t a b.low) ∧
      ∀ c, t.Valid c → (g'.Touches c ↔ g.Touches c) := by
  obtain ⟨g', hg'⟩ := exists_mergeConsecutive_eq_ok ht hvalid
  have hentry : g.items.zipIdx[g.main]? = some (g.items[g.main], g.main) := by
    rw [List.getElem?_zipIdx, List.getElem?_eq_getElem hmain, Nat.zero_add]
    rfl
  obtain ⟨parts, hflat, hparts, part, hpart, hmem⟩ := exists_parts
    (Q := fun s part => s.Hulls (part.map Prod.fst) ∧ MeetsPart t s part)
    (fun a => ⟨Selection.hulls_self a.1, fun _ c _ hc => ⟨a, List.mem_singleton_self a, hc⟩⟩)
    (fun s part a h hle htest => by
      obtain ⟨stop, hstop, hfollows⟩ := follows_iff.1 htest
      refine ⟨by simpa using h.1.concat a.1, h.2.concat ht h.1 hle hstop (of_decide_eq_true hfollows)⟩)
    hs (List.zipIdx_map_fst 0 g.items).symm hentry hg'
  refine ⟨g', parts, hg', hflat, ⟨hparts.imp fun _ _ h => h.1, part, _, hpart, hmem⟩,
    isChain_mergeBy (fun _ _ => follows_eq_false_iff.1) hs hg', fun c hc => ⟨?_, ?_⟩⟩
  · rintro ⟨s, hs', hmeets⟩
    obtain ⟨part, hpart, -, hmeetsPart⟩ := exists_rel_of_mem_left hparts hs'
    have hitems : ∀ a ∈ part, a.1 ∈ g.items := fun a ha =>
      List.fst_mem_of_mem_zipIdx (hflat ▸ List.mem_flatten_of_mem hpart ha)
    obtain ⟨a, ha, hmeets'⟩ := hmeetsPart (fun a ha => hvalid _ (hitems a ha)) c hc hmeets
    exact ⟨a.1, hitems a ha, hmeets'⟩
  · rintro ⟨s, hs', hmeets⟩
    obtain ⟨i, hi⟩ := List.getElem?_of_mem hs'
    have hmem : (s, i) ∈ parts.flatten := hflat ▸ List.mk_mem_zipIdx_iff_getElem?.2 hi
    obtain ⟨part, hpart, hin⟩ := List.mem_flatten.1 hmem
    obtain ⟨s', hs', hhulls, -⟩ := exists_rel_of_mem_right hparts hpart
    exact ⟨s', hs', hhulls.meets (List.mem_map_of_mem hin) hmeets⟩

/-- **Sorting and merging.** Selections that were sorted and merged lie apart and meet the coordinates
that they met before, and no others. Each is the hull of a part, which follow one another in the stable
order of all selections, and the main one that of the part with the old main one; doing it again
changes nothing. Sorted selections at the positions of a text can be merged with what follows them
there: then there is a character between neighbours, and the parts are those of the list as it is. -/
theorem merging_covers (hmain : g.main < g.items.length) :
    (∃ parts : List (List (Selection × ℕ)),
      parts.flatten.Perm g.items.zipIdx ∧ parts.flatten.Pairwise Selection.Precedes ∧
      g.normalize.MadeOf g.main parts ∧
      (g.normalize.items.Pairwise fun a b => a.high < b.low) ∧
      (∀ c, g.normalize.Touches c ↔ g.Touches c) ∧
      g.normalize.normalize = g.normalize) ∧
    ∀ t : Text, t.size < Text.capacity → (∀ s ∈ g.items, s.ValidIn t) →
      (g.items.Pairwise fun a b => a.low ≤ b.low) →
      ∃ g' parts, g.mergeConsecutive t = .ok g' ∧ parts.flatten = g.items.zipIdx ∧
        g'.MadeOf g.main parts ∧
        g'.items.IsChain (fun a b => ∃ stop, t.nextCoord a.high = .ok stop ∧ stop < b.low) ∧
        (∀ c, t.Valid c → (g'.Touches c ↔ g.Touches c)) ∧
        g'.mergeConsecutive t = .ok g' := by
  constructor
  · obtain ⟨parts, hperm, hstable, hmade⟩ := exists_madeOf_normalize hmain
    exact ⟨parts, hperm, hstable, hmade, g.pairwise_normalize,
      fun _ => touches_iff_of_covers g.covers_normalize,
      normalize_eq_self g.pairwise_normalize hmade.main_lt⟩
  · intro t ht hvalid hs
    obtain ⟨g', parts, hg', hflat, hmade, hchain, htouches⟩ :=
      exists_madeOf_mergeConsecutive ht hvalid hs hmain
    exact ⟨g', parts, hg', hflat, hmade, hchain, htouches, mergeConsecutive_eq_self hchain hmade.main_lt⟩

/-- Selections that start in order but are not sorted, the first of them backward. -/
def mixedGroup : Selections where
  items := [⟨⟨0, 2⟩, ⟨0, 0⟩, some 7, []⟩, .point ⟨0, 0⟩, ⟨⟨0, 2⟩, ⟨0, 3⟩, none, []⟩, .point ⟨1, 0⟩]
  main := 2

theorem merging_covers_sample :
    mixedGroup.normalize = ⟨[⟨⟨0, 0⟩, ⟨0, 3⟩, none, []⟩, .point ⟨1, 0⟩], 0⟩ ∧
      (∃ parts, mixedGroup.normalize.MadeOf 2 parts) ∧
      ∃ g' parts, mixedGroup.mergeConsecutive ['a', 'b', 'c', '\n', 'd'] = .ok g' ∧
        g' = ⟨[⟨⟨1, 0⟩, ⟨0, 0⟩, some 7, []⟩], 0⟩ ∧ g'.MadeOf 2 parts := by
  have hmain : mixedGroup.main < mixedGroup.items.length := by decide
  have hvalid : ∀ s ∈ mixedGroup.items, s.ValidIn ['a', 'b', 'c', '\n', 'd'] := by
    simp only [Selection.ValidIn]
    decide
  obtain ⟨⟨parts, -, -, hmade, -⟩, hconsecutive⟩ := merging_covers hmain
  obtain ⟨g', parts', hg', -, hmade', -⟩ := hconsecutive _ (by decide) hvalid (by decide)
  have heval : mixedGroup.mergeConsecutive ['a', 'b', 'c', '\n', 'd'] =
      .ok ⟨[⟨⟨1, 0⟩, ⟨0, 0⟩, some 7, []⟩], 0⟩ := by decide +kernel
  exact ⟨by cbv, ⟨parts, hmade⟩, g', parts', hg', Except.ok.inj (hg'.symm.trans heval), hmade'⟩

end Selections

end Caret
