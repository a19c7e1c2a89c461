import Caret.Proofs.Ends

/-!
# Covers

Merging turns spans into fewer ones that lie apart. The result is determined by what it covers, not
by the way it was merged, so that it does not matter whether spans are merged before or after their
ends are moved by a map that keeps their order.

* `Span.Covers`, `Span.Covers.unique`: the spans that lie apart and cover others.
* `Span.Covers.map`: merging, moving and merging again covers what moving alone leads to.
* `Selections.covers_mergeOverlapping`, `Selections.covers_normalize`: merging selections covers
  them, and the main selection stays in the main one.
-/

namespace Caret

/-- Two elements of a list whose elements are all related in order. -/
theorem eq_or_rel_of_pairwise {α : Type} {R : α → α → Prop} {l : List α} {a b : α} (h : l.Pairwise R)
    (ha : a ∈ l) (hb : b ∈ l) : a = b ∨ R a b ∨ R b a := by
  obtain ⟨i, hi, rfl⟩ := List.mem_iff_getElem.1 ha
  obtain ⟨j, hj, rfl⟩ := List.mem_iff_getElem.1 hb
  have hrel := List.pairwise_iff_getElem.1 h
  rcases Nat.lt_trichotomy i j with hlt | rfl | hlt
  · exact .inr (.inl (hrel i j hi hj hlt))
  · exact .inl rfl
  · exact .inr (.inr (hrel j i hj hi hlt))

theorem map_fst_mergeSort {α : Type} {le : α → α → Bool} {l : List α} :
    (l.zipIdx.mergeSort fun a b => le a.1 b.1).map Prod.fst = l.mergeSort le := by
  have hmap : (l.zipIdx.mergeSort fun a b => le a.1 b.1).map Prod.fst =
      (l.zipIdx.map Prod.fst).mergeSort le := List.map_mergeSort fun _ _ _ _ => rfl
  rw [hmap, List.zipIdx_map_fst]

/-- An entry of a list is found in the sorted list by its old index. -/
theorem getElem?_mergeSort_zipIdx {α : Type} {le : α → α → Bool} {l : List α} {i : ℕ} {a : α}
    (h : l[i]? = some a) :
    (l.zipIdx.mergeSort fun a b => le a.1 b.1)[(l.zipIdx.mergeSort fun a b => le a.1 b.1).findIdx
      fun entry => entry.2 == i]? = some (a, i) := by
  have hmem {entry : α × ℕ} : entry ∈ l.zipIdx.mergeSort (fun a b => le a.1 b.1) ↔
      l[entry.2]? = some entry.1 := by
    rw [List.mem_mergeSort]
    exact List.mk_mem_zipIdx_iff_getElem?
  generalize l.zipIdx.mergeSort (fun a b => le a.1 b.1) = indexed at hmem ⊢
  have hin : (a, i) ∈ indexed := hmem.2 h
  have hlt : indexed.findIdx (fun entry => entry.2 == i) < indexed.length :=
    List.findIdx_lt_length_of_exists ⟨_, hin, by simp⟩
  have hfound := beq_iff_eq.1 (List.findIdx_getElem (w := hlt))
  -- the entry that is found is the one with that index
  have hentry := hmem.1 (List.getElem_mem hlt)
  rw [hfound, h, Option.some.injEq] at hentry
  rw [List.getElem?_eq_getElem hlt, Option.some.injEq]
  exact Prod.ext hentry.symm hfound

/-- An element of a list is found in the sorted list by its old index. -/
theorem getElem?_mergeSort {α : Type} {le : α → α → Bool} {l : List α} {i : ℕ} {a : α}
    (h : l[i]? = some a) :
    (l.mergeSort le)[(l.zipIdx.mergeSort fun a b => le a.1 b.1).findIdx fun entry => entry.2 == i]? =
      some a := by
  rw [← map_fst_mergeSort, List.getElem?_map, getElem?_mergeSort_zipIdx h]
  rfl

namespace Span

/-- The start of the span does not lie behind its end. -/
def Ordered (s : Span) : Prop := s.start ≤ s.stop

/-- A span that lies inside of another. -/
def Inside (s e : Span) : Prop := e.start ≤ s.start ∧ s.stop ≤ e.stop

/-- The span with both ends moved. -/
def map (f : Coord → Coord) (s : Span) : Span := ⟨f s.start, f s.stop⟩

/-- Spans that lie apart from each other, in order. -/
def Apart (spans : List Span) : Prop := spans.Pairwise fun a b => a.stop < b.start

/-- **Covers.** The spans `covers` lie apart. Each of `spans` is inside of one of them, each of them
starts where one of `spans` does, and none of them can be cut in two without cutting one of `spans`:
whatever holds for all coordinates up to some point, and holds at the start of a cover but not at its
end, does so for one of `spans` too. -/
structure Covers (covers spans : List Span) : Prop where
  apart : Apart covers
  ordered : ∀ e ∈ covers, e.Ordered
  inside : ∀ s ∈ spans, ∃ e ∈ covers, s.Inside e
  start_mem : ∀ e ∈ covers, ∃ s ∈ spans, s.start = e.start
  joined : ∀ e ∈ covers, ∀ p : Coord → Prop, (∀ a b, a ≤ b → p b → p a) → p e.start → ¬p e.stop →
    ∃ s ∈ spans, p s.start ∧ ¬p s.stop

variable {covers covers' spans spans' : List Span} {f : Coord → Coord} {s e e' : Span}

theorem Inside.trans (h : s.Inside e) (h' : e.Inside e') : s.Inside e' :=
  ⟨h'.1.trans h.1, h.2.trans h'.2⟩

theorem Inside.map (hf : Monotone f) (h : s.Inside e) : (s.map f).Inside (e.map f) :=
  ⟨hf h.1, hf h.2⟩

theorem Inside.antisymm (h : s.Inside e) (h' : e.Inside s) : s = e := by
  obtain ⟨start, stop⟩ := s
  obtain ⟨start', stop'⟩ := e
  rw [Span.mk.injEq]
  exact ⟨le_antisymm h'.1 h.1, le_antisymm h.2 h'.2⟩

/-- Of spans that lie apart only one can hold a given coordinate. -/
theorem Apart.index_eq (ha : Apart covers) {i j : ℕ} {c : Coord} (hi : covers[i]? = some e)
    (hj : covers[j]? = some e') (he : e.start ≤ c ∧ c ≤ e.stop) (he' : e'.start ≤ c ∧ c ≤ e'.stop) :
    i = j := by
  obtain ⟨hi', rfl⟩ := List.getElem?_eq_some_iff.1 hi
  obtain ⟨hj', rfl⟩ := List.getElem?_eq_some_iff.1 hj
  rcases Nat.lt_trichotomy i j with hlt | heq | hlt
  · have := List.pairwise_iff_getElem.1 ha i j hi' hj' hlt
    exact absurd (he'.1.trans he.2) (not_le.2 this)
  · exact heq
  · have := List.pairwise_iff_getElem.1 ha j i hj' hi' hlt
    exact absurd (he.1.trans he'.2) (not_le.2 this)

theorem Apart.eq_of_mem (ha : Apart covers) {c : Coord} (h : e ∈ covers) (h' : e' ∈ covers)
    (he : e.start ≤ c ∧ c ≤ e.stop) (he' : e'.start ≤ c ∧ c ≤ e'.stop) : e = e' := by
  obtain ⟨i, hi⟩ := List.mem_iff_getElem?.1 h
  obtain ⟨j, hj⟩ := List.mem_iff_getElem?.1 h'
  rw [ha.index_eq hi hj he he', hj, Option.some.injEq] at hi
  exact hi.symm

namespace Covers

/-- Spans that lie apart cover themselves. -/
theorem refl (ha : Apart spans) (ho : ∀ s ∈ spans, s.Ordered) : Covers spans spans :=
  ⟨ha, ho, fun s hs => ⟨s, hs, le_rfl, le_rfl⟩, fun s hs => ⟨s, hs, rfl⟩,
    fun s hs _ _ h h' => ⟨s, hs, h, h'⟩⟩

theorem perm (h : Covers covers spans) (hp : spans.Perm spans') : Covers covers spans' :=
  ⟨h.apart, h.ordered, fun s hs => h.inside s (hp.mem_iff.2 hs),
    fun e he => (h.start_mem e he).imp fun _ hs => ⟨hp.mem_iff.1 hs.1, hs.2⟩,
    fun e he p hp' h1 h2 => (h.joined e he p hp' h1 h2).imp fun _ hs => ⟨hp.mem_iff.1 hs.1, hs.2⟩⟩

/-- Every cover is inside of a cover of any other choice. -/
theorem exists_inside (h : Covers covers spans) (h' : Covers covers' spans)
    (ho : ∀ s ∈ spans, s.Ordered) (he : e ∈ covers) : ∃ e' ∈ covers', e.Inside e' := by
  obtain ⟨s, hs, hstart⟩ := h.start_mem e he
  obtain ⟨e', he', hin⟩ := h'.inside s hs
  refine ⟨e', he', hstart ▸ hin.1, ?_⟩
  by_contra hlt
  -- cut the cover right behind `e'`
  obtain ⟨s₂, hs₂, hle, hnot⟩ := h.joined e he (· ≤ e'.stop) (fun a b hab hb => hab.trans hb)
    (hstart ▸ (ho s hs).trans hin.2) hlt
  obtain ⟨e₂, he₂, hin₂⟩ := h'.inside s₂ hs₂
  have hstop := not_le.1 hnot
  have heq := h'.apart.eq_of_mem (c := e'.stop) he' he₂ ⟨h'.ordered e' he', le_rfl⟩
    ⟨hin₂.1.trans hle, hstop.le.trans hin₂.2⟩
  rw [heq] at hstop
  exact absurd hin₂.2 (not_le.2 hstop)

theorem subset (h : Covers covers spans) (h' : Covers covers' spans)
    (ho : ∀ s ∈ spans, s.Ordered) : covers ⊆ covers' := by
  intro e he
  obtain ⟨e', he', hin⟩ := h.exists_inside h' ho he
  obtain ⟨e₂, he₂, hin₂⟩ := h'.exists_inside h ho he'
  have heq := h.apart.eq_of_mem (c := e.start) he he₂ ⟨le_rfl, h.ordered e he⟩
    ⟨(hin.trans hin₂).1, (h.ordered e he).trans (hin.trans hin₂).2⟩
  rw [← heq] at hin₂
  rwa [hin.antisymm hin₂]

/-- **There is only one way** to cover spans. -/
theorem unique (h : Covers covers spans) (h' : Covers covers' spans)
    (ho : ∀ s ∈ spans, s.Ordered) : covers = covers' := by
  have hnodup : ∀ {covers}, Covers covers spans → covers.Nodup := fun hc =>
    hc.apart.imp_of_mem fun {a b} ha hb hlt heq => by
      subst heq
      exact absurd (hc.ordered a ha) (not_le.2 hlt)
  -- they have the same members, and being apart fixes the order
  have hperm : covers.Perm covers' := (List.perm_ext_iff_of_nodup (hnodup h) (hnodup h')).2
    fun e => ⟨fun he => h.subset h' ho he, fun he => h'.subset h ho he⟩
  refine hperm.eq_of_pairwise (fun a b ha hb hab hba => ?_) h.apart h'.apart
  have hle := (h.ordered a ha).trans (hab.le.trans (h'.ordered b hb))
  exact absurd hle (not_le.2 hba)

/-- **Moving and merging.** What covers the moved covers covers the moved spans. -/
theorem map (hf : Monotone f) (h : Covers covers spans)
    (h' : Covers covers' (covers.map (Span.map f))) : Covers covers' (spans.map (Span.map f)) := by
  refine ⟨h'.apart, h'.ordered, ?_, ?_, ?_⟩
  · intro s hs
    obtain ⟨s₁, hs₁, rfl⟩ := List.mem_map.1 hs
    obtain ⟨e, he, hin⟩ := h.inside s₁ hs₁
    obtain ⟨e', he', hin'⟩ := h'.inside _ (List.mem_map_of_mem he)
    exact ⟨e', he', (hin.map hf).trans hin'⟩
  · intro e' he'
    obtain ⟨e₁, he₁, hstart⟩ := h'.start_mem e' he'
    obtain ⟨e, he, rfl⟩ := List.mem_map.1 he₁
    obtain ⟨s, hs, hs'⟩ := h.start_mem e he
    exact ⟨_, List.mem_map_of_mem hs, by rw [← hstart]; exact congrArg f hs'⟩
  · intro e' he' p hp hstart hstop
    obtain ⟨e₁, he₁, h1, h2⟩ := h'.joined e' he' p hp hstart hstop
    obtain ⟨e, he, rfl⟩ := List.mem_map.1 he₁
    obtain ⟨s, hs, h3, h4⟩ := h.joined e he (fun c => p (f c)) (fun a b hab => hp _ _ (hf hab)) h1 h2
    exact ⟨_, List.mem_map_of_mem hs, h3, h4⟩

theorem trans (h : Covers covers spans) (h' : Covers covers' covers) : Covers covers' spans := by
  have hid : ∀ spans : List Span, spans.map (Span.map fun c => c) = spans := fun spans =>
    List.map_id' spans
  have hmap := h.map monotone_id (h'.perm (.of_eq (hid covers).symm))
  exact hmap.perm (.of_eq (hid spans))

/-- A span in front of all others. -/
theorem cons (ho : s.Ordered) (hlt : ∀ s' ∈ spans, s.stop < s'.start) (h : Covers covers spans) :
    Covers (s :: covers) (s :: spans) where
  apart := by
    refine List.pairwise_cons.2 ⟨?_, h.apart⟩
    intro e he
    obtain ⟨s', hs', hstart⟩ := h.start_mem e he
    exact hstart ▸ hlt s' hs'
  ordered := List.forall_mem_cons.2 ⟨ho, h.ordered⟩
  inside := by
    refine List.forall_mem_cons.2 ⟨⟨s, List.mem_cons_self, le_rfl, le_rfl⟩, ?_⟩
    intro s' hs'
    obtain ⟨e, he, hin⟩ := h.inside s' hs'
    exact ⟨e, List.mem_cons_of_mem _ he, hin⟩
  start_mem := by
    refine List.forall_mem_cons.2 ⟨⟨s, List.mem_cons_self, rfl⟩, ?_⟩
    intro e he
    obtain ⟨s', hs', hstart⟩ := h.start_mem e he
    exact ⟨s', List.mem_cons_of_mem _ hs', hstart⟩
  joined := by
    refine List.forall_mem_cons.2 ⟨fun p _ h1 h2 => ⟨s, List.mem_cons_self, h1, h2⟩, ?_⟩
    intro e he p hp h1 h2
    obtain ⟨s', hs', h3, h4⟩ := h.joined e he p hp h1 h2
    exact ⟨s', List.mem_cons_of_mem _ hs', h3, h4⟩

/-- Two spans that meet instead of the one that they make up. -/
theorem split {a b : Span} (hab : a.start ≤ b.start) (hba : b.start ≤ a.stop)
    (h : Covers covers (⟨a.start, max a.stop b.stop⟩ :: spans)) : Covers covers (a :: b :: spans) := by
  obtain ⟨⟨e, he, hin⟩, hinside⟩ := List.forall_mem_cons.1 h.inside
  refine ⟨h.apart, h.ordered, ?_, ?_, ?_⟩
  · refine List.forall_mem_cons.2 ⟨⟨e, he, hin.1, (le_max_left _ _).trans hin.2⟩,
      List.forall_mem_cons.2 ⟨⟨e, he, hin.1.trans hab, (le_max_right _ _).trans hin.2⟩, hinside⟩⟩
  · intro e he
    obtain ⟨s, hs, hstart⟩ := h.start_mem e he
    rcases List.mem_cons.1 hs with rfl | hs
    · exact ⟨a, List.mem_cons_self, hstart⟩
    · exact ⟨s, List.mem_cons_of_mem _ (List.mem_cons_of_mem _ hs), hstart⟩
  · intro e he p hp h1 h2
    obtain ⟨s, hs, hstart, hstop⟩ := h.joined e he p hp h1 h2
    rcases List.mem_cons.1 hs with rfl | hs
    · by_cases ha : p a.stop
      · -- the cut goes through `b`
        refine ⟨b, List.mem_cons_of_mem _ List.mem_cons_self, hp _ _ hba ha, fun hb => hstop ?_⟩
        rcases max_choice a.stop b.stop with hmax | hmax <;> simp only [hmax]
        · exact ha
        · exact hb
      · exact ⟨a, List.mem_cons_self, hstart, ha⟩
    · exact ⟨s, List.mem_cons_of_mem _ (List.mem_cons_of_mem _ hs), hstart, hstop⟩

end Covers

end Span

/-! ## Merging selections -/

namespace Selection

/-- The span from the first to the last coordinate of a selection. -/
def extent (s : Selection) : Span := ⟨s.low, s.high⟩

variable {s s' : Selection} {f : Coord → Coord}

theorem low_le_high (s : Selection) : s.low ≤ s.high := min_le_max

theorem isForward_iff {s : Selection} : s.isForward = true ↔ s.anchor ≤ s.cursor := decide_eq_true_iff

theorem withEnds_of_forward (h : s.anchor ≤ s.cursor) (low high : Coord) :
    s.withEnds low high = { s with anchor := low, cursor := high } := if_pos (isForward_iff.2 h)

theorem withEnds_of_backward (h : ¬s.anchor ≤ s.cursor) (low high : Coord) :
    s.withEnds low high = { s with anchor := high, cursor := low } :=
  if_neg fun hf => h (isForward_iff.1 hf)

theorem withEnds_low (s : Selection) {low high : Coord} (h : low ≤ high) :
    (s.withEnds low high).low = low := by
  unfold withEnds
  split
  · exact min_eq_left h
  · exact min_eq_right h

theorem withEnds_high (s : Selection) {low high : Coord} (h : low ≤ high) :
    (s.withEnds low high).high = high := by
  unfold withEnds
  split
  · exact max_eq_right h
  · exact max_eq_left h

theorem le_iff {a b : Selection} :
    a.le b = true ↔ a.low < b.low ∨ a.low = b.low ∧ a.high ≤ b.high := by
  show ((compareOfLessAndEq a.low b.low).then (compareOfLessAndEq a.high b.high)).isLE = true ↔ _
  unfold compareOfLessAndEq
  rcases lt_trichotomy a.low b.low with h | h | h
  · simp [h]
  · rw [if_neg (h ▸ lt_irrefl _), if_pos h]
    rcases lt_trichotomy a.high b.high with h' | h' | h'
    · simp [h, h', h'.le]
    · simp [h, h']
    · simp [h, h'.not_gt, h'.ne', h'.not_ge]
  · simp [h.not_gt, h.ne']

theorem low_le_of_le {a b : Selection} (h : a.le b = true) : a.low ≤ b.low := by
  rcases le_iff.1 h with hlt | ⟨heq, -⟩
  · exact hlt.le
  · exact heq.le

theorem le_of_le_of_le {a b c : Selection} (hab : a.le b = true) (hbc : b.le c = true) :
    a.le c = true := by
  rw [le_iff] at hab hbc ⊢
  rcases hab with hab | ⟨hab, hab'⟩ <;> rcases hbc with hbc | ⟨hbc, hbc'⟩
  · exact .inl (hab.trans hbc)
  · exact .inl (hbc ▸ hab)
  · exact .inl (hab ▸ hbc)
  · exact .inr ⟨hab.trans hbc, hab'.trans hbc'⟩

theorem le_or_le (a b : Selection) : (a.le b || b.le a) = true := by
  rw [Bool.or_eq_true, le_iff, le_iff]
  rcases lt_trichotomy a.low b.low with h | h | h
  · exact .inl (.inl h)
  · exact (le_total a.high b.high).imp (fun h' => .inr ⟨h, h'⟩) fun h' => .inr ⟨h.symm, h'⟩
  · exact .inr (.inl h)

theorem cover_low (s s' : Selection) : (s.cover s').low = min s.low s'.low :=
  withEnds_low s (min_le_of_left_le (s.low_le_high.trans (le_max_left _ _)))

theorem cover_high (s s' : Selection) : (s.cover s').high = max s.high s'.high :=
  withEnds_high s (min_le_of_left_le (s.low_le_high.trans (le_max_left _ _)))

theorem inside_cover_left (s s' : Selection) : s.extent.Inside (s.cover s').extent :=
  ⟨(cover_low s s').le.trans (min_le_left _ _), (le_max_left _ _).trans (cover_high s s').ge⟩

theorem inside_cover_right (s s' : Selection) : s'.extent.Inside (s.cover s').extent :=
  ⟨(cover_low s s').le.trans (min_le_right _ _), (le_max_right _ _).trans (cover_high s s').ge⟩

theorem withEnds_self (s : Selection) : s.withEnds s.low s.high = s := by
  unfold low high
  by_cases h : s.anchor ≤ s.cursor
  · rw [withEnds_of_forward h, min_eq_left h, max_eq_right h]
  · have h' := (not_le.1 h).le
    rw [withEnds_of_backward h, min_eq_right h', max_eq_left h']

/-- A selection that comes down to a single coordinate may lose its direction, but then moving it
further does not depend on that. -/
theorem withEnds_withEnds (s : Selection) {low high : Coord} (h : low ≤ high) (f : Coord → Coord) :
    (s.withEnds low high).withEnds (f low) (f high) = s.withEnds (f low) (f high) := by
  by_cases hs : s.anchor ≤ s.cursor
  · rw [withEnds_of_forward hs, withEnds_of_forward hs]
    exact withEnds_of_forward h _ _
  · rw [withEnds_of_backward hs, withEnds_of_backward hs]
    rcases h.eq_or_lt with rfl | hlt
    · exact withEnds_of_forward (s := { s with anchor := low, cursor := low }) le_rfl _ _
    · exact withEnds_of_backward (s := { s with anchor := high, cursor := low }) (not_le.2 hlt) _ _

instance : LawfulTracked Selection where
  mapEnds_id s := withEnds_self s
  first_mapEnds f s h := withEnds_low s h
  last_mapEnds f s h := withEnds_high s h
  mapEnds_mapEnds f g s h := by
    have hlow : (Tracked.mapEnds f s).low = f s.low := withEnds_low s h
    have hhigh : (Tracked.mapEnds f s).high = f s.high := withEnds_high s h
    show (Tracked.mapEnds f s).withEnds (g (Tracked.mapEnds f s).low)
      (g (Tracked.mapEnds f s).high) = _
    rw [hlow, hhigh]
    exact withEnds_withEnds s h g

end Selection

namespace Cover

/-- Selections joined with the neighbours that they overlap. -/
def merge (c : Cover) (items : List Selection) : List Cover :=
  Id.run (join (fun a b => pure (a.overlaps b)) c items)

theorem merge_nil (c : Cover) : c.merge [] = [c] := rfl

theorem merge_cons (c : Cover) (s : Selection) (items : List Selection) :
    c.merge (s :: items) =
      if c.selection.overlaps s then merge ⟨c.selection.cover s, c.size + 1⟩ items
      else c :: merge ⟨s, 1⟩ items := by
  unfold merge
  rw [join]
  show (if c.selection.overlaps s = true then _ else _) = _
  split <;> rfl

/-- What holds of all selections and of any two put together holds of all that merging leads to. -/
theorem forall_merge {p : Selection → Prop} (hp : ∀ a b, p a → p b → p (a.cover b)) {c : Cover}
    {items : List Selection} (hc : p c.selection) (h : ∀ s ∈ items, p s) :
    ∀ e ∈ c.merge items, p e.selection := by
  induction items generalizing c with
  | nil => exact List.forall_mem_singleton.2 hc
  | cons s items ih =>
    obtain ⟨hs, h⟩ := List.forall_mem_cons.1 h
    rw [merge_cons]
    split
    · exact ih (c := ⟨c.selection.cover s, c.size + 1⟩) (hp _ _ hc hs) h
    · exact List.forall_mem_cons.2 ⟨hc, ih (c := ⟨s, 1⟩) hs h⟩

/-- What merging sorted selections leads to covers them. -/
theorem covers_merge {c : Cover} {items : List Selection}
    (hs : (c.selection :: items).Pairwise fun a b => a.low ≤ b.low) :
    Span.Covers ((c.merge items).map fun c => c.selection.extent)
      ((c.selection :: items).map Selection.extent) := by
  -- `c` is the cover that is open: the next selection joins it, or closes it and opens another
  induction items generalizing c with
  | nil => exact .refl (List.pairwise_singleton _ _) (by simp [Span.Ordered, Selection.extent,
      Selection.low_le_high])
  | cons s items ih =>
    obtain ⟨hle, hs'⟩ := List.pairwise_cons.1 hs
    obtain ⟨hcs, hci⟩ := List.forall_mem_cons.1 hle
    -- of two selections in order only the border between them matters
    have hiff : c.selection.overlaps s = true ↔ s.low ≤ c.selection.high := by
      unfold Selection.overlaps
      rw [Bool.and_eq_true, decide_eq_true_iff, decide_eq_true_iff, and_iff_right_iff_imp]
      exact fun _ => hcs.trans s.low_le_high
    rw [merge_cons]
    by_cases h : s.low ≤ c.selection.high
    · rw [if_pos (hiff.2 h)]
      have hlow : (c.selection.cover s).low = c.selection.low := by
        rw [Selection.cover_low, min_eq_left hcs]
      have hcover := ih (c := ⟨c.selection.cover s, c.size + 1⟩)
        (List.pairwise_cons.2 ⟨fun s' hs' => hlow ▸ hci s' hs', (List.pairwise_cons.1 hs').2⟩)
      refine Span.Covers.split hcs h ?_
      rw [List.map_cons, Selection.extent, hlow, Selection.cover_high] at hcover
      exact hcover
    · rw [if_neg (fun ho => h (hiff.1 ho))]
      have hlt : ∀ s' ∈ (s :: items), c.selection.high < s'.low := fun s' hmem => by
        refine lt_of_lt_of_le (not_le.1 h) ?_
        rcases List.mem_cons.1 hmem with rfl | hmem
        · exact le_rfl
        · exact (List.pairwise_cons.1 hs').1 s' hmem
      refine Span.Covers.cons (s := c.selection.extent) c.selection.low_le_high ?_ (ih (c := ⟨s, 1⟩) hs')
      intro e he
      obtain ⟨s', hs', rfl⟩ := List.mem_map.1 he
      exact hlt s' hs'

/-- Selections that lie apart have nothing to merge. -/
theorem map_selection_merge {c : Cover} {items : List Selection}
    (h : (c.selection :: items).Pairwise fun a b => a.high < b.low) :
    (c.merge items).map Cover.selection = c.selection :: items := by
  induction items generalizing c with
  | nil => rfl
  | cons s items ih =>
    obtain ⟨hfirst, hrest⟩ := List.pairwise_cons.1 h
    have hapart : ¬c.selection.overlaps s = true := by
      unfold Selection.overlaps
      rw [Bool.and_eq_true, decide_eq_true_iff, decide_eq_true_iff]
      exact fun ho => absurd (hfirst s List.mem_cons_self) (not_lt.2 ho.2)
    rw [merge_cons, if_neg hapart, List.map_cons, ih (c := ⟨s, 1⟩) hrest]

/-- The cover that took in the selection of index `i` holds the span. -/
def Holds (covers : List Cover) (i : ℕ) (span : Span) : Prop :=
  ∃ c, covers[indexOf covers i]? = some c ∧ span.Inside c.selection.extent

/-- Every selection is inside of the cover that took it in. -/
theorem holds_merge (c : Cover) (items : List Selection) :
    (∀ i, i < c.size → Holds (c.merge items) i c.selection.extent) ∧
    ∀ k s, items[k]? = some s → Holds (c.merge items) (c.size + k) s.extent := by
  induction items generalizing c with
  | nil =>
    refine ⟨fun i hi => ⟨c, ?_, le_rfl, le_rfl⟩, fun k s hk => by simp at hk⟩
    rw [merge_nil, indexOf, if_pos hi]
    rfl
  | cons s items ih =>
    rw [merge_cons]
    split
    · obtain ⟨hfirst, hrest⟩ := ih ⟨c.selection.cover s, c.size + 1⟩
      have hc := Selection.inside_cover_left c.selection s
      have hs := Selection.inside_cover_right c.selection s
      constructor
      · intro i hi
        exact (hfirst i (Nat.lt_succ_of_lt hi)).imp fun _ h => ⟨h.1, hc.trans h.2⟩
      · intro k s' hk
        cases k with
        | zero =>
          obtain rfl : s = s' := by simpa using hk
          exact (hfirst c.size (Nat.lt_succ_self _)).imp fun _ h => ⟨h.1, hs.trans h.2⟩
        | succ k =>
          have h := hrest k s' (by simpa using hk)
          rwa [show c.size + 1 + k = c.size + (k + 1) by omega] at h
    · -- the open cover is closed: indices past it count from the next one on
      obtain ⟨hfirst, hrest⟩ := ih ⟨s, 1⟩
      have hnext : ∀ i span, Holds (merge ⟨s, 1⟩ items) i span →
          Holds (c :: merge ⟨s, 1⟩ items) (c.size + i) span := by
        rintro i span ⟨e, he, hin⟩
        refine ⟨e, ?_, hin⟩
        rw [indexOf, if_neg (by omega), Nat.add_sub_cancel_left]
        exact he
      refine ⟨fun i hi => ⟨c, ?_, le_rfl, le_rfl⟩, ?_⟩
      · rw [indexOf, if_pos hi]
        rfl
      · intro k s' hk
        cases k with
        | zero =>
          obtain rfl : s = s' := by simpa using hk
          exact hnext 0 _ (hfirst 0 Nat.one_pos)
        | succ k =>
          have h := hrest k s' (by simpa using hk)
          rw [Nat.add_comm 1 k] at h
          exact hnext (k + 1) _ h

/-- An index past the end stays past the end. -/
theorem indexOf_merge_of_le {c : Cover} {items : List Selection} {i : ℕ}
    (h : c.size + items.length ≤ i) : indexOf (c.merge items) i = (c.merge items).length := by
  induction items generalizing c i with
  | nil =>
    rw [merge_nil, indexOf, if_neg (by simpa using h)]
    rfl
  | cons s items ih =>
    rw [List.length_cons] at h
    rw [merge_cons]
    split
    · exact ih (c := ⟨c.selection.cover s, c.size + 1⟩) (by dsimp only; omega)
    · rw [indexOf, if_neg (by omega), ih (c := ⟨s, 1⟩) (by dsimp only; omega), List.length_cons]

end Cover

namespace Selections

variable {g : Selections} {span : Span}

/-- The spans of all selections. -/
def extents (g : Selections) : List Span := g.items.map Selection.extent

/-- The main selection holds the span. -/
def MainHolds (g : Selections) (span : Span) : Prop :=
  ∃ s, g.items[g.main]? = some s ∧ span.Inside s.extent

theorem mainHolds_self (h : g.main < g.items.length) : g.MainHolds g.items[g.main].extent :=
  ⟨_, List.getElem?_eq_getElem h, le_rfl, le_rfl⟩

theorem MainHolds.main_lt (h : g.MainHolds span) : g.main < g.items.length := by
  obtain ⟨s, hs, -⟩ := h
  exact (List.getElem?_eq_some_iff.1 hs).1

theorem mergeOverlapping_cons (s : Selection) (items : List Selection) (main : ℕ) :
    mergeOverlapping ⟨s :: items, main⟩ =
      ⟨(Cover.merge ⟨s, 1⟩ items).map Cover.selection,
        Cover.indexOf (Cover.merge ⟨s, 1⟩ items) main⟩ := rfl

theorem items_mergeOverlapping (h : g.items.Pairwise fun a b => a.high < b.low) :
    g.mergeOverlapping.items = g.items := by
  obtain ⟨items, main⟩ := g
  cases items with
  | nil => rfl
  | cons s items => exact Cover.map_selection_merge (c := ⟨s, 1⟩) h

theorem ordered_extents (g : Selections) : ∀ s ∈ g.extents, s.Ordered := by
  intro s hs
  obtain ⟨s, -, rfl⟩ := List.mem_map.1 hs
  exact s.low_le_high

theorem forall_mergeOverlapping {p : Selection → Prop} (hp : ∀ a b, p a → p b → p (a.cover b))
    (h : ∀ s ∈ g.items, p s) : ∀ s ∈ g.mergeOverlapping.items, p s := by
  obtain ⟨items, main⟩ := g
  cases items with
  | nil => exact h
  | cons s items =>
    obtain ⟨hs, h⟩ := List.forall_mem_cons.1 h
    intro s' hs'
    obtain ⟨c, hc, rfl⟩ := List.mem_map.1 hs'
    exact Cover.forall_merge hp (c := ⟨s, 1⟩) hs h c hc

/-- **Merging sorted selections** covers them. -/
theorem covers_mergeOverlapping (hs : g.items.Pairwise fun a b => a.low ≤ b.low) :
    Span.Covers g.mergeOverlapping.extents g.extents := by
  obtain ⟨items, main⟩ := g
  cases items with
  | nil => exact .refl .nil (ordered_extents _)
  | cons s items =>
    have h := Cover.covers_merge (c := ⟨s, 1⟩) hs
    rw [mergeOverlapping_cons, extents, List.map_map]
    exact h

theorem MainHolds.mergeOverlapping (h : g.MainHolds span) : g.mergeOverlapping.MainHolds span := by
  obtain ⟨items, main⟩ := g
  obtain ⟨s', hs', hin⟩ := h
  cases items with
  | nil => simp at hs'
  | cons s items =>
    obtain ⟨hfirst, hrest⟩ := Cover.holds_merge ⟨s, 1⟩ items
    have hholds : Cover.Holds (Cover.merge ⟨s, 1⟩ items) main s'.extent := by
      cases main with
      | zero =>
        obtain rfl : s = s' := by simpa using hs'
        exact hfirst 0 Nat.one_pos
      | succ k =>
        have h := hrest k s' (by simpa using hs')
        rwa [Nat.add_comm 1 k] at h
    obtain ⟨c, hc, hin'⟩ := hholds
    refine ⟨c.selection, ?_, hin.trans hin'⟩
    rw [mergeOverlapping_cons, List.getElem?_map, hc]
    rfl

theorem items_sort (g : Selections) : g.sort.items = g.items.mergeSort Selection.le := map_fst_mergeSort

theorem sort_perm (g : Selections) : g.sort.items.Perm g.items := by
  rw [items_sort]
  exact List.mergeSort_perm g.items Selection.le

theorem sort_sorted (g : Selections) : g.sort.items.Pairwise fun a b => a.low ≤ b.low := by
  rw [items_sort]
  have h := @List.pairwise_mergeSort _ Selection.le (fun _ _ _ => Selection.le_of_le_of_le)
    Selection.le_or_le g.items
  exact h.imp fun hab => Selection.low_le_of_le hab

/-- Sorting keeps track of the main selection. -/
theorem MainHolds.sort (h : g.MainHolds span) : g.sort.MainHolds span := by
  obtain ⟨s, hs, hin⟩ := h
  refine ⟨s, ?_, hin⟩
  rw [items_sort]
  exact getElem?_mergeSort hs

theorem main_mergeOverlapping_of_le (h : g.items.length ≤ g.main) :
    g.mergeOverlapping.main = g.mergeOverlapping.items.length := by
  obtain ⟨items, main⟩ := g
  cases items with
  | nil => rfl
  | cons s items =>
    rw [mergeOverlapping_cons, List.length_map]
    exact Cover.indexOf_merge_of_le (by rw [Nat.add_comm]; exact h)

theorem main_sort_of_le (h : g.items.length ≤ g.main) : g.sort.main = g.sort.items.length := by
  unfold sort
  dsimp only
  rw [List.length_map, List.findIdx_eq_length]
  intro entry he
  rw [List.mem_mergeSort] at he
  have hlt := (List.getElem?_eq_some_iff.1 (List.mk_mem_zipIdx_iff_getElem?.1 he)).1
  exact beq_false_of_ne (by omega)

/-- **Normalized selections** cover what they were made from. -/
theorem covers_normalize (g : Selections) : Span.Covers g.normalize.extents g.extents :=
  (covers_mergeOverlapping g.sort_sorted).perm (g.sort_perm.map _)

theorem MainHolds.normalize (h : g.MainHolds span) : g.normalize.MainHolds span :=
  h.sort.mergeOverlapping

end Selections

end Caret
