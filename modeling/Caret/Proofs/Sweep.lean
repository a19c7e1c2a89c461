import Mathlib.Data.List.Flatten
import Mathlib.Data.Nat.Find
import Caret.Proofs.Pass

/-!
# Sorted collections along the log

Moving a sorted collection across a stretch of the log moves every end of it by one map between the
positions of the two texts, which keeps their order. The map depends on the log alone: neither the
other elements of the collection nor what they are has any influence on it.

* `Image`: maps between positions that keep their order.
* `Run.exists_movesBy`, `exists_moveBy`: the map of a run, and of any stretch of the log. It is the
  map that the steps of the replay make one by one.
* `Run.first_ordered`, `Trail.first`: the runs of a log and the texts between them.
-/

namespace Caret

/-- A map of coordinates that keeps their order and takes positions of one text to positions of
another. -/
structure Image (s t : Text) (image : Coord → Coord) : Prop where
  valid : ∀ {c}, s.Valid c → t.Valid (image c)
  mono : Monotone image

namespace Image

variable {s t u : Text} {f g : Coord → Coord}

theorem refl (s : Text) : Image s s fun c => c := ⟨fun h => h, monotone_id⟩

theorem comp (hg : Image t u g) (hf : Image s t f) : Image s u (g ∘ f) :=
  ⟨fun h => hg.valid (hf.valid h), hg.mono.comp hf.mono⟩

/-- A map between the numbers of positions as a map of coordinates. A coordinate that is not a
position goes where the last position before it goes. -/
theorem exists_of_monotone {f : ℕ → ℕ} (hf : Monotone f) (hb : ∀ i ≤ s.length, f i ≤ t.length) :
    ∃ image, Image s t image ∧ ∀ i ≤ s.length, image (s.position i) = t.position (f i) := by
  -- the number of the last position at or before a coordinate
  let number : Coord → ℕ := fun c => Nat.findGreatest (fun i => s.position i ≤ c) s.length
  have hle : ∀ c, number c ≤ s.length := fun c => Nat.findGreatest_le _
  have hnumber : ∀ i ≤ s.length, number (s.position i) = i := fun i hi => le_antisymm
    ((Text.position_le_iff (hle _) hi).1 (Nat.findGreatest_spec (P := (s.position · ≤ s.position i))
      hi le_rfl))
    (Nat.le_findGreatest hi le_rfl)
  have himage : ∀ i ≤ s.length, t.position (f (number (s.position i))) = t.position (f i) :=
    fun i hi => by rw [hnumber i hi]
  refine ⟨fun c => t.position (f (number c)), ⟨?_, ?_⟩, himage⟩
  · intro c _
    exact Text.valid_position (hb _ (hle c))
  · intro c d hcd
    rw [Text.position_le_iff (hb _ (hle c)) (hb _ (hle d))]
    exact hf (Nat.findGreatest_mono_left (fun i hi => le_trans hi hcd) _)

end Image

/-- The map that the changes of a log make one by one. -/
theorem Trail.exists_image {s t : Text} {log : List Change} (h : Trail s log t)
    (hs : s.size < Text.capacity) :
    ∃ image, Image s t image ∧ ∀ {c}, s.Valid c → c.across log = .ok (image c) := by
  obtain ⟨f, hf, hb, hacross⟩ := h.exists_across hs
  obtain ⟨image, himage, hpos⟩ := Image.exists_of_monotone hf hb
  refine ⟨image, himage, ?_⟩
  intro c hc
  obtain ⟨i, hi, rfl⟩ := Text.valid_iff.1 hc
  rw [hacross i hi, hpos i hi]

/-! ## Collections -/

/-- The ends of an element can be read back, and putting them elsewhere can be done in steps. -/
class LawfulTracked (ρ : Type) [Tracked ρ] : Prop where
  mapEnds_id : ∀ r : ρ, Tracked.mapEnds id r = r
  first_mapEnds : ∀ (f : Coord → Coord) (r : ρ), f (Tracked.first r) ≤ f (Tracked.last r) →
    Tracked.first (Tracked.mapEnds f r) = f (Tracked.first r)
  last_mapEnds : ∀ (f : Coord → Coord) (r : ρ), f (Tracked.first r) ≤ f (Tracked.last r) →
    Tracked.last (Tracked.mapEnds f r) = f (Tracked.last r)
  mapEnds_mapEnds : ∀ (f g : Coord → Coord) (r : ρ), f (Tracked.first r) ≤ f (Tracked.last r) →
    Tracked.mapEnds g (Tracked.mapEnds f r) = Tracked.mapEnds (g ∘ f) r

instance : LawfulTracked Coord where
  mapEnds_id _ := rfl
  first_mapEnds _ _ _ := rfl
  last_mapEnds _ _ _ := rfl
  mapEnds_mapEnds _ _ _ _ := rfl

namespace Tracked

variable {ρ : Type} [Tracked ρ] {s t u : Text} {f g : Coord → Coord} {ranges : List ρ}

theorem InOrder.sublist {ranges' : List ρ} (h : InOrder s ranges) (hl : ranges'.Sublist ranges) :
    InOrder s ranges' := by
  have he : (ends ranges').Sublist (ends ranges) := hl.flatMap _
  exact ⟨fun c hc => h.valid c (he.subset hc), h.sorted.sublist he⟩

/-- The two ends of each element are in order. -/
theorem InOrder.first_le_last (h : InOrder s ranges) {r : ρ} (hr : r ∈ ranges) :
    s.Valid (first r) ∧ s.Valid (last r) ∧ first r ≤ last r := by
  have h1 := h.sublist (List.singleton_sublist.2 hr)
  exact ⟨h1.valid _ (by simp [ends]), h1.valid _ (by simp [ends]),
    List.rel_of_pairwise_cons h1.sorted List.mem_cons_self⟩

theorem InOrder.pairwise_last (h : InOrder s ranges) :
    ranges.Pairwise fun a b => last a ≤ last b := by
  induction ranges with
  | nil => exact .nil
  | cons r ranges ih =>
    refine List.pairwise_cons.2 ⟨fun b hb => ?_, ih (h.sublist (List.sublist_cons_self r ranges))⟩
    have hle := (List.pairwise_cons.1 (List.pairwise_cons.1 h.sorted).2).1
    exact hle _ (List.mem_flatMap.2 ⟨b, hb, by simp⟩)

variable [LawfulTracked ρ]

/-- Elements whose ends stay where they are stay the same. -/
theorem map_eq_self (h : ∀ r ∈ ranges, f (first r) = first r ∧ f (last r) = last r) :
    ranges.map (mapEnds f) = ranges := by
  refine (List.map_congr_left fun r hr => ?_).trans (List.map_id ranges)
  rw [mapEnds, (h r hr).1, (h r hr).2]
  exact LawfulTracked.mapEnds_id r

theorem ends_map (hf : Image s t f) (h : InOrder s ranges) :
    ends (ranges.map (mapEnds f)) = (ends ranges).map f := by
  induction ranges with
  | nil => rfl
  | cons r ranges ih =>
    obtain ⟨-, -, hle⟩ := h.first_le_last List.mem_cons_self
    have hle := hf.mono hle
    rw [List.map_cons, ends_cons, ends_cons, List.map_cons, List.map_cons,
      LawfulTracked.first_mapEnds f r hle, LawfulTracked.last_mapEnds f r hle,
      ih (h.sublist (List.sublist_cons_self r ranges))]

/-- The collection moved by such a map is in order again. -/
theorem InOrder.map (hf : Image s t f) (h : InOrder s ranges) :
    InOrder t (ranges.map (mapEnds f)) := by
  constructor
  · rw [ends_map hf h]
    intro c hc
    obtain ⟨d, hd, rfl⟩ := List.mem_map.1 hc
    exact hf.valid (h.valid d hd)
  · rw [ends_map hf h, List.pairwise_map]
    exact h.sorted.imp fun hle => hf.mono hle

theorem map_mapEnds (hf : Image s t f) (h : InOrder s ranges) :
    (ranges.map (mapEnds f)).map (mapEnds g) = ranges.map (mapEnds (g ∘ f)) := by
  rw [List.map_map]
  apply List.map_congr_left
  intro r hr
  obtain ⟨-, -, hle⟩ := h.first_le_last hr
  exact LawfulTracked.mapEnds_mapEnds f g r (hf.mono hle)

end Tracked

/-! ## Bisection -/

section Bisection

variable {α : Type} {p : α → Bool} {l : List α}

theorem bisectFrom_eq (p : α → Bool) (l : List α) (base size : ℕ) :
    bisectFrom p l base size = base ∨ l[bisectFrom p l base size]?.any p = true := by
  induction size using Nat.strong_induction_on generalizing base with
  | _ size ih =>
    rw [bisectFrom]
    split
    · dsimp only
      rename_i h
      rcases ih (size - size / 2) (by omega)
        (if l[base + size / 2]?.any p then base + size / 2 else base) with he | ha
      · rw [he]
        split
        · rename_i hm; exact .inr hm
        · exact .inl rfl
      · exact .inr ha
    · exact .inl rfl

/-- The elements before the point that bisection arrives at satisfy the predicate, when with an
element all earlier ones do. -/
theorem forall_take_bisect (h : l.Pairwise fun a b => p b = true → p a = true) :
    ∀ a ∈ l.take (bisect p l), p a = true := by
  -- wherever bisection ends, the element there satisfies the predicate, unless it is the first one
  have hbase : ∀ n, l[n]?.any p = true → ∀ a ∈ l.take (n + 1), p a = true := by
    intro n hn a ha
    obtain ⟨b, hb, hpb⟩ := Option.any_eq_true _ _ |>.1 hn
    obtain ⟨hlt, rfl⟩ := List.getElem?_eq_some_iff.1 hb
    obtain ⟨i, hi, rfl⟩ := List.mem_take_iff_getElem.1 ha
    rcases Nat.eq_or_lt_of_le (show i ≤ n by omega) with rfl | hlt'
    · exact hpb
    · exact List.pairwise_iff_getElem.1 h i n _ _ hlt' hpb
  unfold bisect
  dsimp only
  split
  · rename_i ha; exact hbase _ ha
  · rename_i ha
    rcases bisectFrom_eq p l 0 l.length with he | ha'
    · rw [he]; simp
    · exact absurd ha' ha

end Bisection

/-! ## Runs -/

namespace Run

variable {s t : Text} {log : List Change}

theorem forward_take (log : List Change) : Forward (log.take (forwardLength log)) := by
  induction log using forwardLength.induct with
  | case1 => exact .nil
  | case2 a => exact .singleton a
  | case3 a b rest h => rw [forwardLength, if_pos h]; exact .singleton a
  | case4 a b rest h ih =>
    rw [forwardLength, if_neg h, List.take_succ_cons]
    refine List.isChain_cons.2 ⟨fun c hc => ?_, ih⟩
    rw [List.head?_take, if_neg (forwardLength_cons_pos b rest).ne'] at hc
    exact Option.mem_some.1 hc ▸ not_le.1 h

theorem backward_take (log : List Change) : Backward (log.take (backwardLength log)) := by
  induction log using backwardLength.induct with
  | case1 => exact .nil
  | case2 a => exact .singleton a
  | case3 a b rest h => rw [backwardLength, if_pos h]; exact .singleton a
  | case4 a b rest h ih =>
    rw [backwardLength, if_neg h, List.take_succ_cons]
    refine List.isChain_cons.2 ⟨fun c hc => ?_, ih⟩
    rw [List.head?_take, if_neg (backwardLength_cons_pos b rest).ne'] at hc
    exact Option.mem_some.1 hc ▸ not_lt.1 h

/-- The run at the beginning of a log follows its direction. -/
theorem first_ordered (log : List Change) : (first log).Ordered := by
  unfold first
  split
  · exact forward_take log
  · exact backward_take log

/-- What lies before the first hunk stays where it is. -/
theorem position_land_of_lt {hunks : List Hunk} {rest : Text} {i : ℕ}
    (hi : i ≤ (Hunk.oldText hunks ++ rest).length)
    (hlt : ∀ h ∈ hunks.head?, (Hunk.oldText hunks ++ rest).position i < h.gap.extent) :
    (Hunk.newText hunks ++ rest).position (Hunk.land hunks i) =
      (Hunk.oldText hunks ++ rest).position i := by
  cases hunks with
  | nil => rfl
  | cons h hunks =>
    obtain ⟨gap, kind, content, filled⟩ := h
    replace hlt := hlt _ rfl
    obtain ⟨l, hl⟩ : ∃ l, Hunk.oldText (⟨gap, kind, content, filled⟩ :: hunks) ++ rest = gap ++ l := by
      cases kind <;> simp [Hunk.old]
    obtain ⟨l', hl'⟩ : ∃ l, Hunk.newText (⟨gap, kind, content, filled⟩ :: hunks) ++ rest = gap ++ l := by
      cases kind <;> simp [Hunk.new]
    rw [hl] at hi hlt ⊢
    rw [← Text.position_append gap l, Text.position_lt_iff hi (by simp)] at hlt
    have hland : Hunk.land (⟨gap, kind, content, filled⟩ :: hunks) i = i := by
      cases kind with
      | insert => exact if_pos hlt
      | erase => exact if_pos hlt.le
    rw [hl', hland, Text.position_append_left _ hlt.le, Text.position_append_left _ hlt.le]

/-- A forward run leaves alone what lies before its first change, and so does its map. -/
theorem sweepForward_eq {ρ : Type} [Tracked ρ] [LawfulTracked ρ] {changes : List Change}
    {image : Coord → Coord} {ranges : List ρ} (hin : Tracked.InOrder s ranges)
    (hfix : ∀ {c}, s.Valid c → (∀ change ∈ changes.head?, c < change.start) → image c = c)
    (hmove : ∀ {ranges : List ρ}, Tracked.InOrder s ranges →
      Pass.moveAll .forward ⟨.start, changes⟩ ranges = .ok (ranges.map (Tracked.mapEnds image))) :
    sweepForward changes ranges = .ok (ranges.map (Tracked.mapEnds image)) := by
  have hself : ∀ {untouched : List ρ}, Tracked.InOrder s untouched →
      (∀ r ∈ untouched, ∀ change ∈ changes.head?, Tracked.last r < change.start) →
      untouched.map (Tracked.mapEnds image) = untouched := by
    intro untouched hin hlt
    apply Tracked.map_eq_self
    intro r hr
    obtain ⟨hv, hv', hle⟩ := hin.first_le_last hr
    exact ⟨hfix hv fun c hc => lt_of_le_of_lt hle (hlt r hr c hc), hfix hv' (hlt r hr)⟩
  cases changes with
  | nil =>
    rw [hself hin fun _ _ _ hc => by simp at hc]
    rfl
  | cons front changes =>
    have hbisect := forall_take_bisect (p := fun r => decide (Tracked.last r < front.start))
      (hin.pairwise_last.imp fun hle h => decide_eq_true (lt_of_le_of_lt hle (of_decide_eq_true h)))
    unfold sweepForward
    dsimp only
    generalize bisect _ ranges = n at hbisect ⊢
    have htake : (ranges.take n).map (Tracked.mapEnds image) = ranges.take n := by
      apply hself (hin.sublist (List.take_sublist _ _))
      intro r hr change hc
      rw [← Option.mem_some.1 hc]
      exact of_decide_eq_true (hbisect r hr)
    rw [hmove (hin.sublist (List.drop_sublist _ _)), Fault.ok_bind, ← htake, ← List.map_append,
      List.take_append_drop]
    rfl

/-- The run moves the ends of every sorted collection by a map. -/
structure MovesBy (run : Run) (s t : Text) (f : Coord → Coord) : Prop where
  image : Image s t f
  sweep : ∀ {ρ : Type} [Tracked ρ] [LawfulTracked ρ] {ranges : List ρ}, Tracked.InOrder s ranges →
    run.sweep ranges = .ok (ranges.map (Tracked.mapEnds f))

/-- **The map of a run.** -/
theorem exists_movesBy {run : Run} (hr : run.Ordered) (h : Trail s run.changes t)
    (hs : s.size < Text.capacity) :
    ∃ image, run.MovesBy s t image ∧
      ∀ {c}, s.Valid c → c.acrossSteps (steps run.changes) = .ok (image c) := by
  have ht := h.size_lt hs
  obtain ⟨hunks, rest, rfl, rfl, hpending, hacross⟩ := exists_hunks hr h hs
  have hb : ∀ i ≤ (Hunk.oldText hunks ++ rest).length,
      Hunk.land hunks i ≤ (Hunk.newText hunks ++ rest).length := by
    intro i hi
    rw [List.length_append] at hi ⊢
    exact Hunk.land_le hi
  obtain ⟨image, himage, hpos⟩ := Image.exists_of_monotone (Hunk.land_mono hunks) hb
  have hmove : ∀ {ρ : Type} [Tracked ρ] {ranges : List ρ},
      Tracked.InOrder (Hunk.oldText hunks ++ rest) ranges →
      Pass.moveAll run.direction ⟨.start, run.pending⟩ ranges =
        .ok (ranges.map (Tracked.mapEnds image)) := fun hin => by
    rw [hpending]
    -- a pass that starts has nothing behind it
    have hall := Pass.moveAll_eq run.direction (k := 0) (a := []) (b := []) ⟨hs, ht⟩
      rfl rfl hpos (fun i _ => Nat.zero_add _) (fun _ _ _ => Nat.zero_le _) hin
    cases hd : run.direction <;> rw [hd] at hall <;> exact hall
  refine ⟨image, ⟨himage, ?_⟩, ?_⟩
  · intro ρ _ _ ranges hin
    obtain ⟨direction, changes⟩ := run
    cases direction with
    | backward => exact hmove hin
    | forward =>
      -- what the sweep leaves out lies before the first hunk, and there the map does nothing
      refine sweepForward_eq hin (fun {c} hc hlt => ?_) hmove
      obtain ⟨i, hi, rfl⟩ := Text.valid_iff.1 hc
      rw [hpos i hi]
      apply position_land_of_lt hi
      intro h hh
      cases hunks with
      | nil => simp at hh
      | cons h' hunks =>
        rw [← Option.mem_some.1 hh]
        exact hlt _ (by rw [show changes = _ from hpending]; rfl)
  · intro c hc
    obtain ⟨i, hi, rfl⟩ := Text.valid_iff.1 hc
    rw [hacross i hi, hpos i hi]

end Run

/-! ## The log -/

/-- The text behind the run at the beginning of a log. -/
theorem Trail.first {s t : Text} {log : List Change} (h : Trail s log t) :
    ∃ u, Trail s (Run.first log).changes u ∧ Trail u (log.drop (Run.firstLength log)) t := by
  rw [← List.take_append_drop (Run.firstLength log) log, Trail.append_iff] at h
  rwa [Run.first_changes]

/-- Runs that one after the other move everything by the maps that make up a single one. -/
inductive MoveBy : List Run → Text → Text → (Coord → Coord) → Prop
  | nil (s : Text) : MoveBy [] s s fun c => c
  | cons {run runs s t u f g} (hf : Run.MovesBy run s t f) (hg : MoveBy runs t u g) :
    MoveBy (run :: runs) s u (g ∘ f)

namespace MoveBy

variable {runs : List Run} {s t : Text} {f : Coord → Coord}

theorem image (h : MoveBy runs s t f) : Image s t f := by
  induction h with
  | nil s => exact .refl s
  | cons hf _ ih => exact ih.comp hf.image

/-- A sorted collection moved across the runs. -/
theorem foldlM_sweep {ρ : Type} [Tracked ρ] [LawfulTracked ρ] {ranges : List ρ}
    (h : MoveBy runs s t f) (hin : Tracked.InOrder s ranges) :
    runs.foldlM (fun ranges run => run.sweep ranges) ranges =
      .ok (ranges.map (Tracked.mapEnds f)) := by
  induction h generalizing ranges with
  | nil s =>
    rw [Tracked.map_eq_self fun _ _ => ⟨rfl, rfl⟩]
    rfl
  | cons hf _ ih =>
    rw [List.foldlM_cons, hf.sweep hin, Fault.ok_bind, ih (hin.map hf.image),
      Tracked.map_mapEnds hf.image hin]

end MoveBy

/-- **The map of any stretch of the log.** -/
theorem exists_moveBy {s t : Text} {log : List Change} (h : Trail s log t)
    (hs : s.size < Text.capacity) :
    ∃ image, MoveBy (splitRuns log) s t image ∧
      ∀ {c}, s.Valid c → c.acrossSteps (replay log) = .ok (image c) := by
  induction log using splitRuns.induct generalizing s with
  | case1 =>
    cases h
    unfold replay
    rw [splitRuns]
    exact ⟨_, .nil _, fun _ => rfl⟩
  | case2 a rest ih =>
    obtain ⟨u, hu, ht⟩ := h.first
    obtain ⟨f, hf, hacross⟩ := Run.exists_movesBy (Run.first_ordered _) hu hs
    obtain ⟨g, hg, hacross'⟩ := ih ht (hu.size_lt hs)
    rw [Run.first_changes] at hacross
    rw [splitRuns]
    refine ⟨g ∘ f, .cons hf hg, ?_⟩
    intro c hc
    have hthen := hacross' (hf.image.valid hc)
    rw [replay_cons, Coord.acrossSteps_append (hacross hc), hthen]
    rfl

end Caret
