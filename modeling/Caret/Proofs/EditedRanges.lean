import Caret.Proofs.Character
import Caret.Proofs.Update
import Caret.Selection.Edited

/-!
# Edited ranges

The ranges of the text that changed since a timestamp are gathered run by run: those found so far are
moved across the run, and those of its own changes join them, in the coordinates of the text that
the run leads to. At the end ranges that touch become one, and the end of each, which is behind its
last character, becomes that character.

* `Edited.settled_eq`: the changes of a run in the coordinates of the text that it leads to.
* `Edited.Found`: the invariant of the search. `Edited.Found.exists_extend` keeps it across one run,
  `Edited.Found.exists_foldlM_extend` across any number.
* `Edited.Found.exists_joined`, `Edited.Joined.exists_selected`: the steps at the end.
* `Reached.exists_editedRanges`: the selections found are sorted, disjoint and at positions.
-/

namespace Caret

namespace Edited

open Hunk

/-! ## The changes of a run -/

section

variable {a b rest : Text} {h : Hunk} {hunks : List Hunk}

/-- The changes of a backward run, expressed through those in front of them, are logged like the
changes of a forward run. -/
theorem expressAll_eq (hw : Within a b hunks rest) :
    expressAll ⟨b.extent, a.extent⟩ (Hunk.log .backward a hunks) = .ok (Hunk.log .forward b hunks) := by
  induction hunks generalizing a b with
  | nil => rfl
  | cons h hunks ih =>
    have hrest := ih hw.tail
    rw [log_cons, log_cons, side_backward, side_forward, expressAll, express_viewed hw,
      Fault.ok_bind, feed_viewed hw, Fault.ok_bind, hrest, Fault.ok_bind, Fault.pure_eq_ok]

/-- **The changes of a run**, whichever direction it has, in the coordinates of the text that it leads
to. -/
theorem settled_eq {run : Run} (hw : Within [] [] hunks rest)
    (hpending : run.pending = Hunk.log run.direction [] hunks) :
    settled run = .ok (Hunk.log .forward [] hunks) := by
  obtain ⟨direction, changes⟩ := run
  cases direction with
  | forward => exact congrArg Except.ok hpending
  | backward =>
    have hexpress := expressAll_eq hw
    rw [← show changes.reverse = Hunk.log .backward [] hunks from hpending] at hexpress
    exact hexpress

/-- What a hunk leaves in the text: the stretch from the end of its gap to the end of its new
text. -/
theorem range_viewed (b : Text) (h : Hunk) :
    range (h.viewed b) = { anchor := (b ++ h.gap).extent, cursor := (b ++ h.new).extent } := by
  obtain ⟨gap, kind, content, filled⟩ := h
  cases kind with
  | insert => simp [range, viewed, new]
  | erase => rfl

end

/-! ## Ranges found so far -/

/-- A selection at positions of the text, its anchor first. -/
structure Upright (t : Text) (s : Selection) : Prop where
  valid : s.ValidIn t
  forward : s.anchor ≤ s.cursor

/-- **The invariant of the search.** Ranges at positions of the text, apart from each other. -/
structure Found (t : Text) (ranges : List Selection) : Prop where
  upright : ∀ s ∈ ranges, Upright t s
  apart : ranges.Pairwise fun a b => a.high < b.low

/-- Every selection of a list is inside of one of another list. -/
def Inside (spans ranges : List Selection) : Prop :=
  ∀ s ∈ spans, ∃ e ∈ ranges, s.extent.Inside e.extent

namespace Upright

variable {s t : Text} {r r' : Selection} {f : Coord → Coord}

theorem low_eq (h : Upright t r) : r.low = r.anchor := min_eq_left h.forward

theorem high_eq (h : Upright t r) : r.high = r.cursor := max_eq_right h.forward

theorem cover (h : Upright t r) (h' : Upright t r') : Upright t (r.cover r') := by
  have hle : min r.low r'.low ≤ max r.high r'.high :=
    min_le_of_left_le (r.low_le_high.trans (le_max_left _ _))
  refine ⟨h.valid.cover h'.valid, ?_⟩
  rw [Selection.cover, Selection.withEnds_of_forward h.forward]
  exact hle

theorem mapEnds (hf : Image s t f) (h : Upright s r) : Upright t (Tracked.mapEnds f r) := by
  have hle : f r.low ≤ f r.high := hf.mono r.low_le_high
  refine ⟨Selection.validIn_withEnds (hf.valid h.valid.low) (hf.valid h.valid.high), ?_⟩
  show (r.withEnds (f r.low) (f r.high)).anchor ≤ (r.withEnds (f r.low) (f r.high)).cursor
  rw [Selection.withEnds_of_forward h.forward]
  exact hle

end Upright

/-- The ranges of hunks, over the text behind a beginning `b`. -/
theorem range_log (b : Text) (hunks : List Hunk) (rest : Text) :
    (∀ s ∈ (Hunk.log .forward b hunks).map range,
      Upright (b ++ newText hunks ++ rest) s ∧ b.extent ≤ s.low) ∧
    ((Hunk.log .forward b hunks).map range).Pairwise fun s s' => s.high ≤ s'.low := by
  induction hunks generalizing b with
  | nil => exact ⟨by simp [Hunk.log], .nil⟩
  | cons h hunks ih =>
    obtain ⟨hall, hpair⟩ := ih (b ++ h.new)
    obtain ⟨l, hl⟩ : ∃ l, h.new = h.gap ++ l := by
      cases hk : h.kind <;> simp [new, hk]
    have htext : b ++ newText (h :: hunks) ++ rest = b ++ h.new ++ newText hunks ++ rest := by simp
    have hgap : (b ++ h.gap).extent ≤ (b ++ h.new).extent := by
      rw [hl, ← List.append_assoc]
      exact Text.extent_le_append _ l
    have hfirst : Upright (b ++ newText (h :: hunks) ++ rest)
        { anchor := (b ++ h.gap).extent, cursor := (b ++ h.new).extent } := by
      refine ⟨⟨?_, ?_⟩, hgap⟩
      · rw [htext, hl, ← List.append_assoc, List.append_assoc (b ++ h.gap),
          List.append_assoc (b ++ h.gap)]
        exact Text.valid_extent_append _ _
      · rw [htext, List.append_assoc]
        exact Text.valid_extent_append _ _
    rw [log_cons, List.map_cons, range_viewed]
    refine ⟨List.forall_mem_cons.2 ⟨⟨hfirst, ?_⟩, ?_⟩, List.pairwise_cons.2 ⟨?_, hpair⟩⟩
    · rw [hfirst.low_eq]
      exact Text.extent_le_append b h.gap
    · intro s hs
      obtain ⟨hs, hle⟩ := hall s hs
      exact ⟨htext ▸ hs, (Text.extent_le_append b h.new).trans hle⟩
    · intro s hs
      rw [hfirst.high_eq]
      exact (hall s hs).2

/-- What a run adds to the ranges: those of its changes, as many as it has, at positions of the text
that it leads to and in order. -/
structure Adds (run : Run) (t : Text) (added : List Change) : Prop where
  settled : settled run = .ok added
  upright : ∀ r ∈ added.map range, Upright t r
  sorted : (added.map range).Pairwise fun a b => a.high ≤ b.low
  length_eq : added.length = run.changes.length

theorem exists_adds {s t : Text} {run : Run} (hr : run.Ordered) (h : Trail s run.changes t)
    (hs : s.size < Text.capacity) : ∃ added, Adds run t added := by
  have ht := h.size_lt hs
  obtain ⟨hunks, rest, rfl, rfl, hpending, -⟩ := run.exists_hunks hr h hs
  obtain ⟨hranges, hsorted⟩ := range_log [] hunks rest
  have hlength : run.pending.length = run.changes.length := by
    unfold Run.pending
    split
    · rfl
    · exact List.length_reverse
  have hw : Within [] [] hunks rest := ⟨hs, ht⟩
  refine ⟨_, settled_eq hw hpending, fun r hr => (hranges r hr).1, hsorted, ?_⟩
  rw [← hlength, hpending, length_log, length_log]

theorem inOrder_of_pairwise {ranges : List Selection}
    (h : ranges.Pairwise fun a b => a.high ≤ b.low) : inOrder ranges = true := by
  induction ranges with
  | nil => rfl
  | cons a ranges ih =>
    obtain ⟨hfirst, hrest⟩ := List.pairwise_cons.1 h
    cases ranges with
    | nil => rfl
    | cons b ranges =>
      have hab : a.high ≤ b.low := hfirst b List.mem_cons_self
      have hlow : a.low ≤ b.low := a.low_le_high.trans hab
      have hle : a.le b = true := by
        rw [Selection.le_iff]
        rcases hlow.lt_or_eq with hlt | heq
        · exact .inl hlt
        · exact .inr ⟨heq, hab.trans b.low_le_high⟩
      rw [inOrder, hle, ih hrest]
      rfl

namespace Found

variable {s t : Text} {ranges : List Selection} {run : Run} {f : Coord → Coord}

theorem nil (t : Text) : Found t [] := ⟨by simp, .nil⟩

theorem settled (h : Found t ranges) : Selections.Settled t ⟨ranges, 0⟩ :=
  ⟨fun r hr => (h.upright r hr).valid, List.pairwise_map.2 h.apart⟩

/-- Merging sorted ranges. -/
theorem of_sorted (hu : ∀ r ∈ ranges, Upright t r) (hs : ranges.Pairwise fun a b => a.low ≤ b.low) :
    Found t (mergeOverlapping ranges) ∧ Inside ranges (mergeOverlapping ranges) := by
  have hcovers := Selections.covers_mergeOverlapping (g := ⟨ranges, 0⟩) hs
  refine ⟨⟨Selections.forall_mergeOverlapping (fun _ _ => Upright.cover) hu,
    List.pairwise_map.1 hcovers.apart⟩, ?_⟩
  intro r hr
  obtain ⟨span, hspan, hin⟩ := hcovers.inside r.extent (List.mem_map_of_mem hr)
  obtain ⟨e, he, rfl⟩ := List.mem_map.1 hspan
  exact ⟨e, he, hin⟩

/-- **One run more.** The ranges found before it are inside of those found then, moved across the run,
and so are those of its changes. -/
theorem exists_extend {added : List Change} (h : Found s ranges) (hf : run.MovesBy s t f)
    (ha : Adds run t added) :
    ∃ ranges', extend ranges run = .ok ranges' ∧ Found t ranges' ∧
      Inside (ranges.map (Tracked.mapEnds f)) ranges' ∧ Inside (added.map range) ranges' := by
  have hsorted : inOrder ranges = true := inOrder_of_pairwise (h.apart.imp fun hlt => hlt.le)
  have hmoved : run.sweep ranges = .ok (ranges.map (Tracked.mapEnds f)) := hf.sweep h.settled.inOrder
  obtain ⟨hfound, hinside⟩ := of_sorted (t := t) (List.forall_mem_map.2 fun r hr =>
    (h.upright r hr).mapEnds hf.image) (h.settled.sorted_map hf.image.mono)
  generalize hmerged : mergeOverlapping (ranges.map (Tracked.mapEnds f)) = merged at hfound hinside
  -- both kinds of ranges, sorted together
  have hperm := List.mergeSort_perm (merged ++ added.map range) Selection.le
  have hall : ∀ r ∈ (merged ++ added.map range).mergeSort Selection.le, Upright t r := by
    intro r hr
    rcases List.mem_append.1 (hperm.mem_iff.1 hr) with hr | hr
    · exact hfound.upright r hr
    · exact ha.upright r hr
  have horder := (@List.pairwise_mergeSort _ Selection.le (fun _ _ _ => Selection.le_of_le_of_le)
    Selection.le_or_le (merged ++ added.map range)).imp fun {a b} hab => Selection.low_le_of_le hab
  obtain ⟨hfound', hinside'⟩ := of_sorted hall horder
  refine ⟨_, ?_, hfound', ?_, ?_⟩
  · rw [extend, Fault.unless_of hsorted, Fault.ok_bind, hmoved, Fault.ok_bind, ha.settled,
      Fault.ok_bind]
    dsimp only
    rw [Fault.unless_of (inOrder_of_pairwise ha.sorted), Fault.ok_bind, hmerged, Fault.pure_eq_ok]
  · intro r hr
    obtain ⟨e, he, hin⟩ := hinside r hr
    obtain ⟨e', he', hin'⟩ := hinside' e (hperm.mem_iff.2 (List.mem_append_left _ he))
    exact ⟨e', he', hin.trans hin'⟩
  · intro r hr
    exact hinside' r (hperm.mem_iff.2 (List.mem_append_right _ hr))

/-- **Any number of runs.** -/
theorem exists_foldlM_extend {log : List Change} (h : Found s ranges) (ht : Trail s log t)
    (hs : s.size < Text.capacity) :
    ∃ ranges', (splitRuns log).foldlM extend ranges = .ok ranges' ∧ Found t ranges' ∧
      (ranges' = [] ↔ ranges = [] ∧ log = []) := by
  induction log using splitRuns.induct generalizing s ranges with
  | case1 =>
    obtain rfl : s = t := ht
    rw [splitRuns]
    exact ⟨ranges, rfl, h, by simp⟩
  | case2 a rest ih =>
    obtain ⟨u, hu, ht⟩ := ht.first
    have hr := Run.first_ordered (a :: rest)
    obtain ⟨f, hf, -⟩ := Run.exists_movesBy hr hu hs
    obtain ⟨added, ha⟩ := exists_adds hr hu hs
    obtain ⟨next, hnext, hfound, -, hinside⟩ := h.exists_extend hf ha
    obtain ⟨ranges', hfold, hfound', hiff⟩ := ih hfound ht (hu.size_lt hs)
    -- a run has a first change, and the range of this one is inside of a range
    have hne : next ≠ [] := by
      have hlength := ha.length_eq
      rw [Run.first_changes, List.length_take, List.length_cons] at hlength
      have hpos := Run.firstLength_cons_pos a rest
      obtain ⟨change, hchange⟩ := List.exists_mem_of_length_pos (l := added) (by omega)
      obtain ⟨e, he, -⟩ := hinside _ (List.mem_map_of_mem hchange)
      exact List.ne_nil_of_mem he
    refine ⟨ranges', ?_, hfound', by simp [hiff, hne]⟩
    rw [splitRuns, List.foldlM_cons, hnext, Fault.ok_bind, hfold]

theorem map_bounded (h : Found t ranges) : ranges.map (bounded t.endCoord) = ranges := by
  have hself : ∀ r ∈ ranges, bounded t.endCoord r = r := by
    intro r hr
    obtain ⟨hanchor, hcursor⟩ := (h.upright r hr).valid
    rw [bounded, t.endCoord_eq, min_eq_left hanchor.le_extent, min_eq_left hcursor.le_extent]
  rw [List.map_congr_left hself, List.map_id']

end Found

/-! ## Ranges that touch -/

/-- Behind the first selection there is a character that does not belong to the second. -/
def Spaced (t : Text) (a b : Selection) : Prop :=
  ∃ i ≤ t.length, a.high = t.position i ∧ t.position (i + 1) < b.low

/-- **Ranges joined where they touch.** -/
structure Joined (t : Text) (ranges merged : List Selection) : Prop where
  upright : ∀ r ∈ merged, Upright t r
  spaced : merged.Pairwise (Spaced t)
  inside : Inside ranges merged
  low_mem : ∀ e ∈ merged, ∃ r ∈ ranges, r.low = e.low

section

variable {t : Text} {a b : Selection} {i : ℕ}

theorem touches_eq (hs : t.size < Text.capacity) (hi : i ≤ t.length) (ha : a.high = t.position i)
    (hb : t.Valid b.low) : touches t a b = .ok (decide (b.low ≤ t.position (i + 1))) := by
  unfold touches
  split
  · rename_i hend
    have hlength : t.length ≤ i := by
      rw [ha, t.endCoord_eq, ← t.position_length] at hend
      exact (Text.position_le_iff le_rfl hi).1 hend.ge
    have hle : b.low ≤ t.position (i + 1) := by
      rw [Text.position_of_le (Nat.le_succ_of_le hlength)]
      exact hb.le_extent
    rw [decide_eq_true hle]
  · rw [ha, Text.nextCoord_position hs hi, Fault.ok_bind, Fault.pure_eq_ok]

/-- The first two ranges made one. -/
theorem Found.cover {r : Selection} {ranges : List Selection} (h : Found t (a :: r :: ranges)) :
    Found t (a.cover r :: ranges) := by
  obtain ⟨hupright, hapart⟩ := h
  obtain ⟨ha, hupright⟩ := List.forall_mem_cons.1 hupright
  obtain ⟨hr, hupright⟩ := List.forall_mem_cons.1 hupright
  obtain ⟨har, hapart⟩ := List.pairwise_cons.1 hapart
  obtain ⟨hrest, hapart⟩ := List.pairwise_cons.1 hapart
  have hlt : a.high < r.low := har r List.mem_cons_self
  have hhigh : (a.cover r).high = r.high := by
    rw [Selection.cover_high, max_eq_right (hlt.le.trans r.low_le_high)]
  refine ⟨List.forall_mem_cons.2 ⟨ha.cover hr, hupright⟩, List.pairwise_cons.2 ⟨?_, hapart⟩⟩
  rwa [hhigh]

/-- A range that joins the one in front of it. -/
theorem Joined.of_cover {r : Selection} {ranges merged : List Selection} (hle : a.low ≤ r.low)
    (h : Joined t (a.cover r :: ranges) merged) : Joined t (a :: r :: ranges) merged := by
  obtain ⟨hupright, hspaced, hinside, hlows⟩ := h
  obtain ⟨⟨e, he, hin⟩, hinside⟩ := List.forall_mem_cons.1 hinside
  have hlow : (a.cover r).low = a.low := by rw [Selection.cover_low, min_eq_left hle]
  refine ⟨hupright, hspaced, ?_, ?_⟩
  · exact List.forall_mem_cons.2 ⟨⟨e, he, .trans (Selection.inside_cover_left _ _) hin⟩,
      List.forall_mem_cons.2 ⟨⟨e, he, .trans (Selection.inside_cover_right _ _) hin⟩, hinside⟩⟩
  · intro e he
    obtain ⟨r', hr', heq⟩ := hlows e he
    rcases List.mem_cons.1 hr' with rfl | hr'
    · exact ⟨_, List.mem_cons_self, hlow.symm.trans heq⟩
    · exact ⟨r', List.mem_cons_of_mem _ (List.mem_cons_of_mem _ hr'), heq⟩

/-- A range with a character behind it that belongs to none of the others. -/
theorem Joined.cons {ranges merged : List Selection} (ha : Upright t a) (hi : i ≤ t.length)
    (hhigh : a.high = t.position i) (hgap : ∀ r ∈ ranges, t.position (i + 1) < r.low)
    (h : Joined t ranges merged) : Joined t (a :: ranges) (a :: merged) := by
  obtain ⟨hupright, hspaced, hinside, hlows⟩ := h
  refine ⟨List.forall_mem_cons.2 ⟨ha, hupright⟩, List.pairwise_cons.2 ⟨?_, hspaced⟩,
    List.forall_mem_cons.2 ⟨⟨a, List.mem_cons_self, le_rfl, le_rfl⟩, ?_⟩,
    List.forall_mem_cons.2 ⟨⟨a, List.mem_cons_self, rfl⟩, ?_⟩⟩
  · intro e he
    obtain ⟨r, hr, heq⟩ := hlows e he
    exact ⟨i, hi, hhigh, heq ▸ hgap r hr⟩
  · intro r hr
    obtain ⟨e, he, hin⟩ := hinside r hr
    exact ⟨e, List.mem_cons_of_mem a he, hin⟩
  · intro e he
    obtain ⟨r, hr, heq⟩ := hlows e he
    exact ⟨r, List.mem_cons_of_mem a hr, heq⟩

theorem exists_join {c : Cover} {ranges : List Selection} (hs : t.size < Text.capacity)
    (h : Found t (c.selection :: ranges)) :
    ∃ covers, Cover.join (touches t) c ranges = .ok covers ∧
      Joined t (c.selection :: ranges) (covers.map Cover.selection) := by
  -- `c` is the range that is open: the next one joins it, or closes it and opens another
  induction ranges generalizing c with
  | nil =>
    refine ⟨[c], rfl, h.upright, List.pairwise_singleton _ _, fun r hr => ⟨r, hr, le_rfl, le_rfl⟩,
      fun r hr => ⟨r, hr, rfl⟩⟩
  | cons r ranges ih =>
    obtain ⟨hc, hupright⟩ := List.forall_mem_cons.1 h.upright
    obtain ⟨hcr, hapart⟩ := List.pairwise_cons.1 h.apart
    have hlt : c.selection.high < r.low := hcr r List.mem_cons_self
    obtain ⟨i, hi, hhigh⟩ := Text.valid_iff.1 hc.valid.high
    rw [Cover.join, touches_eq hs hi hhigh (hupright r List.mem_cons_self).valid.low, Fault.ok_bind]
    by_cases htouch : r.low ≤ t.position (i + 1)
    · obtain ⟨covers, hjoin, hjoined⟩ := ih (c := ⟨c.selection.cover r, c.size + 1⟩) h.cover
      rw [if_pos (decide_eq_true htouch)]
      exact ⟨covers, hjoin, hjoined.of_cover (c.selection.low_le_high.trans hlt.le)⟩
    · obtain ⟨covers, hjoin, hjoined⟩ := ih (c := ⟨r, 1⟩) ⟨hupright, hapart⟩
      rw [if_neg (by simpa using htouch), hjoin, Fault.ok_bind, Fault.pure_eq_ok]
      refine ⟨c :: covers, rfl, hjoined.cons hc hi hhigh ?_⟩
      -- what follows `r` lies behind it
      have hgap : t.position (i + 1) < r.low := not_le.1 htouch
      refine List.forall_mem_cons.2 ⟨hgap, fun r' hr' => ?_⟩
      have hlt' : r.high < r'.low := (List.pairwise_cons.1 hapart).1 r' hr'
      exact hgap.trans_le (r.low_le_high.trans hlt'.le)

theorem Found.exists_joined {ranges : List Selection} (hs : t.size < Text.capacity)
    (h : Found t ranges) :
    ∃ merged, Selections.mergeBy (touches t) ⟨ranges, 0⟩ = .ok merged ∧
      Joined t ranges merged.items := by
  cases ranges with
  | nil => exact ⟨_, rfl, by simp, .nil, by simp [Inside], by simp⟩
  | cons r ranges =>
    obtain ⟨covers, hjoin, hjoined⟩ := exists_join (c := ⟨r, 1⟩) hs h
    refine ⟨⟨covers.map Cover.selection, Cover.indexOf covers 0⟩, ?_, hjoined⟩
    rw [Selections.mergeBy, Cover.joinAll, hjoin, Fault.ok_bind, Fault.pure_eq_ok]

theorem Joined.eq_nil_iff {ranges merged : List Selection} (h : Joined t ranges merged) :
    merged = [] ↔ ranges = [] := by
  constructor
  · rintro rfl
    refine List.eq_nil_iff_forall_not_mem.2 fun r hr => ?_
    obtain ⟨e, he, -⟩ := h.inside r hr
    exact List.not_mem_nil he
  · rintro rfl
    refine List.eq_nil_iff_forall_not_mem.2 fun e he => ?_
    obtain ⟨r, hr, -⟩ := h.low_mem e he
    exact List.not_mem_nil hr

end

/-! ## Selecting characters -/

/-- The number of the last character that is selected for a range from position `i` to position `j`, in
a text of `n` characters. -/
def lastNumber (n i j : ℕ) : ℕ :=
  if min i (n - 1) = min j (n - 1) then min j (n - 1) else min j (n - 1) - 1

/-- **The selection of a range.** Ends at the end of the text go back to its last character. Then the
end of the range goes back once more, to the last character of the range, unless this leaves
nothing. -/
def Selects (t : Text) (r s : Selection) : Prop :=
  ∃ i j, i ≤ j ∧ j ≤ t.length ∧ r.low = t.position i ∧ r.high = t.position j ∧
    s.low = t.position (min i (t.length - 1)) ∧ s.high = t.position (lastNumber t.length i j) ∧
    Upright t s

section

variable {t : Text} {r r' s s' : Selection}

theorem lastNumber_le {n i j : ℕ} : lastNumber n i j ≤ j := by
  unfold lastNumber
  split <;> omega

theorem le_lastNumber {n i j : ℕ} (hij : i ≤ j) : min i (n - 1) ≤ lastNumber n i j := by
  unfold lastNumber
  split <;> omega

/-- An end at the end of the text goes back to its last character. -/
theorem isEnd_position {k : ℕ} (hk : k ≤ t.length) :
    (if t.isEnd (t.position k) then t.position (t.length - 1) else t.position k) =
      t.position (min k (t.length - 1)) := by
  have hiff : t.isEnd (t.position k) = true ↔ t.length ≤ k := by
    rw [Text.isEnd, decide_eq_true_iff, t.endCoord_eq, ← t.position_length,
      Text.position_le_iff le_rfl hk]
  split
  · rename_i hlast
    have hle := hiff.1 hlast
    rw [min_eq_right (by omega)]
  · rename_i hlast
    have hlt := mt hiff.2 hlast
    rw [min_eq_left (by omega)]

theorem exists_select (hs : t.size < Text.capacity) (h : Upright t r) :
    ∃ s, select t r = .ok s ∧ Selects t r s := by
  obtain ⟨i, hi, hanchor⟩ := Text.valid_iff.1 h.valid.1
  obtain ⟨j, hj, hcursor⟩ := Text.valid_iff.1 h.valid.2
  have hij : i ≤ j := (Text.position_le_iff hi hj).1 (hanchor ▸ hcursor ▸ h.forward)
  have hvalid : SelectionList.endsValid t r = true := by
    rw [SelectionList.endsValid, decide_eq_true h.valid.1, decide_eq_true h.valid.2]
    rfl
  have hend : t.previousCoord t.endCoord = .ok (t.position (t.length - 1)) := by
    rw [t.endCoord_eq, ← t.position_length, Text.previousCoord_position hs le_rfl]
  have hfirst : min i (t.length - 1) ≤ t.length := (min_le_left _ _).trans hi
  have hlast : min j (t.length - 1) ≤ t.length := (min_le_left _ _).trans hj
  have hselect : select t r = .ok { r with
      anchor := t.position (min i (t.length - 1))
      cursor := t.position (lastNumber t.length i j) } := by
    rw [select, Fault.unless_of hvalid, Fault.ok_bind, hend, Fault.ok_bind, hanchor, hcursor]
    dsimp only
    rw [isEnd_position hi, isEnd_position hj, lastNumber]
    have hiff := Text.position_inj hfirst hlast
    by_cases heq : min i (t.length - 1) = min j (t.length - 1)
    · rw [if_pos (hiff.2 heq), if_pos heq, Fault.pure_eq_ok]
    · rw [if_neg (mt hiff.1 heq), if_neg heq, Text.previousCoord_position hs hlast, Fault.ok_bind,
        Fault.pure_eq_ok]
  have hle : lastNumber t.length i j ≤ t.length := lastNumber_le.trans hj
  have hupright : Upright t { r with
      anchor := t.position (min i (t.length - 1))
      cursor := t.position (lastNumber t.length i j) } :=
    ⟨⟨Text.valid_position hfirst, Text.valid_position hle⟩,
      (Text.position_le_iff hfirst hle).2 (le_lastNumber hij)⟩
  exact ⟨_, hselect, i, j, hij, hj, h.low_eq.trans hanchor, h.high_eq.trans hcursor, hupright.low_eq,
    hupright.high_eq, hupright⟩

/-- Ranges that do not touch, in numbers. -/
theorem Spaced.succ_lt {j k : ℕ} (h : Spaced t r r') (hj : j ≤ t.length) (hk : k ≤ t.length)
    (hhigh : r.high = t.position j) (hlow : r'.low = t.position k) : j + 1 < k := by
  obtain ⟨m, hm, hmhigh, hgap⟩ := h
  have hjm : j ≤ m := (Text.position_le_iff hj hm).1 (hhigh.symm.trans hmhigh).le
  rw [hlow] at hgap
  rcases hm.eq_or_lt with rfl | hlt
  · -- nothing lies behind the end
    rw [Text.position_of_le (Nat.le_succ _)] at hgap
    exact absurd (Text.valid_position hk).le_extent (not_le.2 hgap)
  · have hmk := (Text.position_lt_iff hlt hk).1 hgap
    omega

/-- The selections of ranges that do not touch are disjoint. -/
theorem Selects.high_lt_low (h : Selects t r s) (h' : Selects t r' s') (hsp : Spaced t r r') :
    s.high < s'.low := by
  obtain ⟨i, j, hij, hj, -, hhigh, -, hshigh, -⟩ := h
  obtain ⟨k, l, hkl, hl, hlow, -, hslow, -, -⟩ := h'
  have hjk := hsp.succ_lt hj (hkl.trans hl) hhigh hlow
  have hlast : lastNumber t.length i j ≤ j := lastNumber_le
  rw [hshigh, hslow]
  exact Text.position_lt (by omega) (by omega)

end

/-- **The selections of ranges**, one for each. -/
structure Selected (t : Text) (merged selected : List Selection) : Prop where
  length_eq : selected.length = merged.length
  exists_range : ∀ s ∈ selected, ∃ r ∈ merged, Selects t r s
  exists_selection : ∀ r ∈ merged, ∃ s ∈ selected, Selects t r s
  disjoint : selected.Pairwise fun a b => a.high < b.low

theorem Joined.exists_selected {t : Text} {ranges merged : List Selection}
    (h : Joined t ranges merged) (hs : t.size < Text.capacity) :
    ∃ selected, merged.mapM (select t) = .ok selected ∧ Selected t merged selected := by
  have hanswers : ∀ r ∈ merged, ∃ s, select t r = .ok s ∧ Selects t r s := fun r hr =>
    exists_select hs (h.upright r hr)
  have hselects : ∀ {r s}, r ∈ merged → select t r = .ok s → Selects t r s := by
    intro r s hr hselect
    obtain ⟨s', hs', hselects⟩ := hanswers r hr
    rw [hselect, Except.ok.injEq] at hs'
    exact hs' ▸ hselects
  obtain ⟨selected, hselect, hmap⟩ := Fault.exists_mapM_eq_ok fun r hr =>
    (hanswers r hr).imp fun _ hs => hs.1
  refine ⟨selected, hselect, by simpa using congrArg List.length hmap, ?_, ?_, ?_⟩
  · intro s hmem
    have hok : .ok s ∈ merged.map (select t) := hmap ▸ List.mem_map_of_mem hmem
    obtain ⟨r, hr, hs⟩ := List.mem_map.1 hok
    exact ⟨r, hr, hselects hr hs⟩
  · intro r hr
    have hok : select t r ∈ selected.map Except.ok := hmap ▸ List.mem_map_of_mem hr
    obtain ⟨s, hmem, hs⟩ := List.mem_map.1 hok
    exact ⟨s, hmem, hselects hr hs.symm⟩
  · have hpair : (selected.map (Except.ok (ε := Fault))).Pairwise fun x y =>
        ∀ a b, x = .ok a → y = .ok b → a.high < b.low := by
      rw [hmap, List.pairwise_map]
      refine h.spaced.imp_of_mem fun {r r'} hr hr' hsp a b ha hb => ?_
      exact (hselects hr ha).high_lt_low (hselects hr' hb) hsp
    rw [List.pairwise_map] at hpair
    exact hpair.imp fun hab => hab _ _ rfl rfl

/-- **The search**, from the ranges of the runs on. -/
theorem Found.exists_selected {b : Buffer} {timestamp : ℕ} {log : List Change}
    {ranges : List Selection} (h : Found b.text ranges) (hs : b.text.size < Text.capacity)
    (hlog : b.logSince timestamp = .ok log)
    (hfold : (splitRuns log).foldlM extend [] = .ok ranges) :
    ∃ merged selected, b.editedRanges timestamp = .ok selected ∧ Joined b.text ranges merged ∧
      Selected b.text merged selected := by
  obtain ⟨merged, hmerge, hjoined⟩ := h.exists_joined hs
  obtain ⟨selected, hselect, hselected⟩ := hjoined.exists_selected hs
  refine ⟨merged.items, selected, ?_, hjoined, hselected⟩
  rw [Buffer.editedRanges, hlog, Fault.ok_bind, hfold, Fault.ok_bind]
  dsimp only
  rw [h.map_bounded, hmerge, Fault.ok_bind, hselect]

end Edited

/-- **Edited ranges are well formed.** For every buffer that edits, undo and redo lead to, and every
timestamp that is not later than now, the search answers. It finds nothing just when nothing was
logged since. The selections it finds are forward, their ends are positions of the text, and each
ends before the next one begins. -/
theorem Reached.exists_editedRanges {origin : Text} {d : Draft} {timestamp : ℕ}
    (h : Reached origin d) (hn : timestamp ≤ d.buffer.timestamp) :
    ∃ ranges, d.buffer.editedRanges timestamp = .ok ranges ∧
      (ranges = [] ↔ timestamp = d.buffer.timestamp) ∧
      (∀ s ∈ ranges, s.anchor ≤ s.cursor ∧ s.ValidIn d.buffer.text) ∧
      ranges.Pairwise fun a b => a.high < b.low := by
  have hc := h.chronicle
  obtain ⟨ranges, hfold, hfound, hnil⟩ := (Edited.Found.nil _).exists_foldlM_extend
    (hc.trail_since hn) (hc.small timestamp hn)
  obtain ⟨merged, selected, hedited, hjoined, hselected⟩ :=
    hfound.exists_selected hc.size_lt (Buffer.logSince_eq hn) hfold
  refine ⟨selected, hedited, ?_, ?_, hselected.disjoint⟩
  · have hempty : selected = [] ↔ merged = [] := by
      rw [← List.length_eq_zero_iff, hselected.length_eq, List.length_eq_zero_iff]
    rw [hempty, hjoined.eq_nil_iff, hnil, List.drop_eq_nil_iff]
    exact ⟨fun hle => le_antisymm hn hle.2, fun heq => ⟨rfl, heq.ge⟩⟩
  · intro s hs
    obtain ⟨r, -, i, j, -, -, -, -, -, -, hupright⟩ := hselected.exists_range s hs
    exact ⟨hupright.forward, hupright.valid⟩

theorem Reached.exists_editedRanges_sample :
    ∃ ranges, Reached.sample.buffer.editedRanges 1 = .ok ranges ∧ ranges ≠ [] ∧
      ranges.Pairwise fun a b => a.high < b.low := by
  have htime : 1 ≤ Reached.sample.buffer.timestamp := by decide
  obtain ⟨ranges, hranges, hnil, -, hdisjoint⟩ := Reached.exists_editedRanges Reached.of_script htime
  exact ⟨ranges, hranges, mt hnil.1 (by decide), hdisjoint⟩

end Caret
