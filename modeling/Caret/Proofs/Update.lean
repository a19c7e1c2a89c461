import Caret.Proofs.Cover

/-!
# Catching up

A selection list that catches up with merging normalizes its selections, and then moves and merges
them run by run. All that counts for the outcome is the map of the log.

* `Selections.Settled`: selections at positions of a text that lie apart.
* `Selections.Follows.foldlM_sweep`: settled selections moved and merged across any number of runs.
* `SelectionList.update_true_eq`: catching up with merging in terms of the map of the log.
-/

namespace Caret

namespace Selection

variable {s s' : Selection} {t u : Text} {f : Coord → Coord}

/-! What holds at both ends holds at both ends of all selections that are made of them. -/

section

variable {p : Coord → Prop} {low high : Coord}

theorem low_of_ends (h : p s.anchor ∧ p s.cursor) : p s.low := by
  unfold Selection.low
  rcases min_choice s.anchor s.cursor with hm | hm <;> rw [hm]
  · exact h.1
  · exact h.2

theorem high_of_ends (h : p s.anchor ∧ p s.cursor) : p s.high := by
  unfold Selection.high
  rcases max_choice s.anchor s.cursor with hm | hm <;> rw [hm]
  · exact h.1
  · exact h.2

theorem ends_withEnds (hl : p low) (hh : p high) :
    p (s.withEnds low high).anchor ∧ p (s.withEnds low high).cursor := by
  unfold withEnds
  split
  · exact ⟨hl, hh⟩
  · exact ⟨hh, hl⟩

theorem ends_cover (h : p s.anchor ∧ p s.cursor) (h' : p s'.anchor ∧ p s'.cursor) :
    p (s.cover s').anchor ∧ p (s.cover s').cursor := by
  refine ends_withEnds ?_ ?_
  · rcases min_choice s.low s'.low with hm | hm <;> rw [hm]
    · exact low_of_ends h
    · exact low_of_ends h'
  · rcases max_choice s.high s'.high with hm | hm <;> rw [hm]
    · exact high_of_ends h
    · exact high_of_ends h'

end

theorem ValidIn.low (h : s.ValidIn t) : t.Valid s.low := low_of_ends h

theorem ValidIn.high (h : s.ValidIn t) : t.Valid s.high := high_of_ends h

theorem validIn_withEnds {low high : Coord} (hl : t.Valid low) (hh : t.Valid high) :
    (s.withEnds low high).ValidIn t := ends_withEnds hl hh

theorem ValidIn.cover (h : s.ValidIn t) (h' : s'.ValidIn t) : (s.cover s').ValidIn t := ends_cover h h'

theorem extent_mapEnds (hf : Monotone f) (s : Selection) :
    (Tracked.mapEnds f s).extent = s.extent.map f := by
  have hle : f s.low ≤ f s.high := hf s.low_le_high
  exact congrArg₂ Span.mk (withEnds_low s hle) (withEnds_high s hle)

theorem extent_mapCoords (hf : Monotone f) (s : Selection) :
    (s.mapCoords f).extent = s.extent.map f :=
  congrArg₂ Span.mk hf.map_min.symm hf.map_max.symm

end Selection

namespace Selections

variable {g : Selections} {s t : Text} {f : Coord → Coord}

theorem validIn_mergeOverlapping (h : ∀ s ∈ g.items, s.ValidIn t) :
    ∀ s ∈ g.mergeOverlapping.items, s.ValidIn t :=
  forall_mergeOverlapping (fun _ _ => Selection.ValidIn.cover) h

theorem check_eq_ok_iff : g.check = .ok () ↔ g.main < g.items.length := by
  unfold check
  rw [Fault.bind_eq_ok]
  constructor
  · rintro ⟨-, -, h⟩
    exact Fault.unless_eq_ok_iff.1 h
  · intro h
    exact ⟨(), Fault.unless_of (List.ne_nil_of_length_pos (Nat.zero_lt_of_lt h)), Fault.unless_of h⟩

/-- **The invariant of catching up with merging.** All selections are at positions of the text, and
they lie apart from each other. -/
structure Settled (t : Text) (g : Selections) : Prop where
  valid : ∀ s ∈ g.items, s.ValidIn t
  apart : Span.Apart g.extents

theorem settled_normalize (h : ∀ s ∈ g.items, s.ValidIn t) : g.normalize.Settled t :=
  ⟨validIn_mergeOverlapping fun s hs => h s (g.sort_perm.mem_iff.1 hs), g.covers_normalize.apart⟩

theorem Settled.pairwise_lt (h : g.Settled t) : g.items.Pairwise fun a b => a.high < b.low :=
  List.pairwise_map.1 h.apart

theorem Settled.inOrder (h : g.Settled t) : Tracked.InOrder t g.items := by
  have hlt := h.pairwise_lt
  have hvalid := h.valid
  generalize g.items = items at hlt hvalid
  induction items with
  | nil => exact .nil t
  | cons s items ih =>
    obtain ⟨hs, hvalid⟩ := List.forall_mem_cons.1 hvalid
    obtain ⟨hlt, hpair⟩ := List.pairwise_cons.1 hlt
    have hfront : ∀ c ∈ Tracked.ends items, s.high ≤ c := by
      intro c hc
      obtain ⟨s', hs', hc⟩ := List.mem_flatMap.1 hc
      have hle := (hlt s' hs').le
      rcases List.mem_cons.1 hc with rfl | hc
      · exact hle
      · rw [List.mem_singleton.1 hc]
        exact hle.trans s'.low_le_high
    exact .cons hs.low hs.high s.low_le_high hfront (ih hpair hvalid)

theorem Settled.sorted (h : g.Settled t) : g.items.Pairwise fun a b => a.low ≤ b.low :=
  h.pairwise_lt.imp fun {a _} hlt => a.low_le_high.trans hlt.le

theorem Settled.sorted_map (h : g.Settled t) (hf : Monotone f) :
    (g.items.map (Tracked.mapEnds f)).Pairwise fun a b => a.low ≤ b.low := by
  rw [List.pairwise_map]
  apply h.sorted.imp
  intro a b hab
  have hlow : ∀ s : Selection, (Tracked.mapEnds f s).low = f s.low := fun s =>
    Selection.withEnds_low s (hf s.low_le_high)
  rw [hlow, hlow]
  exact hf hab

/-- What becomes of selections whose ends are moved by a map: others that are settled, cover the
moved ones and keep track of the main one, also where the main index is past the end. -/
structure Follows (g' g : Selections) (t : Text) (f : Coord → Coord) : Prop where
  settled : g'.Settled t
  covers : Span.Covers g'.extents (g.extents.map (Span.map f))
  main : ∀ {span}, g.MainHolds span → g'.MainHolds (span.map f)
  main_of_le : g.items.length ≤ g.main → g'.main = g'.items.length

namespace Follows

variable {g' : Selections} {f' : Coord → Coord}

theorem normalize (h : ∀ s ∈ g.items, s.ValidIn t) : g.normalize.Follows g t fun c => c where
  settled := settled_normalize h
  covers := g.covers_normalize.perm (.of_eq (List.map_id' g.extents).symm)
  main := MainHolds.normalize
  main_of_le hm := main_mergeOverlapping_of_le (main_sort_of_le hm).ge

theorem mergeOverlapping (h : g'.Follows g t f) : g'.mergeOverlapping.Follows g t f where
  settled := ⟨validIn_mergeOverlapping h.settled.valid,
    (covers_mergeOverlapping h.settled.sorted).apart⟩
  covers := h.covers.trans (covers_mergeOverlapping h.settled.sorted)
  main hm := (h.main hm).mergeOverlapping
  main_of_le hm := main_mergeOverlapping_of_le (h.main_of_le hm).ge

/-- **One run.** -/
theorem sweep {run : Run} (h : g'.Follows g s f) (hf : run.MovesBy s t f') :
    ∃ items, run.sweep g'.items = .ok items ∧
      ({ g' with items } : Selections).mergeOverlapping.Follows g t (f' ∘ f) := by
  have hmono := hf.image.mono
  refine ⟨_, hf.sweep h.settled.inOrder, ?_⟩
  have hvalid : ∀ s ∈ g'.items.map (Tracked.mapEnds f'), s.ValidIn t := by
    intro s' hs'
    obtain ⟨s, hs, rfl⟩ := List.mem_map.1 hs'
    have hv := h.settled.valid s hs
    exact Selection.validIn_withEnds (hf.image.valid hv.low) (hf.image.valid hv.high)
  have hsorted := h.settled.sorted_map hmono
  have hextents : Selections.extents ⟨g'.items.map (Tracked.mapEnds f'), g'.main⟩ =
      g'.extents.map (Span.map f') := by
    unfold extents
    rw [List.map_map, List.map_map]
    exact List.map_congr_left fun s _ => Selection.extent_mapEnds hmono s
  have hcovers := covers_mergeOverlapping (g := ⟨g'.items.map (Tracked.mapEnds f'), g'.main⟩) hsorted
  refine ⟨⟨validIn_mergeOverlapping hvalid, hcovers.apart⟩, ?_, ?_, ?_⟩
  · rw [hextents] at hcovers
    have hmap := h.covers.map hmono hcovers
    rwa [List.map_map] at hmap
  · intro span hm
    obtain ⟨s, hs, hin⟩ := h.main hm
    refine MainHolds.mergeOverlapping ⟨Tracked.mapEnds f' s, ?_, ?_⟩
    · rw [List.getElem?_map, hs]
      rfl
    · rw [Selection.extent_mapEnds hmono]
      exact hin.map hmono
  · intro hm
    refine main_mergeOverlapping_of_le (le_of_eq ?_)
    dsimp only
    rw [List.length_map, h.main_of_le hm]

/-- There is still at least one selection, and the main one is among them. -/
theorem check (h : g'.Follows g t f) (hc : g.check = .ok ()) : g'.check = .ok () := by
  rw [check_eq_ok_iff] at hc ⊢
  exact (h.main (mainHolds_self hc)).main_lt

/-- All that counts are the spans at the beginning, and which of them is main. -/
theorem unique {g₁ g₂ : Selections} (h : g₁.Follows g t f) (h' : g₂.Follows g' t f) (hf : Monotone f)
    (hextents : g.extents = g'.extents) (hmain : g.main = g'.main) (hlt : g.main < g.items.length) :
    g₁.extents = g₂.extents ∧ g₁.main = g₂.main := by
  have hordered : ∀ s ∈ g.extents.map (Span.map f), s.Ordered := by
    intro s hs
    obtain ⟨e, he, rfl⟩ := List.mem_map.1 hs
    exact hf (g.ordered_extents e he)
  have heq := h.covers.unique (hextents ▸ h'.covers) hordered
  obtain ⟨s, hs⟩ : ∃ s, g.items[g.main]? = some s := ⟨_, List.getElem?_eq_getElem hlt⟩
  obtain ⟨s', hs', hspan⟩ : ∃ s', g'.items[g'.main]? = some s' ∧ s'.extent = s.extent := by
    have hmem : g.extents[g.main]? = some s.extent := by
      rw [extents, List.getElem?_map, hs]
      rfl
    rwa [hextents, hmain, extents, List.getElem?_map, Option.map_eq_some_iff] at hmem
  -- the main span can only be in one of spans that lie apart
  obtain ⟨e, he, hin⟩ := h.main ⟨s, hs, le_rfl, le_rfl⟩
  obtain ⟨e', he', hin'⟩ := h'.main ⟨s', hs', le_rfl, le_rfl⟩
  rw [hspan] at hin'
  have hfirst : g₁.extents[g₁.main]? = some e.extent := by
    rw [extents, List.getElem?_map, he]
    rfl
  have hsecond : g₁.extents[g₂.main]? = some e'.extent := by
    rw [heq, extents, List.getElem?_map, he']
    rfl
  have hle : f s.low ≤ f s.high := hf s.low_le_high
  exact ⟨heq, h.settled.apart.index_eq hfirst hsecond ⟨hin.1, hle.trans hin.2⟩
    ⟨hin'.1, hle.trans hin'.2⟩⟩

/-- **Any number of runs.** -/
theorem foldlM_sweep {runs : List Run} (h : g'.Follows g s f) (hm : MoveBy runs s t f') :
    ∃ g'', runs.foldlM (fun s run => do
        return { s with items := ← run.sweep s.items : Selections }.mergeOverlapping) g' = .ok g'' ∧
      g''.Follows g t (f' ∘ f) := by
  induction hm generalizing g' f with
  | nil s => exact ⟨g', rfl, h⟩
  | cons hf _ ih =>
    obtain ⟨items, hitems, hnext⟩ := h.sweep hf
    obtain ⟨g'', hg'', hlast⟩ := ih hnext
    refine ⟨g'', ?_, hlast⟩
    rw [List.foldlM_cons, hitems, Fault.ok_bind, Fault.pure_eq_ok, Fault.ok_bind]
    exact hg''

end Follows

end Selections

namespace SelectionList

/-- **Catching up with merging**, also with selections that are at positions of another text than
that of the buffer, which the log leads to another text. -/
theorem exists_update_true {p q : Text} {b : Buffer} {f : Coord → Coord} {list : SelectionList}
    (hbuffer : list.buffer = b.id) (htime : list.timestamp < b.timestamp)
    (hmove : MoveBy (splitRuns (b.log.drop list.timestamp)) p q f)
    (hvalid : ∀ r ∈ list.group.items, r.ValidIn p) :
    ∃ group : Selections, group.Follows list.group q f ∧ list.update b true =
      .ok { list with group := (group.clamp b.text).mergeOverlapping, timestamp := b.timestamp } := by
  obtain ⟨group, hgroup, hfollows⟩ := (Selections.Follows.normalize hvalid).foldlM_sweep hmove
  refine ⟨group, hfollows, ?_⟩
  have hupdate : list.update b true = list.updateMerging b := rfl
  unfold updateMerging checkBuffer at hupdate
  rw [Fault.unless_of hbuffer, Fault.ok_bind, Buffer.logSince_eq htime.le, Fault.ok_bind,
    if_neg htime.ne, show sweepMerging (b.log.drop list.timestamp) list.group = _ from hgroup,
    Fault.ok_bind] at hupdate
  exact hupdate

/-- Catching up with merging, from positions to positions. -/
theorem update_true_eq {s : Text} {b : Buffer} {f : Coord → Coord} {list : SelectionList}
    (hbuffer : list.buffer = b.id) (htime : list.timestamp < b.timestamp)
    (hmove : MoveBy (splitRuns (b.log.drop list.timestamp)) s b.text f)
    (hvalid : ∀ r ∈ list.group.items, r.ValidIn s) :
    ∃ group, list.update b true = .ok { list with group, timestamp := b.timestamp } ∧
      group.Follows list.group b.text f := by
  obtain ⟨group, hfollows, hupdate⟩ := exists_update_true hbuffer htime hmove hvalid
  -- clamping and the merge at the end find nothing left to do
  rw [Selections.clamp_of_validIn hfollows.settled.valid] at hupdate
  exact ⟨group.mergeOverlapping, hupdate, hfollows.mergeOverlapping⟩

/-- **Merging on the way and merging at the end agree.** Catching up with merging leads to the same
spans and the same main index as catching up without merging and normalizing the outcome. -/
theorem update_true_eq_normalize_update_false {origin : Text} {d : Draft} (h : Reached origin d)
    (list : SelectionList) (hbuffer : list.buffer = d.buffer.id)
    (htime : list.timestamp < d.buffer.timestamp)
    (hvalid : ∀ s ∈ list.group.items, s.ValidIn (d.textAt origin list.timestamp)) :
    ∃ merged separate,
      list.update d.buffer true = .ok merged ∧ list.update d.buffer false = .ok separate ∧
      merged.group.extents = separate.group.normalize.extents ∧
      merged.group.main = separate.group.normalize.main := by
  obtain ⟨image, hmove, -⟩ := h.exists_moveBy htime.le
  obtain ⟨group, hmerged, hfollows⟩ := update_true_eq hbuffer htime hmove hvalid
  refine ⟨_, _, hmerged, update_false_eq hbuffer htime.le hmove hvalid, ?_⟩
  dsimp only
  generalize hsep : ({ list.group with items := list.group.items.map (Selection.mapCoords image) } :
    Selections) = separate
  have hmono := hmove.image.mono
  have hextents : separate.extents = list.group.extents.map (Span.map image) := by
    rw [← hsep]
    unfold Selections.extents
    rw [List.map_map, List.map_map]
    exact List.map_congr_left fun s _ => Selection.extent_mapCoords hmono s
  have hcovers := separate.covers_normalize
  -- both cover the same moved spans
  have heq : group.extents = separate.normalize.extents :=
    (hfollows.covers.perm (.of_eq hextents.symm)).unique hcovers separate.ordered_extents
  refine ⟨heq, ?_⟩
  rcases Nat.lt_or_ge list.group.main list.group.items.length with hlt | hge
  · -- the main selection can only be in one of spans that lie apart
    obtain ⟨s, hs⟩ : ∃ s, list.group.items[list.group.main]? = some s :=
      ⟨_, List.getElem?_eq_getElem hlt⟩
    obtain ⟨e, he, hin⟩ := hfollows.main ⟨s, hs, le_rfl, le_rfl⟩
    obtain ⟨e', he', hin'⟩ : separate.normalize.MainHolds (s.extent.map image) := by
      refine Selections.MainHolds.normalize ⟨s.mapCoords image, ?_, ?_⟩
      · rw [← hsep, List.getElem?_map, hs]
        rfl
      · rw [Selection.extent_mapCoords hmono]
        exact ⟨le_rfl, le_rfl⟩
    have hspan : (s.extent.map image).Ordered := hmono s.low_le_high
    have hmerged : separate.normalize.extents[group.main]? = some e.extent := by
      rw [← heq, Selections.extents, List.getElem?_map, he]
      rfl
    have hseparate : separate.normalize.extents[separate.normalize.main]? = some e'.extent := by
      rw [Selections.extents, List.getElem?_map, he']
      rfl
    exact hcovers.apart.index_eq hmerged hseparate ⟨hin.1, hspan.trans hin.2⟩
      ⟨hin'.1, hspan.trans hin'.2⟩
  · have hlen := congrArg List.length heq
    simp only [Selections.extents, List.length_map] at hlen
    rw [hfollows.main_of_le hge, hlen]
    refine (Selections.main_mergeOverlapping_of_le (Selections.main_sort_of_le ?_).ge).symm
    rw [← hsep]
    simpa using hge

theorem update_true_eq_normalize_update_false_sample :
    ∃ merged separate,
      SelectionList.update ⟨⟨[⟨⟨0, 2⟩, ⟨0, 1⟩, none, []⟩, ⟨⟨0, 0⟩, ⟨0, 1⟩, none, []⟩], 1⟩, 0, 0⟩
        Reached.sample.buffer true = .ok merged ∧
      SelectionList.update ⟨⟨[⟨⟨0, 2⟩, ⟨0, 1⟩, none, []⟩, ⟨⟨0, 0⟩, ⟨0, 1⟩, none, []⟩], 1⟩, 0, 0⟩
        Reached.sample.buffer false = .ok separate ∧
      merged.group.extents = separate.group.normalize.extents ∧
      merged.group.main = separate.group.normalize.main :=
  update_true_eq_normalize_update_false Reached.of_script
    ⟨⟨[⟨⟨0, 2⟩, ⟨0, 1⟩, none, []⟩, ⟨⟨0, 0⟩, ⟨0, 1⟩, none, []⟩], 1⟩, 0, 0⟩ rfl (by decide)
    (by simp only [Selection.ValidIn]; decide)

/-- **Tracked positions stay positions, in order.** A live list follows every edit, and after each of
them it holds the selections moved by a map that takes positions to positions and keeps their order.
So does catching up without merging. Catching up with merging leads to positions as well, and when
there was anything to catch up on, to selections that lie apart, the main one among them. -/
theorem tracking_keeps_positions {origin : Text} {d : Draft} (h : Reached origin d)
    (list : SelectionList) (hbuffer : list.buffer = d.buffer.id)
    (htime : list.timestamp ≤ d.buffer.timestamp)
    (hvalid : ∀ s ∈ list.group.items, s.ValidIn (d.textAt origin list.timestamp)) :
    (∀ later, list.timestamp ≤ later → later ≤ d.buffer.timestamp →
      ∃ image, Image (d.textAt origin list.timestamp) (d.textAt origin later) image ∧
        (∀ s ∈ list.group.items, (s.mapCoords image).ValidIn (d.textAt origin later)) ∧
        ∀ live : LiveList, live.group = list.group →
          live.followAll ((d.buffer.log.take later).drop list.timestamp) = .ok { live with
            group := { list.group with
              items := list.group.items.map (Selection.mapCoords image) } }) ∧
    (∃ image, Image (d.textAt origin list.timestamp) d.buffer.text image ∧
      (∀ s ∈ list.group.items, (s.mapCoords image).ValidIn d.buffer.text) ∧
      list.update d.buffer false = .ok { list with
        group := { list.group with items := list.group.items.map (Selection.mapCoords image) }
        timestamp := d.buffer.timestamp }) ∧
    ∃ group, list.update d.buffer true =
        .ok { list with group, timestamp := d.buffer.timestamp } ∧
      (∀ s ∈ group.items, s.ValidIn d.buffer.text) ∧
      (list.timestamp < d.buffer.timestamp → Span.Apart group.extents ∧
        (list.group.check = .ok () → group.check = .ok ())) := by
  have hc := h.chronicle
  obtain ⟨image, hmove, -⟩ := h.exists_moveBy htime
  refine ⟨?_, ⟨image, hmove.image, fun s hs => (hvalid s hs).map hmove.image,
    update_false_eq hbuffer htime hmove hvalid⟩, ?_⟩
  · intro later hle hlater
    obtain ⟨image, himage, hacross⟩ := Trail.exists_image (hc.trail hle hlater) (hc.small _ htime)
    refine ⟨image, himage, fun s hs => (hvalid s hs).map himage, ?_⟩
    intro live hlive
    have hitems : live.group.items.mapM (·.across ((d.buffer.log.take later).drop list.timestamp)) =
        .ok (list.group.items.map (Selection.mapCoords image)) := by
      rw [hlive]
      exact Fault.mapM_eq_ok fun s hs =>
        Selection.across_eq (hacross (hvalid s hs).1) (hacross (hvalid s hs).2)
    rw [LiveList.followAll_eq hitems, hlive]
  · rcases Nat.eq_or_lt_of_le htime with heq | hlt
    · refine ⟨list.group, ?_, ?_, fun hlt => absurd heq hlt.ne⟩
      · rw [← heq]
        exact update_of_current hbuffer heq true
      · rw [heq, hc.last] at hvalid
        exact hvalid
    · obtain ⟨group, hupdate, hfollows⟩ := update_true_eq hbuffer hlt hmove hvalid
      exact ⟨group, hupdate, hfollows.settled.valid, fun _ => ⟨hfollows.settled.apart, hfollows.check⟩⟩

theorem tracking_keeps_positions_sample :
    (∃ image, Image ['a', 'b'] Reached.sample.buffer.text image ∧
      SelectionList.update ⟨⟨[⟨⟨0, 2⟩, ⟨0, 1⟩, none, []⟩, ⟨⟨0, 0⟩, ⟨0, 1⟩, none, []⟩], 1⟩, 0, 0⟩
        Reached.sample.buffer false =
          .ok ⟨⟨[⟨image ⟨0, 2⟩, image ⟨0, 1⟩, none, []⟩, ⟨image ⟨0, 0⟩, image ⟨0, 1⟩, none, []⟩], 1⟩,
            0, 3⟩) ∧
    ∃ group, SelectionList.update
        ⟨⟨[⟨⟨0, 2⟩, ⟨0, 1⟩, none, []⟩, ⟨⟨0, 0⟩, ⟨0, 1⟩, none, []⟩], 1⟩, 0, 0⟩
        Reached.sample.buffer true = .ok ⟨group, 0, 3⟩ ∧ Span.Apart group.extents := by
  obtain ⟨-, ⟨image, himage, -, hfalse⟩, group, htrue, -, happart⟩ :=
    tracking_keeps_positions Reached.of_script
      ⟨⟨[⟨⟨0, 2⟩, ⟨0, 1⟩, none, []⟩, ⟨⟨0, 0⟩, ⟨0, 1⟩, none, []⟩], 1⟩, 0, 0⟩ rfl (by decide)
      (by simp only [Selection.ValidIn]; decide)
  exact ⟨⟨image, himage, hfalse⟩, group, htrue, (happart (by decide)).1⟩

end SelectionList

end Caret
