import Caret.LiveList
import Caret.Proofs.Run
import Caret.Proofs.Sweep

/-!
# Selections moved end by end

A selection list that catches up without merging moves all its anchors and cursors in one sorted
sweep and puts each one back where it came from. A live list moves each of its anchors and cursors
across every change as it happens.

* `SelectionList.sweepEndpoints_eq`: the sweep applies one map to all ends.
* `SelectionList.update_false_eq`: catching up without merging in terms of the map of the log.
* `LiveList.followAll_eq`: a live list follows the log selection by selection.
-/

namespace Caret

namespace Selection

/-- Both ends are positions of the text. -/
def ValidIn (t : Text) (s : Selection) : Prop := t.Valid s.anchor ∧ t.Valid s.cursor

/-- The selection with both ends moved, and all else kept. -/
def mapCoords (f : Coord → Coord) (s : Selection) : Selection :=
  { s with anchor := f s.anchor, cursor := f s.cursor }

/-- A selection moved across every change of a log in turn, each end on its own. -/
def across (s : Selection) (log : List Change) : Except Fault Selection :=
  log.foldlM (fun s change => LiveList.followOne change s) s

variable {s : Selection} {t u : Text} {f g : Coord → Coord}

theorem ValidIn.map (hf : Image t u f) (h : s.ValidIn t) : (s.mapCoords f).ValidIn u :=
  ⟨hf.valid h.1, hf.valid h.2⟩

theorem clamp_of_validIn (h : s.ValidIn t) : s.clamp t = s := by
  unfold clamp
  rw [Text.clamp_of_valid h.1, Text.clamp_of_valid h.2]

/-- The two ends do not influence each other. -/
theorem across_eq {log : List Change} {anchor cursor : Coord} (ha : s.anchor.across log = .ok anchor)
    (hc : s.cursor.across log = .ok cursor) : s.across log = .ok { s with anchor, cursor } := by
  induction log generalizing s with
  | nil =>
    cases ha
    cases hc
    rfl
  | cons change log ih =>
    unfold Coord.across at ha hc
    rw [List.foldlM_cons, Fault.bind_eq_ok] at ha hc
    obtain ⟨a, hma, ha⟩ := ha
    obtain ⟨c, hmc, hc⟩ := hc
    have hone : LiveList.followOne change s = .ok { s with anchor := a, cursor := c } := by
      unfold LiveList.followOne
      rw [hma, Fault.ok_bind, hmc]
      rfl
    unfold across at ih ⊢
    rw [List.foldlM_cons, hone, Fault.ok_bind]
    exact ih ha hc

end Selection

theorem Selections.clamp_of_validIn {t : Text} {group : Selections}
    (h : ∀ s ∈ group.items, s.ValidIn t) : group.clamp t = group := by
  unfold clamp map
  rw [List.map_congr_left fun s hs => Selection.clamp_of_validIn (h s hs), List.map_id']

namespace LiveList

/-- The list after all changes of a log, one after the other. -/
def followAll (l : LiveList) (log : List Change) : Except Fault LiveList :=
  log.foldlM (fun l change => l.follow change) l

theorem followAll_eq {l : LiveList} {log : List Change} {items : List Selection}
    (h : l.group.items.mapM (·.across log) = .ok items) :
    l.followAll log = .ok { l with group := { l.group with items } } := by
  induction log generalizing l with
  | nil =>
    have hself : l.group.items.mapM (·.across []) = .ok l.group.items := by
      refine (Fault.mapM_eq_ok fun s _ => (rfl : s.across [] = .ok s)).trans ?_
      rw [List.map_id']
    rw [hself] at h
    cases h
    rfl
  | cons change log ih =>
    have hsplit : l.group.items.mapM (fun s => followOne change s >>= (·.across log)) = .ok items := h
    obtain ⟨mid, hmid, hrest⟩ := Fault.mapM_bind_eq_ok hsplit
    have hfollow : l.follow change = .ok { l with group := { l.group with items := mid } } := by
      unfold follow
      rw [hmid]
      rfl
    unfold followAll at ih ⊢
    rw [List.foldlM_cons, hfollow, Fault.ok_bind]
    exact ih hrest

end LiveList

/-- The map of what a buffer went through since a timestamp. Without an erase right up to the insert
before it this is the map that the changes make one by one. -/
theorem Reached.exists_moveBy {origin : Text} {d : Draft} (h : Reached origin d) {timestamp : ℕ}
    (ht : timestamp ≤ d.buffer.timestamp) :
    ∃ image, MoveBy (splitRuns (d.buffer.log.drop timestamp)) (d.textAt origin timestamp)
        d.buffer.text image ∧
      (((d.buffer.log.drop timestamp).IsChain fun a b => ¬b.ErasesUpTo a) →
        ∀ {c}, (d.textAt origin timestamp).Valid c →
          c.across (d.buffer.log.drop timestamp) = .ok (image c)) := by
  obtain ⟨image, hmove, hacross⟩ :=
    Caret.exists_moveBy (h.chronicle.trail_since ht) (h.chronicle.small _ ht)
  refine ⟨image, hmove, ?_⟩
  intro hapart c hc
  rw [← Coord.acrossSteps_map, ← replay_of_apart hapart]
  exact hacross hc

namespace SelectionList

instance : LawfulTracked SelectionEnd where
  mapEnds_id _ := rfl
  first_mapEnds _ _ _ := rfl
  last_mapEnds _ _ _ := rfl
  mapEnds_mapEnds _ _ _ _ := rfl

/-- The ends of all selections. -/
def endsOf (items : List Selection) : List SelectionEnd :=
  (items.mapIdx fun i s => SelectionEnd.both s i).flatten

variable {items : List Selection} {s t : Text} {f : Coord → Coord} {e e' : SelectionEnd}

theorem mem_endsOf : e ∈ endsOf items ↔ ∃ s, items[e.index]? = some s ∧
    e.coord = if e.isCursor then s.cursor else s.anchor := by
  obtain ⟨coord, index, isCursor⟩ := e
  unfold endsOf
  rw [List.mem_flatten]
  constructor
  · rintro ⟨l, hl, he⟩
    obtain ⟨i, hi, rfl⟩ := List.mem_mapIdx.1 hl
    refine ⟨items[i], ?_⟩
    simp only [SelectionEnd.both, List.mem_cons, SelectionEnd.mk.injEq, List.not_mem_nil,
      or_false] at he
    rcases he with ⟨rfl, rfl, rfl⟩ | ⟨rfl, rfl, rfl⟩
    · exact ⟨List.getElem?_eq_getElem hi, rfl⟩
    · exact ⟨List.getElem?_eq_getElem hi, rfl⟩
  · rintro ⟨s, hs, hc⟩
    obtain ⟨hi, rfl⟩ := List.getElem?_eq_some_iff.1 hs
    refine ⟨_, List.mem_mapIdx.2 ⟨index, hi, rfl⟩, ?_⟩
    rw [show coord = _ from hc, SelectionEnd.both]
    cases isCursor <;> simp

/-- The sorted ends of selections that are valid in a text. -/
theorem inOrder_ends (hv : ∀ s ∈ items, s.ValidIn t) :
    Tracked.InOrder t ((endsOf items).mergeSort fun a b => decide (a.coord ≤ b.coord)) := by
  have hsorted := @List.pairwise_mergeSort _ (fun a b : SelectionEnd => decide (a.coord ≤ b.coord))
    (fun a b c hab hbc => decide_eq_true ((of_decide_eq_true hab).trans (of_decide_eq_true hbc)))
    (fun a b => by simpa using le_total a.coord b.coord) (endsOf items)
  have hmem : ∀ e ∈ (endsOf items).mergeSort fun a b => decide (a.coord ≤ b.coord),
      t.Valid e.coord := by
    intro e he
    obtain ⟨s, hs, hc⟩ := mem_endsOf.1 (List.mem_mergeSort.1 he)
    have hs := hv s (List.mem_of_getElem? hs)
    rw [hc]
    split
    · exact hs.2
    · exact hs.1
  -- first and last coordinate of an end are the same one
  generalize (endsOf items).mergeSort (fun a b => decide (a.coord ≤ b.coord)) = ends at hsorted hmem
  induction ends with
  | nil => exact .nil t
  | cons e ends ih =>
    obtain ⟨hle, hsorted⟩ := List.pairwise_cons.1 hsorted
    obtain ⟨he, hmem⟩ := List.forall_mem_cons.1 hmem
    have hfront : ∀ c ∈ Tracked.ends ends, e.coord ≤ c := by
      intro c hc
      obtain ⟨e', he', hc⟩ := List.mem_flatMap.1 hc
      have hle := of_decide_eq_true (hle e' he')
      have hcoord : c = e'.coord := by simpa [Tracked.first, Tracked.last] using hc
      exact hcoord ▸ hle
    exact .cons he he le_rfl hfront (ih hsorted hmem)

/-! ## Putting the ends back -/

/-- The selections after one end was moved and put back. -/
def putBack (f : Coord → Coord) (items : List Selection) (e : SelectionEnd) : List Selection :=
  items.modify e.index { e with coord := f e.coord : SelectionEnd }.place

/-- Different ends can be put back in any order. -/
theorem putBack_comm (h : e ∈ endsOf items) (h' : e' ∈ endsOf items) (l : List Selection) :
    putBack f (putBack f l e) e' = putBack f (putBack f l e') e := by
  obtain ⟨s, hs, hc⟩ := mem_endsOf.1 h
  obtain ⟨s', hs', hc'⟩ := mem_endsOf.1 h'
  obtain ⟨coord, index, isCursor⟩ := e
  obtain ⟨coord', index', isCursor'⟩ := e'
  unfold putBack
  dsimp only at *
  by_cases hi : index = index'
  · -- one selection: the same end twice, or its anchor and its cursor
    subst hi
    rw [hs, Option.some.injEq] at hs'
    subst hs'
    rw [List.modify_modify_eq, List.modify_modify_eq]
    congr 1
    funext s
    cases isCursor <;> cases isCursor' <;> simp_all [SelectionEnd.place]
  · rw [List.modify_modify_ne _ _ _ hi]

theorem putBack_append (before items : List Selection) (s : Selection) (coord : Coord)
    (isCursor : Bool) :
    putBack f (before ++ s :: items) ⟨coord, before.length, isCursor⟩ =
      before ++ (⟨f coord, before.length, isCursor⟩ : SelectionEnd).place s :: items := by
  unfold putBack
  rw [List.modify_eq_take_cons_drop (by simp)]
  simp

/-- All ends put back in the order of the selections. -/
theorem foldl_putBack (f : Coord → Coord) (before items : List Selection) :
    ((items.mapIdx fun i s => SelectionEnd.both s (before.length + i)).flatten).foldl (putBack f)
        (before ++ items) =
      before ++ items.map (Selection.mapCoords f) := by
  induction items generalizing before with
  | nil => rfl
  | cons s items ih =>
    have hstep := ih (before ++ [s.mapCoords f])
    simp only [List.length_append, List.length_singleton, List.append_assoc,
      List.singleton_append] at hstep
    rw [List.mapIdx_cons, List.flatten_cons, List.foldl_append]
    simp only [SelectionEnd.both, List.foldl_cons, List.foldl_nil, putBack_append,
      Nat.add_zero, Nat.add_comm _ 1, ← Nat.add_assoc] at hstep ⊢
    exact hstep

/-- **The sweep of the ends.** All anchors and cursors are moved by the map of the log. -/
theorem sweepEndpoints_eq {log : List Change} (h : MoveBy (splitRuns log) s t f)
    (hv : ∀ r ∈ items, r.ValidIn s) :
    sweepEndpoints log t items = .ok (items.map (Selection.mapCoords f)) := by
  have hperm := List.mergeSort_perm (endsOf items) fun a b => decide (a.coord ≤ b.coord)
  -- sorting does not matter, because the ends can be put back in any order
  have hfold : ((endsOf items).mergeSort fun a b => decide (a.coord ≤ b.coord)).foldl
      (putBack fun c => t.clamp (f c)) items = items.map (Selection.mapCoords f) := by
    rw [hperm.foldl_eq' fun e he e' he' l =>
      putBack_comm (List.mem_mergeSort.1 he) (List.mem_mergeSort.1 he') l]
    have hall := foldl_putBack (fun c => t.clamp (f c)) [] items
    simp only [List.length_nil, Nat.zero_add, List.nil_append] at hall
    refine hall.trans (List.map_congr_left fun r hr => ?_)
    obtain ⟨ha, hc⟩ := hv r hr
    unfold Selection.mapCoords
    dsimp only
    rw [Text.clamp_of_valid (h.image.valid ha), Text.clamp_of_valid (h.image.valid hc)]
  unfold sweepEndpoints sweepLog
  dsimp only
  rw [show ((items.mapIdx fun i s => SelectionEnd.both s i).flatten) = endsOf items from rfl,
    h.foldlM_sweep (inOrder_ends hv), Fault.ok_bind, List.foldl_map, Fault.pure_eq_ok]
  exact congrArg _ hfold

/-! ## Catching up -/

/-- A list that is current stays as it is. -/
theorem update_of_current {b : Buffer} {list : SelectionList} (hbuffer : list.buffer = b.id)
    (htime : list.timestamp = b.timestamp) (merge : Bool) : list.update b merge = .ok list := by
  unfold update updateMerging updateSeparately checkBuffer
  rw [Fault.unless_of hbuffer, Fault.ok_bind, Fault.ok_bind, Buffer.logSince_eq htime.le,
    Fault.ok_bind, Fault.ok_bind, if_pos htime, if_pos htime]
  cases merge <;> rfl

/-- **Catching up without merging.** All ends are moved by the map of the log. -/
theorem update_false_eq {b : Buffer} {list : SelectionList} (hbuffer : list.buffer = b.id)
    (htime : list.timestamp ≤ b.timestamp)
    (hmove : MoveBy (splitRuns (b.log.drop list.timestamp)) s b.text f)
    (hvalid : ∀ r ∈ list.group.items, r.ValidIn s) :
    list.update b false = .ok { list with
      group := { list.group with items := list.group.items.map (Selection.mapCoords f) }
      timestamp := b.timestamp } := by
  by_cases heq : list.timestamp = b.timestamp
  · rw [show b.log.drop list.timestamp = [] by rw [heq]; exact List.drop_length, splitRuns] at hmove
    cases hmove
    rw [update_of_current hbuffer heq, ← heq, show Selection.mapCoords (fun c => c) = id from rfl,
      List.map_id]
  · have hupdate : list.update b false = list.updateSeparately b := rfl
    unfold updateSeparately checkBuffer at hupdate
    rw [Fault.unless_of hbuffer, Fault.ok_bind, Buffer.logSince_eq htime, Fault.ok_bind, if_neg heq,
      sweepEndpoints_eq hmove hvalid, Fault.ok_bind] at hupdate
    rw [hupdate]
    rfl

/-- **Batch and live tracking agree.** Catching up without merging gives each selection the anchor and
the cursor that the changes of the log give it one by one, unless an erase ends where the insert just
before it began. A live list that was created in the meantime has come to hold the same
selections. -/
theorem updateSeparately_eq_followAll {origin : Text} {d : Draft} (h : Reached origin d)
    (list : SelectionList) (hbuffer : list.buffer = d.buffer.id)
    (htime : list.timestamp ≤ d.buffer.timestamp)
    (hvalid : ∀ s ∈ list.group.items, s.ValidIn (d.textAt origin list.timestamp))
    (hapart : (d.buffer.log.drop list.timestamp).IsChain fun a b => ¬b.ErasesUpTo a) :
    ∃ items,
      list.update d.buffer false = .ok { list with
        group := { list.group with items }, timestamp := d.buffer.timestamp } ∧
      list.group.items.mapM (·.across (d.buffer.log.drop list.timestamp)) = .ok items ∧
      ∀ (earlier : Buffer) (live : LiveList), earlier.text = d.textAt origin list.timestamp →
        LiveList.track earlier list.group = .ok live.group →
        live.followAll (d.buffer.log.drop list.timestamp) =
          .ok { live with group := { list.group with items } } := by
  obtain ⟨image, hmove, hacross⟩ := h.exists_moveBy htime
  have hitems : list.group.items.mapM (·.across (d.buffer.log.drop list.timestamp)) =
      .ok (list.group.items.map (Selection.mapCoords image)) :=
    Fault.mapM_eq_ok fun s hs => Selection.across_eq (hacross hapart (hvalid s hs).1)
      (hacross hapart (hvalid s hs).2)
  refine ⟨_, update_false_eq hbuffer htime hmove hvalid, hitems, ?_⟩
  intro earlier live ht htrack
  have hgroup : live.group = list.group := by
    unfold LiveList.track at htrack
    rw [ht, Selections.clamp_of_validIn hvalid, Fault.bind_eq_ok] at htrack
    obtain ⟨-, -, hlive⟩ := htrack
    exact (Except.ok.inj hlive).symm
  rw [LiveList.followAll_eq (hgroup ▸ hitems), hgroup]

theorem updateSeparately_eq_followAll_sample :
    ∃ items,
      SelectionList.update ⟨⟨[⟨⟨0, 2⟩, ⟨0, 0⟩, none, []⟩, ⟨⟨0, 1⟩, ⟨0, 1⟩, none, []⟩], 1⟩, 0, 0⟩
        Reached.sample.buffer false = .ok ⟨⟨items, 1⟩, 0, 3⟩ ∧
      [⟨⟨0, 2⟩, ⟨0, 0⟩, none, []⟩, (⟨⟨0, 1⟩, ⟨0, 1⟩, none, []⟩ : Selection)].mapM
        (·.across Reached.sample.buffer.log) = .ok items := by
  obtain ⟨items, hupdate, hitems, -⟩ := updateSeparately_eq_followAll Reached.of_script
    ⟨⟨[⟨⟨0, 2⟩, ⟨0, 0⟩, none, []⟩, ⟨⟨0, 1⟩, ⟨0, 1⟩, none, []⟩], 1⟩, 0, 0⟩ rfl (by decide)
    (by simp only [Selection.ValidIn]; decide) (by decide)
  exact ⟨items, hupdate, hitems⟩

end SelectionList

end Caret
