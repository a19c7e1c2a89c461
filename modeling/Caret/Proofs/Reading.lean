import Caret.Proofs.Carried
import Caret.Proofs.Character
import Caret.Proofs.Description
import Caret.Proofs.Patch
import Caret.Proofs.Refine

/-!
# Reading lists from outside

Descriptions name any lines and columns, also such that are not there. What they stand for is sorted
and merged as if it were, and then put at positions of the text. That keeps the order as long as the
lines are there, and the numbers have to fit into counts on the way.

* `SelectionList.updateMerging_current`: what catching up leads to, wherever it begins.
* `Selection.extent_clamp`, `Selections.pairwise_clamp`: clamping selections on lines that exist.
* `SelectionList.ofDescriptions_outcome`: when a list is read, and what holds of it.
-/

namespace Caret

/-! ## Selections on lines that exist -/

/-- Both ends are on lines of the text. -/
def Selection.OnLines (t : Text) (s : Selection) : Prop :=
  s.anchor.line < t.lineCount ∧ s.cursor.line < t.lineCount

namespace Selection

variable {s s' : Selection} {t : Text}

theorem ValidIn.onLines (h : s.ValidIn t) : s.OnLines t := ⟨h.1.1, h.2.1⟩

theorem OnLines.cover (h : s.OnLines t) (h' : s'.OnLines t) : (s.cover s').OnLines t :=
  ends_cover (p := fun c => c.line < t.lineCount) h h'

theorem OnLines.low (h : s.OnLines t) : s.low.line < t.lineCount :=
  low_of_ends (p := fun c => c.line < t.lineCount) h

theorem validIn_clamp (t : Text) (s : Selection) : (s.clamp t).ValidIn t :=
  ⟨t.valid_clamp s.anchor, t.valid_clamp s.cursor⟩

/-- On lines that exist, the ends of a selection keep their order. -/
theorem extent_clamp (h : s.OnLines t) : (s.clamp t).extent = s.extent.map t.clamp := by
  have hmono : MonotoneOn t.clamp {c | c.line < t.lineCount} := fun _ _ _ hd hle =>
    Text.clamp_le_clamp hle hd
  exact congrArg₂ Span.mk (hmono.map_min h.1 h.2).symm (hmono.map_max h.1 h.2).symm

end Selection

namespace Selections

variable {g g' : Selections} {t : Text}

/-- **Selections that lie apart on lines that exist** are still in order when they are clamped, and
share no more than their ends. -/
theorem pairwise_clamp (h : g.items.Pairwise fun a b => a.high < b.low)
    (hlines : ∀ s ∈ g.items, s.OnLines t) :
    (g.clamp t).items.Pairwise fun a b => a.high ≤ b.low := by
  have hitems : (g.clamp t).items = g.items.map (Selection.clamp t) := rfl
  rw [hitems, List.pairwise_map]
  refine h.imp_of_mem ?_
  intro a b ha hb hlt
  have hhigh : (a.clamp t).high = t.clamp a.high :=
    congrArg Span.stop (Selection.extent_clamp (hlines a ha))
  have hlow : (b.clamp t).low = t.clamp b.low :=
    congrArg Span.start (Selection.extent_clamp (hlines b hb))
  rw [hhigh, hlow]
  exact Text.clamp_le_clamp hlt.le (hlines b hb).low

theorem pairwise_low_of_pairwise {items : List Selection}
    (h : items.Pairwise fun a b => a.high ≤ b.low) : items.Pairwise fun a b => a.low ≤ b.low :=
  h.imp fun {a _} hle => a.low_le_high.trans hle

theorem pairwise_normalize (g : Selections) : g.normalize.items.Pairwise fun a b => a.high < b.low :=
  List.pairwise_map.1 g.covers_normalize.apart

theorem forall_normalize {p : Selection → Prop} (hp : ∀ a b, p a → p b → p (a.cover b))
    (h : ∀ s ∈ g.items, p s) : ∀ s ∈ g.normalize.items, p s :=
  forall_mergeOverlapping hp fun s hs => h s (g.sort_perm.mem_iff.1 hs)

theorem validIn_clamp (t : Text) (g : Selections) : ∀ s ∈ (g.clamp t).items, s.ValidIn t := by
  intro s hs
  obtain ⟨r, -, rfl⟩ := List.mem_map.1 hs
  exact r.validIn_clamp t

theorem check_clamp (h : g.check = .ok ()) : (g.clamp t).check = .ok () := by
  rw [check_eq_ok_iff] at h ⊢
  show g.main < (g.items.map (Selection.clamp t)).length
  rwa [List.length_map]

theorem check_mergeOverlapping (h : g.check = .ok ()) : g.mergeOverlapping.check = .ok () := by
  rw [check_eq_ok_iff] at h ⊢
  exact (mainHolds_self h).mergeOverlapping.main_lt

theorem check_normalize (h : g.check = .ok ()) : g.normalize.check = .ok () := by
  rw [check_eq_ok_iff] at h ⊢
  exact (mainHolds_self h).normalize.main_lt

/-- **Runs that are taken in with merging** keep the main selection, whatever the selections are. -/
theorem check_foldlM_sweep {runs : List Run} (hg : g.check = .ok ())
    (h : runs.foldlM (fun s run => do
        return { s with items := ← run.sweep s.items : Selections }.mergeOverlapping) g = .ok g') :
    g'.check = .ok () := by
  induction runs generalizing g with
  | nil =>
    obtain rfl := Except.ok.inj h
    exact hg
  | cons run runs ih =>
    rw [List.foldlM_cons, Fault.bind_eq_ok] at h
    obtain ⟨next, hnext, h⟩ := h
    rw [Fault.bind_eq_ok] at hnext
    obtain ⟨items, hitems, hnext⟩ := hnext
    obtain rfl := Except.ok.inj hnext
    refine ih (check_mergeOverlapping ?_) h
    rw [check_eq_ok_iff] at hg ⊢
    dsimp only
    rwa [Run.length_sweep hitems]

end Selections

namespace SelectionList

/-! ## Lists at the present -/

/-- A list at the present of its buffer. Its selections are at positions of the text, and one of them
is main. -/
structure Current (b : Buffer) (list : SelectionList) : Prop where
  buffer : list.buffer = b.id
  timestamp : list.timestamp = b.timestamp
  check : list.group.check = .ok ()
  valid : ∀ s ∈ list.group.items, s.ValidIn b.text

variable {b : Buffer} {l list : SelectionList}

theorem inOrder_of_pairwise {items : List Selection} (h : items.Pairwise fun a b => a.low ≤ b.low) :
    inOrder items = true := by
  induction h with
  | nil => rfl
  | @cons a items ha _ ih =>
    cases items with
    | nil => rfl
    | cons b items => rw [inOrder, decide_eq_true (ha b List.mem_cons_self), Bool.true_and, ih]

/-- With its selections in order, such a list has all that is asked of a list between two edits. -/
theorem Current.verify (h : list.Current b)
    (hsorted : list.group.items.Pairwise fun a b => a.low ≤ b.low) : list.verify b = .ok () := by
  have hvalid : list.group.items.all (endsValid b.text) = true := by
    refine List.all_eq_true.2 fun s hs => ?_
    obtain ⟨hanchor, hcursor⟩ := h.valid s hs
    rw [endsValid, decide_eq_true hanchor, decide_eq_true hcursor, Bool.true_and]
  unfold SelectionList.verify checkBuffer
  rw [h.check, Fault.ok_bind, Fault.unless_of h.buffer, Fault.ok_bind,
    Fault.unless_of h.timestamp.le, Fault.ok_bind, if_pos h.timestamp,
    Fault.unless_of (inOrder_of_pairwise hsorted), Fault.ok_bind, Fault.unless_of hvalid]

/-- **Catching up with merging leads to the present**, wherever it begins. -/
theorem updateMerging_current (h : l.updateMerging b = .ok list) (htime : l.timestamp < b.timestamp)
    (hcheck : l.group.check = .ok ()) : list.Current b := by
  unfold updateMerging checkBuffer at h
  rw [Fault.bind_eq_ok] at h
  obtain ⟨⟨⟩, hbuffer, h⟩ := h
  rw [Fault.bind_eq_ok] at h
  obtain ⟨log, -, h⟩ := h
  rw [if_neg htime.ne, Fault.bind_eq_ok] at h
  obtain ⟨group, hgroup, h⟩ := h
  obtain rfl := Except.ok.inj h
  have hmain : (group.clamp b.text).check = .ok () := Selections.check_clamp
    (Selections.check_foldlM_sweep (Selections.check_normalize hcheck) hgroup)
  exact ⟨Fault.unless_eq_ok_iff.1 hbuffer, rfl, Selections.check_mergeOverlapping hmain,
    Selections.validIn_mergeOverlapping (Selections.validIn_clamp b.text group)⟩

/-- Clamping leads to the present. -/
theorem clamp_current (hbuffer : l.buffer = b.id) (htime : l.timestamp = b.timestamp)
    (hcheck : l.group.check = .ok ()) : (l.mapGroup (Selections.clamp b.text)).Current b :=
  ⟨hbuffer, htime, Selections.check_clamp hcheck, Selections.validIn_clamp b.text l.group⟩

/-! ## Descriptions -/

/-- Descriptions that are not refused, and the selections that they stand for. -/
structure Accepted (b : Buffer) (descriptions : List String) (timestamp main : ℕ)
    (items : List Selection) : Prop where
  time : timestamp ≤ b.timestamp
  parsed : descriptions.mapM Selection.ofDescription = .ok items
  main : main < items.length

section

variable {descriptions : List String} {timestamp main : ℕ} {items : List Selection}

/-- Descriptions are refused, or they stand for selections. -/
theorem refused_or_accepted (b : Buffer) (descriptions : List String) (timestamp main : ℕ) :
    (∃ e, ofDescriptions b descriptions timestamp main = .error (.error e)) ∨
      ∃ items, Accepted b descriptions timestamp main items := by
  have herror : ∀ {e}, ofDescriptionsThen b descriptions timestamp main = .error e →
      ofDescriptions b descriptions timestamp main = .error e := by
    intro e he
    rw [ofDescriptions, he, Fault.error_bind]
  rcases Nat.lt_or_ge b.timestamp timestamp with hlt | htime
  · refine .inl ⟨.invalidTimestamp timestamp b.timestamp, herror ?_⟩
    rw [ofDescriptionsThen, if_pos hlt]
    rfl
  cases hitems : descriptions.mapM Selection.ofDescription with
  | error e =>
    refine .inl ⟨e, herror ?_⟩
    rw [ofDescriptionsThen, if_neg (not_lt.2 htime), hitems]
    rfl
  | ok items =>
    rcases Nat.lt_or_ge main items.length with hmain | hmain
    · exact .inr ⟨items, htime, hitems, hmain⟩
    cases items with
    | nil =>
      refine .inl ⟨.emptySelectionList, herror ?_⟩
      rw [ofDescriptionsThen, if_neg (not_lt.2 htime), hitems]
      rfl
    | cons s items =>
      refine .inl ⟨.invalidMainIndex main (items.length + 1), herror ?_⟩
      rw [ofDescriptionsThen, if_neg (not_lt.2 htime), hitems]
      simp only [Fault.pure_eq_ok, Fault.ok_bind, if_neg (not_lt.2 hmain)]
      rfl

namespace Accepted

/-- What is left to do when the descriptions are accepted. -/
theorem ofDescriptions_eq (h : Accepted b descriptions timestamp main items) :
    ofDescriptions b descriptions timestamp main =
      Failure.ofFault (refresh ⟨Selections.normalize ⟨items, main⟩, b.id, timestamp⟩ b) := by
  rw [ofDescriptions, ofDescriptionsThen_eq h.time h.parsed h.main, Fault.ok_bind]

theorem check_normalize (h : Accepted b descriptions timestamp main items) :
    (Selections.normalize ⟨items, main⟩).check = .ok () :=
  Selections.check_normalize (Selections.check_eq_ok_iff.2 h.main)

/-- **Whatever is named**, a list that is read is at the present of its buffer. -/
theorem current (h : Accepted b descriptions timestamp main items)
    (hlist : ofDescriptions b descriptions timestamp main = .ok list) : list.Current b := by
  rw [h.ofDescriptions_eq, refresh] at hlist
  split at hlist
  · rename_i htime
    generalize hupdate : updateMerging _ b = outcome at hlist
    cases outcome with
    | error f => cases hlist
    | ok updated =>
      obtain rfl := Except.ok.inj hlist
      exact updateMerging_current hupdate htime h.check_normalize
  · rename_i htime
    obtain rfl := Except.ok.inj hlist
    exact clamp_current rfl (le_antisymm h.time (not_lt.1 htime)) h.check_normalize

/-- Descriptions of the present that lie apart as they are named. -/
theorem ofDescriptions_of_pairwise (h : Accepted b descriptions timestamp main items)
    (htime : timestamp = b.timestamp) (hapart : items.Pairwise fun a b => a.high < b.low) :
    ofDescriptions b descriptions timestamp main =
      .ok ⟨Selections.clamp b.text ⟨items, main⟩, b.id, timestamp⟩ := by
  rw [h.ofDescriptions_eq, Selections.normalize_eq_self (g := ⟨items, main⟩) hapart h.main, refresh,
    if_neg (by dsimp only; omega)]
  rfl

/-- **Descriptions of the present.** -/
theorem exists_of_eq (h : Accepted b descriptions timestamp main items)
    (htime : timestamp = b.timestamp) :
    ∃ list, ofDescriptions b descriptions timestamp main = .ok list ∧
      ((∀ s ∈ items, s.OnLines b.text) → list.verify b = .ok () ∧
        list.group.items.Pairwise fun a b => a.high ≤ b.low) ∧
      ((∀ s ∈ items, s.ValidIn b.text) → list.group.Settled b.text) := by
  have hread := h.ofDescriptions_eq
  rw [refresh, if_neg (by dsimp only; omega)] at hread
  refine ⟨_, hread, fun hlines => ?_, fun hvalid => ?_⟩
  · have hnormal := Selections.forall_normalize (g := ⟨items, main⟩)
      (fun _ _ => Selection.OnLines.cover) hlines
    have hpair := Selections.pairwise_clamp (Selections.pairwise_normalize ⟨items, main⟩) hnormal
    exact ⟨(h.current hread).verify (Selections.pairwise_low_of_pairwise hpair), hpair⟩
  · have hsettled := Selections.settled_normalize (g := ⟨items, main⟩) hvalid
    rw [mapGroup, Selections.clamp_of_validIn hsettled.valid]
    exact hsettled

/-- **Descriptions of the past**, seen from a text in which all that they name are positions. -/
theorem exists_of_refines {origin : Text} {d : Draft} (hd : Reached origin d)
    (h : Accepted d.buffer descriptions timestamp main items) (htime : timestamp < d.buffer.timestamp)
    {p : Text} (hp : p.Refines (d.textAt origin timestamp)) (hvalid : ∀ s ∈ items, s.ValidIn p)
    {extra : ℕ} (hsize : p.size ≤ (d.textAt origin timestamp).size + extra)
    (hsmall : ∀ n, timestamp ≤ n → n ≤ d.buffer.timestamp →
      (d.textAt origin n).size + extra < Text.capacity) :
    ∃ list, ofDescriptions d.buffer descriptions timestamp main = .ok list ∧
      (p.extent.line = (d.textAt origin timestamp).extent.line →
        list.verify d.buffer = .ok () ∧ Span.Apart list.group.extents) := by
  obtain ⟨q, htrail, -, hlines⟩ := hd.chronicle.exists_refines_since htime.le hp hsize hsmall
  have hpsmall : p.size < Text.capacity :=
    lt_of_le_of_lt hsize (hsmall timestamp le_rfl htime.le)
  obtain ⟨image, hmove, -⟩ := Caret.exists_moveBy htrail hpsmall
  have hbuffer : SelectionList.buffer
      ⟨Selections.normalize ⟨items, main⟩, d.buffer.id, timestamp⟩ = d.buffer.id := rfl
  obtain ⟨group, hfollows, hupdate⟩ := exists_update_true hbuffer htime hmove
    (Selections.settled_normalize hvalid).valid
  have hread := h.ofDescriptions_eq
  rw [refresh, if_pos htime, show updateMerging _ d.buffer = _ from hupdate] at hread
  refine ⟨_, hread, fun hline => ?_⟩
  -- the text with more positions has as many lines as the text of the buffer
  have hcount : q.lineCount = d.buffer.text.lineCount := by
    rw [Text.lineCount_eq, Text.lineCount_eq]
    omega
  have honlines : ∀ s ∈ group.items, s.OnLines d.buffer.text := by
    intro s hs
    have hs' := (hfollows.settled.valid s hs).onLines
    unfold Selection.OnLines at hs' ⊢
    rwa [hcount] at hs'
  have hclamp := Selections.pairwise_clamp hfollows.settled.pairwise_lt honlines
  have hcovers := Selections.covers_mergeOverlapping (Selections.pairwise_low_of_pairwise hclamp)
  have hle := (List.pairwise_map.1 hcovers.apart).imp fun hlt => hlt.le
  exact ⟨(h.current hread).verify (Selections.pairwise_low_of_pairwise hle), hcovers.apart⟩

/-- **Descriptions of the past** that name positions of the text they were taken of. -/
theorem exists_of_validIn {origin : Text} {d : Draft} (hd : Reached origin d)
    (h : Accepted d.buffer descriptions timestamp main items)
    (hvalid : ∀ s ∈ items, s.ValidIn (d.textAt origin timestamp)) :
    ∃ list, ofDescriptions d.buffer descriptions timestamp main = .ok list ∧
      list.verify d.buffer = .ok () ∧ Span.Apart list.group.extents := by
  rcases h.time.eq_or_lt with htime | htime
  · rw [htime, hd.chronicle.last] at hvalid
    obtain ⟨list, hlist, hlines, hsettled⟩ := h.exists_of_eq htime
    exact ⟨list, hlist, (hlines fun s hs => (hvalid s hs).onLines).1, (hsettled hvalid).apart⟩
  · -- the text itself will do, without any room to spare
    have hsmall : ∀ n, timestamp ≤ n → n ≤ d.buffer.timestamp →
        (d.textAt origin n).size + 0 < Text.capacity := fun n _ hn => hd.chronicle.small n hn
    obtain ⟨list, hlist, hall⟩ := h.exists_of_refines hd htime (.refl _) hvalid le_rfl hsmall
    exact ⟨list, hlist, hall rfl⟩

end Accepted

end

/-- The coordinates that selections name. -/
def named (items : List Selection) : List Coord := items.flatMap fun s => [s.anchor, s.cursor]

/-- All lines and columns that selections name, added up. -/
def reach (items : List Selection) : ℕ := Coord.total (named items)

theorem forall_named {p : Coord → Prop} {items : List Selection} :
    (∀ c ∈ named items, p c) ↔ ∀ s ∈ items, p s.anchor ∧ p s.cursor := by
  simp only [named, List.mem_flatMap, List.mem_cons, List.not_mem_nil, or_false]
  constructor
  · intro h s hs
    exact ⟨h _ ⟨s, hs, .inl rfl⟩, h _ ⟨s, hs, .inr rfl⟩⟩
  · rintro h c ⟨s, hs, rfl | rfl⟩
    · exact (h s hs).1
    · exact (h s hs).2

/-- The texts since a timestamp leave room for all lines and columns that selections name. -/
def LeavesRoom (origin : Text) (d : Draft) (timestamp : ℕ) (items : List Selection) : Prop :=
  ∀ n, timestamp ≤ n → n ≤ d.buffer.timestamp →
    (d.textAt origin n).size + reach items < Text.capacity

/-- Descriptions of the past that name any coordinates. -/
theorem Accepted.exists_of_leavesRoom {origin : Text} {d : Draft} {descriptions : List String}
    {timestamp main : ℕ} {items : List Selection} (hd : Reached origin d)
    (h : Accepted d.buffer descriptions timestamp main items) (htime : timestamp < d.buffer.timestamp)
    (hroom : LeavesRoom origin d timestamp items) :
    ∃ list, ofDescriptions d.buffer descriptions timestamp main = .ok list ∧
      ((∀ s ∈ items, s.OnLines (d.textAt origin timestamp)) →
        list.verify d.buffer = .ok () ∧ Span.Apart list.group.extents) := by
  obtain ⟨p, hp, hvalid, hsize, hlines⟩ :=
    (d.textAt origin timestamp).exists_refines_all (named items)
  obtain ⟨list, hlist, hall⟩ :=
    h.exists_of_refines hd htime hp (forall_named.1 hvalid) hsize hroom
  refine ⟨list, hlist, fun honlines => hall (hlines ?_)⟩
  refine forall_named.2 fun s hs => ?_
  have hs' := honlines s hs
  rw [Selection.OnLines, Text.lineCount_eq] at hs'
  exact ⟨Nat.le_of_lt_succ hs'.1, Nat.le_of_lt_succ hs'.2⟩

/-- **What comes of descriptions.** They are refused, or they stand for selections with the main one
among them. Whatever these name, a list that is read is at the present of its buffer: it has a main
selection, and its selections are at positions of the text. Whether there is a list, and whether its
selections are in order and lie apart, depends on the text at the timestamp of the descriptions.
* Descriptions of the present are always read. On lines that exist the selections come out in order,
  and share no more than their ends; at positions, they lie apart.
* Descriptions of the past are read if they name positions, or if all texts since then leave room for
  the numbers that they name. At positions, and on lines that existed, the selections come out in
  order and lie apart. -/
theorem ofDescriptions_outcome (b : Buffer) (descriptions : List String) (timestamp main : ℕ) :
    ((∀ items, ¬Accepted b descriptions timestamp main items) →
      ∃ e, ofDescriptions b descriptions timestamp main = .error (.error e)) ∧
    (∀ list, ofDescriptions b descriptions timestamp main = .ok list → list.Current b) ∧
    ∀ items, Accepted b descriptions timestamp main items →
      (timestamp = b.timestamp → ∃ list,
        ofDescriptions b descriptions timestamp main = .ok list ∧
        ((∀ s ∈ items, s.OnLines b.text) → list.verify b = .ok () ∧
          list.group.items.Pairwise fun a b => a.high ≤ b.low) ∧
        ((∀ s ∈ items, s.ValidIn b.text) → Span.Apart list.group.extents)) ∧
      ∀ origin d, Reached origin d → d.buffer = b → timestamp < b.timestamp →
        (LeavesRoom origin d timestamp items → ∃ list,
          ofDescriptions b descriptions timestamp main = .ok list ∧
          ((∀ s ∈ items, s.OnLines (d.textAt origin timestamp)) →
            list.verify b = .ok () ∧ Span.Apart list.group.extents)) ∧
        ((∀ s ∈ items, s.ValidIn (d.textAt origin timestamp)) → ∃ list,
          ofDescriptions b descriptions timestamp main = .ok list ∧
          list.verify b = .ok () ∧ Span.Apart list.group.extents) := by
  have hcases := refused_or_accepted b descriptions timestamp main
  refine ⟨fun hnot => ?_, fun list hlist => ?_, fun items h => ⟨fun htime => ?_, ?_⟩⟩
  · rcases hcases with hrefused | ⟨items, h⟩
    · exact hrefused
    · exact absurd h (hnot items)
  · rcases hcases with ⟨e, he⟩ | ⟨items, h⟩
    · rw [he] at hlist
      cases hlist
    · exact h.current hlist
  · obtain ⟨list, hlist, hlines, hsettled⟩ := h.exists_of_eq htime
    exact ⟨list, hlist, hlines, fun hvalid => (hsettled hvalid).apart⟩
  · rintro origin d hd rfl htime
    exact ⟨h.exists_of_leavesRoom hd htime, h.exists_of_validIn hd⟩

/-- Two descriptions from before the edits of the small run. -/
theorem ofDescriptions_outcome_sample :
    ∃ list, ofDescriptions Reached.sample.buffer ["1.2,1.1", "1.3,1.3"] 0 1 = .ok list ∧
      list.verify Reached.sample.buffer = .ok () ∧ Span.Apart list.group.extents := by
  obtain ⟨-, -, haccepted⟩ := ofDescriptions_outcome Reached.sample.buffer ["1.2,1.1", "1.3,1.3"] 0 1
  obtain ⟨-, hpast⟩ := haccepted [⟨⟨0, 1⟩, ⟨0, 0⟩, none, []⟩, ⟨⟨0, 2⟩, ⟨0, 2⟩, none, []⟩]
    ⟨by decide, by decide +kernel, by decide⟩
  obtain ⟨-, hvalid⟩ := hpast ['a', 'b'] Reached.sample Reached.of_script rfl (by decide)
  exact hvalid (by simp only [Selection.ValidIn]; decide)

/-- On lines that are not there clamping keeps the column and not the order, columns behind the end of
a line come to the same position, and numbers that are too large to be moved break a contract. -/
theorem not_ofDescriptions_inOrder :
    ∃ d later, Reached ['a', 'b', 'c'] d ∧ d.run [.insert ⟨0, 0⟩ ['x', 'x']] = .ok later ∧
      (∃ list, ofDescriptions d.buffer ["1.4,1.4", "6.1,6.1"] 0 0 = .ok list ∧
        list.verify d.buffer = .error .unsorted) ∧
      (∃ list, ofDescriptions d.buffer ["1.5,1.5", "1.6,1.6"] 0 0 = .ok list ∧
        ¬Span.Apart list.group.extents) ∧
      ofDescriptions later.buffer ["1.18446744073709551615,1.1"] 0 0 = .error (.fault .overflow) := by
  have hfar : Accepted (Buffer.ofText 0 ['a', 'b', 'c'] {}) ["1.4,1.4", "6.1,6.1"] 0 0
      [⟨⟨0, 3⟩, ⟨0, 3⟩, none, []⟩, ⟨⟨5, 0⟩, ⟨5, 0⟩, none, []⟩] :=
    ⟨by decide, by decide +kernel, by decide⟩
  have hnear : Accepted (Buffer.ofText 0 ['a', 'b', 'c'] {}) ["1.5,1.5", "1.6,1.6"] 0 0
      [⟨⟨0, 4⟩, ⟨0, 4⟩, none, []⟩, ⟨⟨0, 5⟩, ⟨0, 5⟩, none, []⟩] :=
    ⟨by decide, by decide +kernel, by decide⟩
  have hread := hfar.ofDescriptions_of_pairwise rfl (by decide)
  have hread' := hnear.ofDescriptions_of_pairwise rfl (by decide)
  refine ⟨{ buffer := Buffer.ofText 0 ['a', 'b', 'c'] {} }, _, ⟨0, {}, [], by decide, by simp, rfl⟩,
    rfl, ⟨_, hread, by decide +kernel⟩, ⟨_, hread', ?_⟩, by decide +kernel⟩
  unfold Span.Apart
  decide

end SelectionList

end Caret
