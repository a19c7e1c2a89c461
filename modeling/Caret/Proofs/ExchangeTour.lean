import Mathlib.Algebra.Order.Ring.Nat
import Caret.Proofs.Exchange
import Caret.Proofs.InnerVisit

/-!
# One text in the place of every selection

A tour hands out one selection after the other, and another text takes the place of what it covers. Up to
the last text put in the old text has become the new one, and from there on both are the same, so that
the selections still to come are carried along, whether the texts in front of them grow or shrink.

* `Swap`: an exchange and the selection that it was made for.
* `SelectionList.Tour.Exchanging`: the invariant of such a tour.
* `SelectionList.Tour.Exchanging.exists_visit`: one selection.
* `SelectionList.Tour.exists_swaps`: all selections, one after the other.
-/

namespace Caret

namespace Text.Exchanges

variable {a b r r' : Text} {es : List Exchange} {e : Exchange}

/-- **Every text that was put in** is in the resulting text. -/
theorem exists_behind (h : Exchanges a b es r r') (he : e ∈ es) :
    b.extent ≤ e.front.extent ∧ ∃ q, b ++ r' = e.front ++ e.text ++ q := by
  induction h with
  | nil a b r => cases he
  | @cons a b r r' es gap body text h ih =>
    have hassoc : b ++ (gap ++ text ++ r') = b ++ gap ++ text ++ r' := by simp only [List.append_assoc]
    rw [hassoc]
    rcases List.mem_cons.1 he with rfl | he
    · exact ⟨Text.extent_le_append b gap, r', rfl⟩
    · obtain ⟨hle, hq⟩ := ih he
      have hgap := Text.extent_le_append b gap
      exact ⟨hgap.trans ((Text.extent_le_append (b ++ gap) text).trans hle), hq⟩

/-- One text comes behind the other. -/
theorem pairwise (h : Exchanges a b es r r') :
    es.Pairwise fun e e' => (e.front ++ e.text).extent ≤ e'.front.extent := by
  induction h with
  | nil a b r => exact .nil
  | cons gap body text h ih => exact List.pairwise_cons.2 ⟨fun e he => (h.exists_behind he).1, ih⟩

end Text.Exchanges

/-- An exchange and the selection that it was made for. -/
structure Swap extends Exchange where
  selection : Selection
  deriving DecidableEq, Repr, Inhabited

/-- What is left of the selection. -/
def Swap.placed (left : Selection → Coord → Coord → Selection) (u : Swap) : Selection :=
  left u.selection u.front.extent (u.front ++ u.text.dropLast).extent

/-- What is left of a selection depends on its direction, not on where it was. -/
def Selection.IgnoresEnds (left : Selection → Coord → Coord → Selection) : Prop :=
  ∀ (s : Selection) (anchor cursor low high : Coord), (s.anchor ≤ s.cursor ↔ anchor ≤ cursor) →
    left { s with anchor, cursor } low high = left s low high

theorem Selection.ignoresEnds_withEnds : IgnoresEnds withEnds := by
  intro s anchor cursor low high hiff
  by_cases hs : s.anchor ≤ s.cursor
  · rw [withEnds_of_forward hs]
    exact withEnds_of_forward (s := { s with anchor, cursor }) (hiff.1 hs) low high
  · rw [withEnds_of_backward hs]
    exact withEnds_of_backward (s := { s with anchor, cursor }) (fun h => hs (hiff.2 h)) low high

namespace SelectionList

namespace Tour

/-- **The invariant of a tour that exchanges texts.** So far `a`, the beginning of the text `t`, has become
`b`, and `r` behind it is the same. -/
structure Exchanging (T : Tour) (t a b r : Text) : Prop where
  refusal : T.refusal = none
  queued : T.queued = []
  writable : T.draft.buffer.options.flags.readOnly = false
  timestamp : T.timestamp = T.draft.buffer.timestamp
  origin : t = a ++ r
  text : T.draft.buffer.text = b ++ r
  tracker : T.tracker.StandsIn a b

/-- A tour that has not begun. -/
theorem exchanging_start {d : Draft} (hw : d.buffer.options.flags.readOnly = false) (mayQueue : Bool) :
    Exchanging { draft := d, tracker := .start, timestamp := d.buffer.timestamp, mayQueue }
      d.buffer.text [] [] d.buffer.text :=
  ⟨rfl, rfl, hw, rfl, rfl, rfl, Tracker.standsIn_start []⟩

variable {T : Tour} {t a b r x : Text} {s : Selection} {rest : List Selection} {callback : ℕ → Script}
  {left : Selection → Coord → Coord → Selection} {texts : ℕ → Text}

/-- **One selection.** The text takes the place of what it covers. -/
theorem Exchanging.exists_visit (h : T.Exchanging t a b r) (ht : t.size < Text.capacity)
    (hs : s.ValidIn t) (hlow : a.extent ≤ s.low) (hleft : Selection.IgnoresEnds left)
    (hcallback : (callback T.finished.length).PutsInPlace x left)
    (hsize : T.draft.buffer.text.size + x.size < Text.capacity) :
    ∃ T' gap body r', T.visit callback s = (.ok (), T') ∧ r = gap ++ body ++ r' ∧
      T'.Exchanging t (a ++ gap ++ body) (b ++ gap ++ x) r' ∧
      s.span t = .ok ⟨(a ++ gap).extent, (a ++ gap ++ body).extent⟩ ∧
      T'.finished = T.finished ++ [left s (b ++ gap).extent (b ++ gap ++ x.dropLast).extent] ∧
      T'.draft.buffer.text.size ≤ T.draft.buffer.text.size + x.size := by
  have hsmall : (a ++ r).size < Text.capacity := h.origin ▸ ht
  have hlarge : (b ++ r).size < Text.capacity := h.text ▸ (Nat.le_add_right _ _).trans_lt hsize
  obtain ⟨anchor, cursor, harrive, hcarried⟩ := exists_arrive h.tracker hsmall hlarge (h.origin ▸ hs) hlow
  obtain ⟨gap, body, r', rfl, hwas, hlow', hnext, hnext'⟩ := hcarried.exists_text hsmall hlarge
  have hassoc : ∀ X Y : Text, X ++ (gap ++ Y ++ r') = X ++ gap ++ Y ++ r' := fun X Y => by
    simp only [List.append_assoc]
  have htext := h.text
  rw [hassoc] at htext hsmall hlarge hnext'
  have hsizes : (b ++ gap ++ x ++ r').size ≤ T.draft.buffer.text.size + x.size := by
    rw [htext]
    simp only [Text.size_append]
    omega
  obtain ⟨d', hrun, hbecame⟩ := hcallback ⟨T.draft, { s with anchor, cursor }, T.mayQueue, T.queued⟩
    (b ++ gap) body r' htext h.writable hlarge (hsizes.trans_lt hsize) hlow' hnext'
  -- the tracker goes from in front of the selection to behind it
  have hstands := h.tracker.append gap
  have hbgap := (Text.size_append_lt (Text.size_append_lt hlarge).1).1
  obtain ⟨tracker', hfeed, hstands'⟩ := hstands.exists_feedAll (x := x) (Text.size_append_lt hsmall).1 hbgap
  have hcatch : T.tracker.catchUp d'.buffer T.timestamp = .ok tracker' := by
    rw [h.timestamp, Buffer.timestamp, Tracker.catchUp_append hbecame.logged]
    exact hfeed
  refine ⟨_, gap, body, r', (visit_eq harrive h.refusal hrun).trans (catchUp_eq hcatch), rfl,
    ⟨h.refusal, h.queued, ?_, rfl, ?_, hbecame.text, hstands'⟩, ?_, ?_, ?_⟩
  · exact (congrArg (fun options => options.flags.readOnly) hbecame.options).trans h.writable
  · exact h.origin.trans (hassoc a body)
  · rw [h.origin]
    exact Selection.span_eq_ok_iff.2 ⟨hwas, hnext⟩
  · exact congrArg (fun s' => T.finished ++ [s'])
      (hleft s anchor cursor _ _ (hcarried.anchor.le_iff hcarried.cursor))
  · exact (congrArg Text.size hbecame.text).trans_le hsizes

/-- **All selections**, one after the other. -/
theorem exists_swaps (h : T.Exchanging t a b r) (ht : t.size < Text.capacity)
    (hv : ∀ s ∈ rest, s.ValidIn t) (hapart : rest.Pairwise fun a b => a.high < b.low)
    (hahead : ∀ s ∈ rest, a.extent ≤ s.low) (hleft : Selection.IgnoresEnds left)
    (hcallback : ∀ i, (callback i).PutsInPlace (texts i) left)
    (hsize : T.draft.buffer.text.size +
      ((List.range rest.length).map fun i => (texts (T.finished.length + i)).size).sum < Text.capacity) :
    ∃ (T' : Tour) (us : List Swap) (r' : Text), visitAll callback rest T = (.ok (), T') ∧
      us.map Swap.selection = rest ∧ Text.Exchanges a b (us.map Swap.toExchange) r r' ∧
      (∀ u ∈ us, u.selection.span t = .ok u.was) ∧
      (∀ i u, us[i]? = some u → u.text = texts (T.finished.length + i)) ∧
      T'.draft.buffer.text = b ++ r' ∧ T'.draft.buffer.text.size < Text.capacity ∧
      T'.refusal = none ∧ T'.queued = [] ∧
      T'.finished = T.finished ++ us.map (Swap.placed left) := by
  induction rest generalizing T a b r with
  | nil =>
    exact ⟨T, [], r, rfl, rfl, .nil a b r, by simp, by simp, h.text, by simpa using hsize,
      h.refusal, h.queued, by simp⟩
  | cons s rest ih =>
    obtain ⟨hs, hv⟩ := List.forall_mem_cons.1 hv
    obtain ⟨hbehind, hapart⟩ := List.pairwise_cons.1 hapart
    rw [List.length_cons, List.range_succ_eq_map, List.map_cons, List.map_map, List.sum_cons] at hsize
    obtain ⟨T₁, gap, body, r₁, hvisit, rfl, h₁, hspan, hfinished, hsize₁⟩ :=
      h.exists_visit ht hs (hahead s List.mem_cons_self) hleft (hcallback T.finished.length) (by
        rw [Nat.add_zero] at hsize
        omega)
    have hlength : T₁.finished.length = T.finished.length + 1 := by
      rw [hfinished, List.length_append, List.length_singleton]
    have hnext := (Selection.span_eq_ok_iff.1 hspan).2
    have hahead₁ : ∀ s₁ ∈ rest, (a ++ gap ++ body).extent ≤ s₁.low := fun s₁ hs₁ =>
      (Text.nextCoord_le ht hs.high (hv s₁ hs₁).low hnext (hbehind s₁ hs₁)).2
    have hshift (i : ℕ) : T.finished.length + (i + 1) = T₁.finished.length + i := by omega
    obtain ⟨T', us, r', hvisits, hselections, hexchanges, hspans, htexts, htext, hsmall, hrefusal, hqueued,
      hfinished'⟩ := ih h₁ hv hapart hahead₁ (by
        simp only [Function.comp_def, hshift, Nat.succ_eq_add_one] at hsize
        rw [Nat.add_zero] at hsize
        omega)
    refine ⟨T', ⟨⟨a ++ gap, body, b ++ gap, texts T.finished.length⟩, s⟩ :: us,
      gap ++ texts T.finished.length ++ r', ?_, ?_, ?_, ?_, ?_, ?_, hsmall, hrefusal, hqueued,
      ?_⟩
    · rw [visitAll, hvisit]
      exact hvisits
    · rw [List.map_cons, hselections]
    · exact .cons gap body _ hexchanges
    · exact List.forall_mem_cons.2 ⟨hspan, hspans⟩
    · intro i u hu
      cases i with
      | zero =>
        cases hu
        rfl
      | succ i =>
        rw [hshift]
        exact htexts i u hu
    · rw [htext]
      simp only [List.append_assoc]
    · rw [hfinished', hfinished, List.append_assoc]
      rfl

end Tour

end SelectionList

end Caret
