import Mathlib.Algebra.Order.Ring.Nat
import Caret.Proofs.Placement
import Caret.Proofs.Tour
import Caret.Proofs.Update

/-!
# One text next to every selection

A tour hands out one selection after the other and puts a text in next to it. Its tracker stands
where the last text went in: up to there the old text has become the new one, and from there on both
are the same, so that the selections still to come are carried along.

* `SelectionList.Tour.Stands`: the invariant of such a tour.
* `SelectionList.Tour.Stands.exists_visit`: one selection.
* `SelectionList.Tour.exists_visitAll`: all selections, one after the other.
-/

namespace Caret

/-- A line begins in front of all that is on it. -/
theorem Coord.lineStart_le (c : Coord) : ⟨c.line, 0⟩ ≤ c := .inr ⟨rfl, Nat.zero_le _⟩

/-- A coordinate in front of all texts put in stays. -/
theorem Coord.across_of_lt {c : Coord} {log : List Change}
    (h : ∀ change ∈ log, change.kind = .insert ∧ c < change.start) : c.across log = .ok c := by
  induction log with
  | nil => rfl
  | cons change log ih =>
    obtain ⟨⟨hkind, hlt⟩, hrest⟩ := List.forall_mem_cons.1 h
    have hmove : change.move c = .ok c := by
      unfold Change.move Coord.acrossInsert
      rw [hkind]
      exact if_pos hlt
    rw [Coord.across_cons hmove, ih hrest]

/-- **A selection moved across a log**, end by end, with all else as it was. -/
def Selection.MovesTo (log : List Change) (s s' : Selection) : Prop :=
  ∃ anchor cursor, s.anchor.across log = .ok anchor ∧ s.cursor.across log = .ok cursor ∧
    s' = { s with anchor, cursor }

theorem Selection.MovesTo.unique {s s₁ s₂ : Selection} {log : List Change} (h₁ : s.MovesTo log s₁)
    (h₂ : s.MovesTo log s₂) : s₁ = s₂ := by
  obtain ⟨anchor, cursor, hanchor, hcursor, rfl⟩ := h₁
  obtain ⟨anchor', cursor', hanchor', hcursor', rfl⟩ := h₂
  cases hanchor.symm.trans hanchor'
  cases hcursor.symm.trans hcursor'
  rfl

/-- A selection in front of further texts stays where it is. -/
theorem Selection.MovesTo.append {s s' : Selection} {log more : List Change} (h : s.MovesTo log s')
    (hmore : ∀ change ∈ more,
      change.kind = .insert ∧ s'.anchor < change.start ∧ s'.cursor < change.start) :
    s.MovesTo (log ++ more) s' := by
  obtain ⟨anchor, cursor, hanchor, hcursor, rfl⟩ := h
  have hstay : ∀ {c c' : Coord}, c.across log = .ok c' →
      (∀ change ∈ more, change.kind = .insert ∧ c' < change.start) → c.across (log ++ more) = .ok c' :=
    fun hc hlt => (Coord.across_append hc).trans (Coord.across_of_lt hlt)
  exact ⟨anchor, cursor, hstay hanchor fun change hc => ⟨(hmore change hc).1, (hmore change hc).2.1⟩,
    hstay hcursor fun change hc => ⟨(hmore change hc).1, (hmore change hc).2.2⟩, rfl⟩

/-- Where two logs that move a selection to the same place take its end. -/
theorem Selection.MovesTo.high {s s' : Selection} {log log' : List Change} (h : s.MovesTo log s')
    (h' : s.MovesTo log' s') : ∃ e, s.high.across log = .ok e ∧ s.high.across log' = .ok e := by
  obtain ⟨anchor, cursor, hanchor, hcursor, rfl⟩ := h
  obtain ⟨anchor', cursor', hanchor', hcursor', hsame⟩ := h'
  cases hsame
  unfold Selection.high
  rcases le_total s.anchor s.cursor with hle | hle
  · rw [max_eq_right hle]
    exact ⟨cursor, hcursor, hcursor'⟩
  · rw [max_eq_left hle]
    exact ⟨anchor, hanchor, hanchor'⟩

/-- A text to be put in next to a selection. -/
structure Stop extends Insertion where
  selection : Selection
  deriving DecidableEq, Repr, Inhabited

namespace Stop

/-- The selection is at positions of the text, and its text belongs at its place. -/
structure Fits (placement : Placement) (t : Text) (u : Stop) : Prop where
  valid : u.selection.ValidIn t
  place : placement.resolve t u.selection = .ok u.point

/-- **One stop after another.** The text of the first goes in at or in front of all that belongs to
the second, and the text of the second behind the selection of the first. -/
structure Before (u v : Stop) : Prop where
  point_le_low : u.point ≤ v.selection.low
  point_le_point : u.point ≤ v.point
  high_lt_point : u.selection.high < v.point

variable {placement : Placement} {t : Text} {u v : Stop}

theorem Fits.validPoint (h : u.Fits placement t) (ht : t.size < Text.capacity) : t.Valid u.point := by
  obtain ⟨c, hc, hvalid⟩ := placement.exists_resolve ht h.valid
  cases hc.symm.trans h.place
  exact hvalid

/-- Lines begin in front of the selections on them. -/
theorem Before.lt_of_lineBegin (h : u.Before v) (hu : u.Fits .lineBegin t) : u.point < v.point := by
  have hpoint : (⟨u.selection.low.line, 0⟩ : Coord) = u.point := Except.ok.inj hu.place
  have hle : u.point ≤ u.selection.low := hpoint ▸ u.selection.low.lineStart_le
  exact lt_of_le_of_lt (hle.trans u.selection.low_le_high) h.high_lt_point

end Stop

namespace SelectionList

namespace Tour

/-- **The invariant of a tour that puts texts in.** So far it has put in `pieces`, which made `log`.
It stands behind `a` in the old text `t` and behind `b` in the present one, and the rest `q` of the
text is the same. -/
structure Stands (T : Tour) (t : Text) (old : List Change) (pieces : List Insertion)
    (log : List Change) (a b q : Text) : Prop where
  refusal : T.refusal = none
  queued : T.queued = []
  writable : T.draft.buffer.options.flags.readOnly = false
  timestamp : T.timestamp = T.draft.buffer.timestamp
  logged : T.draft.buffer.log = old ++ log
  origin : t = a ++ q
  text : T.draft.buffer.text = b ++ q
  tracker : T.tracker = ⟨b.extent, a.extent⟩
  changes : Insertion.changes pieces = .ok log
  inserts : ∀ change ∈ log, change.kind = .insert
  trail : Trail t log T.draft.buffer.text
  splice : t.splice pieces = b ++ q
  border : a = [] ∧ b = [] ∨ ∃ piece ∈ pieces, piece.point = a.extent
  reached : ∀ piece ∈ pieces, piece.text ≠ [] → piece.point ≤ a.extent
  ahead : ∀ m r, q = m ++ r → (a ++ m).extent.across log = .ok (b ++ m).extent

namespace Stands

variable {T T' : Tour} {t a b q g r x : Text} {old log : List Change} {pieces : List Insertion}
  {piece : Insertion} {placement : Placement} {callback : ℕ → Script} {s : Selection} {c : Coord}

/-- The tour stands in front of all that lies behind its texts. -/
theorem border_le (h : T.Stands t old pieces log a b q) (hc : ∀ piece ∈ pieces, piece.point ≤ c) :
    a.extent ≤ c := by
  rcases h.border with ⟨rfl, -⟩ | ⟨piece, hpiece, hpoint⟩
  · exact Coord.zero_le c
  · exact hpoint ▸ hc piece hpiece

/-- **A selection arrives** with the text that it is in. -/
theorem exists_arrive (h : T.Stands t old pieces log a b q) (ht : t.size < Text.capacity)
    (hsize : T.draft.buffer.text.size < Text.capacity) (hs : s.ValidIn t)
    (hlow : ∀ piece ∈ pieces, piece.point ≤ s.low) :
    ∃ anchor cursor, T.arrive s = .ok { s with anchor, cursor } ∧
      s.anchor.across log = .ok anchor ∧ s.cursor.across log = .ok cursor ∧
        s.Carried a b q { s with anchor, cursor } := by
  have hborder := h.border_le hlow
  obtain ⟨hanchor, hcursor⟩ := hs
  rw [h.origin] at ht hanchor hcursor
  rw [h.text] at hsize
  obtain ⟨m₁, r₁, hq₁, hm₁⟩ := Text.exists_behind hanchor (hborder.trans (min_le_left _ _))
  obtain ⟨m₂, r₂, hq₂, hm₂⟩ := Text.exists_behind hcursor (hborder.trans (min_le_right _ _))
  obtain ⟨ha, hq⟩ := Text.size_append_lt ht
  have hb := (Text.size_append_lt hsize).1
  refine ⟨(b ++ m₁).extent, (b ++ m₂).extent, ?_, hm₁ ▸ h.ahead m₁ r₁ hq₁, hm₂ ▸ h.ahead m₂ r₂ hq₂,
    ⟨m₁, r₁, hq₁, hm₁, rfl⟩, ⟨m₂, r₂, hq₂, hm₂, rfl⟩⟩
  unfold arrive
  rw [h.tracker, hm₁, hm₂, Tracker.landing_extent ha hb (Text.size_append_lt (hq₁ ▸ hq)).1, Fault.ok_bind,
    Tracker.landing_extent ha hb (Text.size_append_lt (hq₂ ▸ hq)).1]
  rfl

/-- **An empty text** changes nothing. -/
theorem skip (h : T.Stands t old pieces log a b q) (hq : q = g ++ r)
    (hle : ∀ earlier ∈ pieces, earlier.point ≤ (a ++ g).extent) (hdraft : T'.draft = T.draft)
    (htracker : T'.tracker = T.tracker) (htimestamp : T'.timestamp = T.timestamp)
    (hrefusal : T'.refusal = T.refusal) (hqueued : T'.queued = T.queued) :
    T'.Stands t old (pieces ++ [⟨(a ++ g).extent, []⟩]) log a b q := by
  have hsplice : t.splice (pieces ++ [⟨(a ++ g).extent, []⟩]) = b ++ q := by
    have hold := h.splice
    rw [h.origin, hq, ← List.append_assoc, ← List.append_assoc] at hold ⊢
    rw [Text.splice_concat [] hle hold, List.append_nil]
  refine ⟨hrefusal.trans h.refusal, hqueued.trans h.queued, hdraft ▸ h.writable, ?_,
    hdraft ▸ h.logged, h.origin, hdraft ▸ h.text, htracker.trans h.tracker,
    Insertion.changes_concat_of_nil h.changes rfl, h.inserts, hdraft ▸ h.trail, hsplice, ?_, ?_, h.ahead⟩
  · rw [htimestamp, hdraft]
    exact h.timestamp
  · exact h.border.imp_right fun ⟨earlier, hearlier, hsame⟩ =>
      ⟨earlier, List.mem_append_left _ hearlier, hsame⟩
  · exact List.forall_mem_append.2 ⟨h.reached, by simp⟩

/-- **A text put in** between `g` and the rest takes the tour up to there. -/
theorem put (h : T.Stands t old pieces log a b q) (hq : q = g ++ r) (hx : x ≠ [])
    (hle : ∀ earlier ∈ pieces, earlier.point ≤ (a ++ g).extent)
    (hsize : (b ++ g ++ x ++ r).size < Text.capacity)
    (htext : T'.draft.buffer.text = b ++ g ++ x ++ r)
    (hlog : T'.draft.buffer.log =
      T.draft.buffer.log ++ [⟨.insert, (b ++ g).extent, (b ++ g ++ x).extent⟩])
    (hwritable : T'.draft.buffer.options.flags.readOnly = false)
    (htracker : T'.tracker = ⟨(b ++ g ++ x).extent, (a ++ g).extent⟩)
    (htimestamp : T'.timestamp = T'.draft.buffer.timestamp) (hrefusal : T'.refusal = T.refusal)
    (hqueued : T'.queued = T.queued) :
    T'.Stands t old (pieces ++ [⟨(a ++ g).extent, x⟩])
      (log ++ [⟨.insert, (b ++ g).extent, (b ++ g ++ x).extent⟩]) (a ++ g) (b ++ g ++ x) r := by
  have htg : t = a ++ g ++ r := by rw [h.origin, hq, List.append_assoc]
  have hchanges : Insertion.changes (pieces ++ [⟨(a ++ g).extent, x⟩]) =
      .ok (log ++ [⟨.insert, (b ++ g).extent, (b ++ g ++ x).extent⟩]) := by
    rw [Text.extent_append (b ++ g) x]
    exact Insertion.changes_concat h.changes hx (h.ahead g r hq)
  have hsplice := h.splice
  rw [htg, hq, ← List.append_assoc] at hsplice
  refine ⟨hrefusal.trans h.refusal, hqueued.trans h.queued, hwritable, htimestamp, ?_, htg, htext,
    htracker, hchanges, ?_, ?_, htg ▸ Text.splice_concat x hle hsplice,
    .inr ⟨_, List.mem_append_right _ List.mem_cons_self, rfl⟩,
    List.forall_mem_append.2 ⟨fun earlier hearlier _ => hle earlier hearlier, by simp⟩, ?_⟩
  · rw [hlog, h.logged, List.append_assoc]
  · intro change hchange
    rcases List.mem_append.1 hchange with hchange | hchange
    · exact h.inserts change hchange
    · rw [List.mem_singleton.1 hchange]
  · refine Trail.append_iff.2 ⟨_, h.trail, _, ?_, hsize, htext.symm⟩
    rw [h.text, hq, ← List.append_assoc]
    exact .insert (b ++ g) x r hx
  · -- what lies behind the text put in moves on by it
    intro m r' hr
    have hfront := h.ahead (g ++ m) r' (by rw [hq, hr, List.append_assoc])
    rw [hr, ← List.append_assoc] at hsize
    obtain ⟨hbgx, hm⟩ := Text.size_append_lt (Text.size_append_lt hsize).1
    rw [← List.append_assoc, ← List.append_assoc] at hfront
    rw [Coord.across_append hfront, Coord.across_single]
    unfold Change.move Coord.acrossInsert
    dsimp only
    rw [if_neg (not_lt.2 (Text.extent_le_append (b ++ g) m)),
      Text.carry_extent (Text.size_append_lt hbgx).1 hbgx hm]

/-- The tracker takes in the change that put a text in. -/
theorem catchUp_put (h : T.Stands t old pieces log a b q) (hq : q = g ++ r)
    (ht : t.size < Text.capacity) (hsize : T.draft.buffer.text.size < Text.capacity) {buffer : Buffer}
    (hlog : buffer.log =
      T.draft.buffer.log ++ [⟨.insert, (b ++ g).extent, (b ++ g ++ x).extent⟩]) :
    T.tracker.catchUp buffer T.timestamp = .ok ⟨(b ++ g ++ x).extent, (a ++ g).extent⟩ := by
  rw [h.origin] at ht
  rw [h.text] at hsize
  obtain ⟨ha, hqs⟩ := Text.size_append_lt ht
  have hg := (Text.size_append_lt (hq ▸ hqs)).1
  rw [h.timestamp, Buffer.timestamp, Tracker.catchUp_concat hlog, h.tracker]
  exact Tracker.feed_insert ha (Text.size_append_lt hsize).1 hg

/-- The place of the text for a selection once it has arrived. -/
theorem resolve_arrived (h : T.Stands t old pieces log a b q)
    (ht : t.size < Text.capacity) (hsize : T.draft.buffer.text.size < Text.capacity) {s' : Selection}
    (hcarried : s.Carried a b q s') (hplace : placement.resolve t s = .ok (a ++ g).extent)
    (hbegin : placement = .lineBegin → ∀ earlier ∈ pieces, earlier.point < (a ++ g).extent) :
    placement.resolve T.draft.buffer.text s' = .ok (b ++ g).extent := by
  rw [h.origin] at ht hplace
  rw [h.text] at hsize ⊢
  refine Placement.resolve_carried ht hsize hcarried hplace fun hbeginning hnil => ?_
  rcases h.border with ⟨-, rfl⟩ | ⟨earlier, hearlier, hsame⟩
  · rfl
  · have hlt := hbegin hbeginning earlier hearlier
    rw [hnil, List.append_nil, hsame] at hlt
    exact absurd hlt (lt_irrefl _)

/-- **One selection.** The text for it goes in at its place, and it moves across all texts put in so
far, its own included. -/
theorem exists_visit (h : T.Stands t old pieces log a b q) (ht : t.size < Text.capacity)
    (hcallback : callback T.finished.length = .insertNear placement piece.text) (hs : s.ValidIn t)
    (hplace : placement.resolve t s = .ok piece.point) (hpoint : t.Valid piece.point)
    (hlow : ∀ earlier ∈ pieces, earlier.point ≤ s.low)
    (hle : ∀ earlier ∈ pieces, earlier.point ≤ piece.point)
    (hbegin : placement = .lineBegin → ∀ earlier ∈ pieces, earlier.point < piece.point)
    (hsize : T.draft.buffer.text.size + piece.text.size < Text.capacity) :
    ∃ T' more a' b' q' s', T.visit callback s = (.ok (), T') ∧
      T'.Stands t old (pieces ++ [piece]) (log ++ more) a' b' q' ∧
      T'.draft.buffer.text.size = T.draft.buffer.text.size + piece.text.size ∧
      T'.finished = T.finished ++ [s'] ∧ s.MovesTo (log ++ more) s' ∧
      ∀ change ∈ more, change.kind = .insert ∧ piece.point.across log = .ok change.start := by
  have hsmall : T.draft.buffer.text.size < Text.capacity := by omega
  obtain ⟨anchor, cursor, harrive, hanchor, hcursor, hcarried⟩ := h.exists_arrive ht hsmall hs hlow
  obtain ⟨g, r, hq, hg⟩ := Text.exists_behind (h.origin ▸ hpoint) (h.border_le hle)
  obtain ⟨point, x⟩ := piece
  dsimp only at hg hplace hsize hpoint hle hbegin hcallback ⊢
  subst hg
  have hstart := h.resolve_arrived ht hsmall hcarried hplace hbegin
  have htext : T.draft.buffer.text = b ++ g ++ r := by rw [h.text, hq, List.append_assoc]
  rcases eq_or_ne x [] with rfl | hx
  · have hrun := Script.run_insertNear_nil (v := ⟨T.draft, { s with anchor, cursor }, T.mayQueue, T.queued⟩)
      h.writable hstart (by rw [htext]; exact Text.valid_extent_append _ r)
    rw [← hcallback] at hrun
    have hcatch : T.tracker.catchUp T.draft.buffer T.timestamp = .ok T.tracker := by
      unfold Tracker.catchUp
      rw [Buffer.logSince_eq h.timestamp.le, h.timestamp, Fault.ok_bind, Buffer.timestamp,
        List.drop_length]
      rfl
    refine ⟨_, [], a, b, q, _, (visit_eq harrive h.refusal hrun).trans (catchUp_eq hcatch), ?_, rfl, rfl,
      ?_, by simp⟩
    · rw [List.append_nil]
      exact h.skip hq hle rfl rfl h.timestamp.symm rfl rfl
    · rw [List.append_nil]
      exact ⟨anchor, cursor, hanchor, hcursor, rfl⟩
  · -- the text goes in, and the ends move across it
    have hnew : (b ++ g ++ x ++ r).size = T.draft.buffer.text.size + x.size := by
      rw [htext]
      simp only [Text.size_append]
      omega
    have htakes : (⟨.insert, (b ++ g).extent, (b ++ g ++ x).extent⟩ : Change).Takes T.draft.buffer.text
        (b ++ g ++ x ++ r) := htext ▸ .insert (b ++ g) x r hx
    have hvalid := hcarried.validIn
    rw [← h.text] at hvalid
    obtain ⟨anchor', hanchor', hvalidAnchor⟩ := htakes.exists_valid hsmall (by omega) hvalid.1
    obtain ⟨cursor', hcursor', hvalidCursor⟩ := htakes.exists_valid hsmall (by omega) hvalid.2
    have hrun := Script.run_insertNear (v := ⟨T.draft, { s with anchor, cursor }, T.mayQueue, T.queued⟩)
      htext h.writable (by omega) hx hstart hanchor' hcursor' hvalidAnchor hvalidCursor
    rw [← hcallback] at hrun
    obtain ⟨hdtext, hdlog, hdoptions, -⟩ := T.draft.record_advance ⟨.insert, (b ++ g).extent, x⟩
      (b ++ g ++ x ++ r) ⟨.insert, (b ++ g).extent, (b ++ g ++ x).extent⟩
    refine ⟨_, [⟨.insert, (b ++ g).extent, (b ++ g ++ x).extent⟩], a ++ g, b ++ g ++ x, r, _,
      (visit_eq harrive h.refusal hrun).trans (catchUp_eq (h.catchUp_put hq ht hsmall hdlog)),
      h.put hq hx hle (by omega) hdtext hdlog (by exact hdoptions ▸ h.writable) rfl rfl rfl rfl,
      (congrArg Text.size hdtext).trans hnew, rfl, ⟨anchor', cursor', ?_, ?_, rfl⟩, ?_⟩
    · rw [Coord.across_append hanchor, Coord.across_single]
      exact hanchor'
    · rw [Coord.across_append hcursor, Coord.across_single]
      exact hcursor'
    · intro change hchange
      rw [List.mem_singleton.1 hchange]
      exact ⟨rfl, h.ahead g r hq⟩

end Stands

/-! ## All selections -/

/-- **Where the selections of a tour end up**: each one moved across all texts put in so far, of which
only its own and those for the selections before it matter. -/
structure Settles (stops : List Stop) (log : List Change) (finished : List Selection) : Prop where
  length : finished.length = stops.length
  own : ∀ {i : ℕ} {u : Stop} {s' : Selection}, stops[i]? = some u → finished[i]? = some s' →
    ∃ log', Insertion.changes ((stops.take (i + 1)).map (·.toInsertion)) = .ok log' ∧
      u.selection.MovesTo log' s'
  all : ∀ {i : ℕ} {u : Stop} {s' : Selection}, stops[i]? = some u → finished[i]? = some s' → u.selection.MovesTo log s'

/-- **One more selection.** The text for it goes in behind all selections before it. -/
theorem Settles.concat {t t' : Text} {stops : List Stop} {log more : List Change}
    {finished : List Selection} {u : Stop} {s' : Selection} (h : Settles stops log finished)
    (htrail : Trail t log t') (hinserts : ∀ change ∈ log, change.kind = .insert)
    (hvalid : ∀ v ∈ stops, v.selection.ValidIn t) (hpoint : t.Valid u.point)
    (hbefore : ∀ v ∈ stops, v.selection.high < u.point)
    (hmore : ∀ change ∈ more, change.kind = .insert ∧ u.point.across log = .ok change.start)
    (hchanges : Insertion.changes ((stops ++ [u]).map (·.toInsertion)) = .ok (log ++ more))
    (hmoves : u.selection.MovesTo (log ++ more) s') :
    Settles (stops ++ [u]) (log ++ more) (finished ++ [s']) := by
  have hlength := h.length
  -- an entry of the longer lists is an old one or the new one
  have hcases : ∀ {i : ℕ} {v : Stop} {s₁ : Selection}, (stops ++ [u])[i]? = some v → (finished ++ [s'])[i]? = some s₁ →
      i < stops.length ∧ stops[i]? = some v ∧ finished[i]? = some s₁ ∨
        i = stops.length ∧ v = u ∧ s₁ = s' := by
    intro i v s₁ hv hs₁
    rcases Nat.lt_trichotomy i stops.length with hlt | rfl | hgt
    · rw [List.getElem?_append_left hlt] at hv
      rw [List.getElem?_append_left (hlength ▸ hlt)] at hs₁
      exact .inl ⟨hlt, hv, hs₁⟩
    · rw [List.getElem?_concat_length] at hv
      rw [← hlength, List.getElem?_concat_length] at hs₁
      cases hv
      cases hs₁
      exact .inr ⟨rfl, rfl, rfl⟩
    · rw [List.getElem?_eq_none (by rw [List.length_append, List.length_singleton]; omega)] at hv
      cases hv
  refine ⟨by rw [List.length_append, List.length_append, hlength]; rfl, fun {i v s₁} hv hs₁ => ?_,
    fun {i v s₁} hv hs₁ => ?_⟩
  · rcases hcases hv hs₁ with ⟨hlt, hv, hs₁⟩ | ⟨rfl, rfl, rfl⟩
    · rw [List.take_append_of_le_length hlt]
      exact h.own hv hs₁
    · rw [List.take_of_length_le (by rw [List.length_append, List.length_singleton])]
      exact ⟨_, hchanges, hmoves⟩
  · rcases hcases hv hs₁ with ⟨hlt, hv, hs₁⟩ | ⟨rfl, rfl, rfl⟩
    · have hmem := List.mem_of_getElem? hv
      have hmoved := h.all hv hs₁
      obtain ⟨hanchor, hcursor⟩ := hvalid v hmem
      refine hmoved.append fun change hchange => ?_
      obtain ⟨hkind, hstart⟩ := hmore change hchange
      obtain ⟨anchor, cursor, hanchor', hcursor', rfl⟩ := hmoved
      have hhigh := hbefore v hmem
      exact ⟨hkind,
        htrail.across_lt hinserts hanchor hpoint (lt_of_le_of_lt (le_max_left _ _) hhigh) hanchor' hstart,
        htrail.across_lt hinserts hcursor hpoint (lt_of_le_of_lt (le_max_right _ _) hhigh) hcursor' hstart⟩
    · exact hmoves

/-- **The next selection** of a list. -/
theorem exists_step {T : Tour} {t a b q : Text} {old log : List Change} {done : List Stop} {u : Stop}
    {placement : Placement} (callback : ℕ → Script)
    (h : T.Stands t old (done.map (·.toInsertion)) log a b q) (hdone : Settles done log T.finished)
    (ht : t.size < Text.capacity) (hfits : ∀ v ∈ done, v.Fits placement t) (hu : u.Fits placement t)
    (hbefore : ∀ v ∈ done, v.Before u)
    (hcallback : callback done.length = .insertNear placement u.text)
    (hsize : T.draft.buffer.text.size + u.text.size < Text.capacity) :
    ∃ T' log' a' b' q', T.visit callback u.selection = (.ok (), T') ∧
      T'.Stands t old ((done ++ [u]).map (·.toInsertion)) log' a' b' q' ∧
      Settles (done ++ [u]) log' T'.finished ∧
      T'.draft.buffer.text.size = T.draft.buffer.text.size + u.text.size := by
  have hpoint := hu.validPoint ht
  have hcall : callback T.finished.length = .insertNear placement u.toInsertion.text := by
    rw [hdone.length]
    exact hcallback
  obtain ⟨T', more, a', b', q', s', hvisit, h', hsize', hfinished, hmoves, hmore⟩ :=
    h.exists_visit ht hcall hu.valid hu.place hpoint
      (List.forall_mem_map.2 fun v hv => (hbefore v hv).point_le_low)
      (List.forall_mem_map.2 fun v hv => (hbefore v hv).point_le_point)
      (fun hbegin => List.forall_mem_map.2 fun v hv =>
        (hbefore v hv).lt_of_lineBegin (hbegin ▸ hfits v hv))
      hsize
  have hpieces : done.map (·.toInsertion) ++ [u.toInsertion] = (done ++ [u]).map (·.toInsertion) := by
    rw [List.map_append]
    rfl
  rw [hpieces] at h'
  refine ⟨T', log ++ more, a', b', q', hvisit, h', ?_, hsize'⟩
  rw [hfinished]
  exact hdone.concat h.trail h.inserts (fun v hv => (hfits v hv).valid) hpoint
    (fun v hv => (hbefore v hv).high_lt_point) hmore h'.changes hmoves

/-- **All selections**, one after the other. -/
theorem exists_visitAll {T : Tour} {t a b q : Text} {old log : List Change} (done : List Stop)
    {rest : List Stop} {placement : Placement} {callback : ℕ → Script}
    (h : T.Stands t old (done.map (·.toInsertion)) log a b q) (hdone : Settles done log T.finished)
    (ht : t.size < Text.capacity) (hfits : ∀ u ∈ done ++ rest, u.Fits placement t)
    (hbefore : (done ++ rest).Pairwise Stop.Before)
    (hcallback : ∀ i u, rest[i]? = some u → callback (done.length + i) = .insertNear placement u.text)
    (hsize : T.draft.buffer.text.size + (rest.map (·.text.size)).sum < Text.capacity) :
    ∃ T' log' a' b' q', visitAll callback (rest.map (·.selection)) T = (.ok (), T') ∧
      T'.Stands t old ((done ++ rest).map (·.toInsertion)) log' a' b' q' ∧
        Settles (done ++ rest) log' T'.finished := by
  induction rest generalizing T done log a b q with
  | nil =>
    rw [List.append_nil]
    exact ⟨T, log, a, b, q, rfl, h, hdone⟩
  | cons u rest ih =>
    rw [List.map_cons, List.sum_cons] at hsize
    obtain ⟨T₁, log₁, a₁, b₁, q₁, hvisit, h₁, hdone₁, hsize₁⟩ :=
      exists_step callback h hdone ht (fun v hv => hfits v (List.mem_append_left _ hv))
        (hfits u (List.mem_append_right _ List.mem_cons_self))
        (fun v hv => (List.pairwise_append.1 hbefore).2.2 v hv u List.mem_cons_self)
        (hcallback 0 u rfl) (by omega)
    have hassoc : done ++ u :: rest = done ++ [u] ++ rest := by rw [List.append_assoc]; rfl
    rw [hassoc] at hfits hbefore ⊢
    obtain ⟨T', log', a', b', q', hvisits, h', hdone'⟩ := ih _ h₁ hdone₁ hfits hbefore
      (fun i v hv => by
        have := hcallback (i + 1) v hv
        rwa [List.length_append, List.length_singleton, Nat.add_assoc, Nat.add_comm 1])
      (by omega)
    refine ⟨T', log', a', b', q', ?_, h', hdone'⟩
    rw [List.map_cons, visitAll, hvisit]
    exact hvisits

end Tour

end SelectionList

end Caret
