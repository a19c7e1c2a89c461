import Caret.Proofs.Insertion
import Caret.Proofs.Placement
import Caret.Proofs.Tour
import Caret.Proofs.Update

/-!
# Callbacks that stay inside of their selections

A callback may change any text behind the edits made before it and leave its selection anywhere. If it
only changes the text of its selection and leaves the selection there, then the selections before it are
still where they were left, and those behind it arrive behind it.

* `Script.StaysInside`: such a callback. `Script.staysInside_insertNear` is about one.
* `SelectionList.Tour.Room`: the invariant of a tour with such callbacks.
* `SelectionList.Tour.exists_room`: the selections come out apart from each other.
-/

namespace Caret

/-- **A visit inside of a selection.** From `v` to `v'` the text `m` between `p` and `r` became `m'` by the
changes `more`, and the selection is still there. -/
structure Visit.Inside (v v' : Visit) (p m r m' : Text) (more : List Change) : Prop where
  text : v'.draft.buffer.text = p ++ m' ++ r
  size : (p ++ m' ++ r).size < Text.capacity
  logged : v'.draft.buffer.log = v.draft.buffer.log ++ more
  trail : Trail (p ++ m) more (p ++ m')
  queued : v'.queued = v.queued
  valid : v'.selection.ValidIn (p ++ m' ++ r)
  low : p.extent ≤ v'.selection.low
  high : v.selection.high < (p ++ m).extent → v'.selection.high < (p ++ m').extent

/-- **A callback that stays inside of its selection.** It changes nothing but the text `m` of the
selection, queues nothing and leaves the selection on that text, unless it breaks a contract. -/
def Script.StaysInside (script : Script) : Prop :=
  ∀ (v : Visit) (p m r : Text), v.draft.buffer.text = p ++ m ++ r →
    (p ++ m ++ r).size < Text.capacity → v.selection.ValidIn (p ++ m ++ r) →
    v.selection.low = p.extent →
    (p ++ m ++ r).nextCoord v.selection.high = .ok (p ++ m).extent →
    (∀ f, (script.run v).1 ≠ .error (.fault f)) →
    ∃ m' more, v.Inside (script.run v).2 p m r m' more

/-- In front of a change a position stays a position. -/
theorem Text.Valid.of_front {p x y : Text} {c : Coord} (h : (p ++ x).Valid c) (hle : c ≤ p.extent) :
    (p ++ y).Valid c := by
  obtain ⟨q, r, hsplit, rfl⟩ := Text.valid_iff_extent.1 h
  obtain ⟨m, rfl, -⟩ := Text.exists_append_of_extent_le hsplit.symm hle
  rw [List.append_assoc]
  exact Text.valid_extent_append q _

theorem Selection.ValidIn.of_front {p x y : Text} {s : Selection} (h : s.ValidIn (p ++ x))
    (hle : s.high ≤ p.extent) : s.ValidIn (p ++ y) :=
  ⟨h.1.of_front ((le_max_left _ _).trans hle), h.2.of_front ((le_max_right _ _).trans hle)⟩

/-- A visit that leaves everything as it was. -/
theorem Visit.inside_self {v : Visit} {p m r : Text} (htext : v.draft.buffer.text = p ++ m ++ r)
    (hsize : (p ++ m ++ r).size < Text.capacity) (hv : v.selection.ValidIn (p ++ m ++ r))
    (hlow : v.selection.low = p.extent) : v.Inside v p m r m [] :=
  ⟨htext, hsize, (List.append_nil _).symm, rfl, rfl, hv, hlow.ge, id⟩

/-- A selection whose text comes to stand behind another one. -/
theorem Selection.ValidIn.exists_carried {p x q : Text} {s : Selection} (h : s.ValidIn (p ++ q))
    (hlow : p.extent ≤ s.low) (hsize : (p ++ x ++ q).size < Text.capacity) :
    ∃ anchor cursor, s.anchor.acrossInsert p.extent (p ++ x).extent = .ok anchor ∧
      s.cursor.acrossInsert p.extent (p ++ x).extent = .ok cursor ∧
      s.Carried p (p ++ x) q { s with anchor, cursor } := by
  obtain ⟨hpx, hq⟩ := Text.size_append_lt hsize
  have hend : ∀ {c : Coord}, (p ++ q).Valid c → p.extent ≤ c →
      ∃ c', c.acrossInsert p.extent (p ++ x).extent = .ok c' ∧ Selection.CarriedEnd p (p ++ x) q c c' := by
    intro c hc hle
    obtain ⟨m, r, rfl, rfl⟩ := Text.exists_behind hc hle
    refine ⟨(p ++ x ++ m).extent, ?_, m, r, rfl, rfl, rfl⟩
    unfold Coord.acrossInsert
    rw [if_neg (not_lt.2 hle),
      Text.carry_extent (Text.size_append_lt hpx).1 hpx (Text.size_append_lt hq).1]
  obtain ⟨anchor, hanchor, hcarried⟩ := hend h.1 (hlow.trans (min_le_left _ _))
  obtain ⟨cursor, hcursor, hcarried'⟩ := hend h.2 (hlow.trans (min_le_right _ _))
  exact ⟨anchor, cursor, hanchor, hcursor, hcarried, hcarried'⟩

/-- **Text put in before the selection** stays inside of it. -/
theorem Script.staysInside_insertNear (new : Text) : (insertNear .before new).StaysInside := by
  intro v p m r htext hsize hv hlow _ hfault
  rcases insertNear_cases v .before new (htext ▸ hsize) with ⟨f, v', hrun⟩ | ⟨outcome, hrun, -⟩ |
    ⟨before, after, anchor', cursor', ht, hnew, hlarge, hplace, hanchor', hcursor', hrun⟩
  · exact absurd (congrArg Prod.fst hrun) (hfault f)
  · rw [hrun]
    exact ⟨m, [], Visit.inside_self htext hsize hv hlow⟩
  · rw [htext, List.append_assoc] at ht
    have hstart : p.extent = before.extent := hlow.symm.trans (Except.ok.inj hplace)
    obtain ⟨rfl, rfl⟩ := Text.eq_of_extent_eq ht hstart
    rw [List.append_assoc] at hv
    obtain ⟨anchor, cursor, hanchor, hcursor, hcarried⟩ := hv.exists_carried hlow.ge hlarge
    cases hanchor'.symm.trans hanchor
    cases hcursor'.symm.trans hcursor
    have hvalid := hcarried.validIn
    obtain ⟨htext', hlog', -, -⟩ := v.draft.record_advance ⟨.insert, p.extent, new⟩
      (p ++ new ++ (m ++ r)) ⟨.insert, p.extent, (p ++ new).extent⟩
    rw [hrun, Text.clamp_of_valid hvalid.1, Text.clamp_of_valid hvalid.2]
    have hassoc : p ++ new ++ (m ++ r) = p ++ (new ++ m) ++ r := by simp only [List.append_assoc]
    obtain ⟨⟨n, -, -, -, hlow'⟩, hhigh⟩ := hcarried.low_high
    have hborder : Selection.CarriedEnd p (p ++ new) (m ++ r) (p ++ m).extent (p ++ (new ++ m)).extent :=
      ⟨m, r, rfl, rfl, by rw [List.append_assoc]⟩
    refine ⟨new ++ m, [⟨.insert, p.extent, (p ++ new).extent⟩], htext'.trans hassoc, hassoc ▸ hlarge, hlog',
      ⟨_, .insert p new m hnew, ?_, ?_⟩, rfl, hassoc ▸ hvalid, ?_, fun hlt => ?_⟩
    · rw [← List.append_assoc] at hlarge
      exact (Text.size_append_lt hlarge).1
    · rw [List.append_assoc]
      exact rfl
    · rw [hlow']
      exact (Text.extent_le_append p new).trans (Text.extent_le_append (p ++ new) n)
    · rw [← not_le] at hlt ⊢
      exact fun hle => hlt ((hborder.le_iff hhigh).2 hle)

namespace SelectionList

namespace Tour

/-- **A selection arrives** with the text that it is in, if that is behind where the tracker stands. -/
theorem exists_arrive {T : Tour} {A B r : Text} {s : Selection} (h : T.tracker.StandsIn A B)
    (hA : (A ++ r).size < Text.capacity) (hB : (B ++ r).size < Text.capacity) (hs : s.ValidIn (A ++ r))
    (hlow : A.extent ≤ s.low) : ∃ anchor cursor, T.arrive s = .ok { s with anchor, cursor } ∧
      s.Carried A B r { s with anchor, cursor } := by
  have hend : ∀ {c : Coord}, (A ++ r).Valid c → A.extent ≤ c →
      ∃ c', T.tracker.landing c = .ok c' ∧ Selection.CarriedEnd A B r c c' := by
    intro c hc hle
    obtain ⟨m, q, rfl, rfl⟩ := Text.exists_behind hc hle
    rw [← List.append_assoc] at hA hB
    exact ⟨_, h.landing_extent (Text.size_append_lt hA).1 (Text.size_append_lt hB).1, m, q, rfl, rfl, rfl⟩
  obtain ⟨anchor, hanchor, hcarried⟩ := hend hs.1 (hlow.trans (min_le_left _ _))
  obtain ⟨cursor, hcursor, hcarried'⟩ := hend hs.2 (hlow.trans (min_le_right _ _))
  refine ⟨anchor, cursor, ?_, hcarried, hcarried'⟩
  unfold arrive
  rw [hanchor, Fault.ok_bind, hcursor]
  rfl

/-- **The invariant of a tour whose callbacks stay inside of their selections.** Up to the selections to
come, `A` in the text `t` has become `B`, and `r` behind it is the same. All selections that the tour is
through with are apart, in front of those to come. -/
structure Room (T : Tour) (t A B r : Text) (rest : List Selection) : Prop where
  queued : T.queued = []
  timestamp : T.timestamp = T.draft.buffer.timestamp
  origin : t = A ++ r
  text : T.draft.buffer.text = B ++ r
  size : (B ++ r).size < Text.capacity
  tracker : T.tracker.StandsIn A B
  valid : ∀ s ∈ T.finished, s.ValidIn (B ++ r)
  apart : T.finished.Pairwise fun a b => a.high < b.low
  front : rest ≠ [] → ∀ s ∈ T.finished, s.high < B.extent
  ahead : ∀ s ∈ rest, A.extent ≤ s.low

namespace Room

variable {T T' : Tour} {t A B r : Text} {s s' : Selection} {rest : List Selection}
  {callback : ℕ → Script}

theorem carried (h : T.Room t A B r (s :: rest)) (ht : t.size < Text.capacity) (hs : s.ValidIn t)
    (harrive : T.arrive s = .ok s') : s.Carried A B r s' := by
  rw [h.origin] at ht hs
  obtain ⟨anchor, cursor, harrive', hcarried⟩ :=
    exists_arrive h.tracker ht h.size hs (h.ahead s List.mem_cons_self)
  cases harrive'.symm.trans harrive
  exact hcarried

/-- **Past one selection**, whose text `m` has become `m'`. -/
theorem next {n m r' m' : Text} {s'' : Selection} (h : T.Room t A B (n ++ m ++ r') (s :: rest))
    (ht : t.size < Text.capacity) (hv : ∀ s₁ ∈ s :: rest, s₁.ValidIn t)
    (hapart : ∀ s₁ ∈ rest, s.high < s₁.low)
    (hnext : t.nextCoord s.high = .ok (A ++ n ++ m).extent)
    (hqueued : T'.queued = []) (htimestamp : T'.timestamp = T'.draft.buffer.timestamp)
    (htext : T'.draft.buffer.text = B ++ n ++ m' ++ r') (hsize : (B ++ n ++ m' ++ r').size < Text.capacity)
    (htracker : T'.tracker.StandsIn (A ++ n ++ m) (B ++ n ++ m'))
    (hfinished : T'.finished = T.finished ++ [s'']) (hvalid : s''.ValidIn (B ++ n ++ m' ++ r'))
    (hlow : (B ++ n).extent ≤ s''.low)
    (hhigh : s.high < (A ++ n ++ m).extent → s''.high < (B ++ n ++ m').extent) :
    T'.Room t (A ++ n ++ m) (B ++ n ++ m') r' rest := by
  have hs := hv s List.mem_cons_self
  have hborder : ∀ s₁ ∈ rest, s.high < (A ++ n ++ m).extent ∧ (A ++ n ++ m).extent ≤ s₁.low :=
    fun s₁ hs₁ => Text.nextCoord_le ht hs.high (hv s₁ (List.mem_cons_of_mem s hs₁)).low hnext
      (hapart s₁ hs₁)
  have hB : B.extent ≤ (B ++ n).extent := Text.extent_le_append B n
  have hfront := h.front (List.cons_ne_nil s rest)
  refine ⟨hqueued, htimestamp, ?_, htext, hsize, htracker, ?_, ?_, fun hne => ?_,
    fun s₁ hs₁ => (hborder s₁ hs₁).2⟩
  · rw [h.origin]
    simp only [List.append_assoc]
  · rw [hfinished]
    refine List.forall_mem_append.2 ⟨fun s₁ hs₁ => ?_, fun s₁ hs₁ => List.mem_singleton.1 hs₁ ▸ hvalid⟩
    have hs₁' := (h.valid s₁ hs₁).of_front (y := n ++ m' ++ r') (hfront s₁ hs₁).le
    rwa [List.append_assoc B, List.append_assoc B]
  · rw [hfinished]
    refine List.pairwise_append.2 ⟨h.apart, List.pairwise_singleton _ _, fun s₁ hs₁ s₂ hs₂ => ?_⟩
    rw [List.mem_singleton.1 hs₂]
    exact lt_of_lt_of_le (hfront s₁ hs₁) (hB.trans hlow)
  · rw [hfinished]
    obtain ⟨s₂, hs₂⟩ := List.exists_mem_of_ne_nil rest hne
    refine List.forall_mem_append.2 ⟨fun s₁ hs₁ => ?_, fun s₁ hs₁ => ?_⟩
    · exact lt_of_lt_of_le (hfront s₁ hs₁) (hB.trans (Text.extent_le_append (B ++ n) m'))
    · rw [List.mem_singleton.1 hs₁]
      exact hhigh (hborder s₂ hs₂).1

/-- **One selection.** -/
theorem visit (h : T.Room t A B r (s :: rest)) (ht : t.size < Text.capacity)
    (hv : ∀ s₁ ∈ s :: rest, s₁.ValidIn t) (hapart : ∀ s₁ ∈ rest, s.high < s₁.low)
    (hcallback : ∀ i, (callback i).StaysInside) (hvisit : T.visit callback s = (.ok (), T')) :
    ∃ A' B' r', T'.Room t A' B' r' rest := by
  have hs := hv s List.mem_cons_self
  obtain ⟨s', harrive, hcases⟩ := visit_cases hvisit
  have hcarried := h.carried ht hs harrive
  have hvalid := hcarried.validIn
  have hend := hcarried.low_high.2
  have hsize := h.size
  have hsmall : (A ++ r).size < Text.capacity := h.origin ▸ ht
  obtain ⟨n, m, r', rfl, -, hlow, hnext, hnext'⟩ := hcarried.exists_text hsmall hsize
  -- the selection reaches up to `r'` in the present text just when it did so before
  have hreach : s.high < (A ++ n ++ m).extent → s'.high < (B ++ n ++ m).extent := by
    have hborder : Selection.CarriedEnd A B (n ++ m ++ r') (A ++ n ++ m).extent (B ++ n ++ m).extent :=
      ⟨n ++ m, r', rfl, by rw [List.append_assoc], by rw [List.append_assoc]⟩
    intro hlt
    rw [← not_le] at hlt ⊢
    exact fun hle => hlt ((hborder.le_iff hend).2 hle)
  have hassoc : ∀ X Y : Text, X ++ n ++ Y ++ r' = X ++ (n ++ Y ++ r') := fun X Y => by
    simp only [List.append_assoc]
  have hstands : T.tracker.StandsIn (A ++ n ++ m) (B ++ n ++ m) := by
    rw [List.append_assoc, List.append_assoc]
    exact h.tracker.append (n ++ m)
  have hnext : t.nextCoord s.high = .ok (A ++ n ++ m).extent := h.origin ▸ hnext
  rw [← hassoc B] at hsize hvalid hnext'
  rcases hcases with ⟨-, rfl⟩ | ⟨-, outcome, v, tracker, refusal, hrun, hfault, -, htracker, rfl⟩
  · exact ⟨_, _, r', h.next ht hv hapart hnext h.queued h.timestamp (by rw [hassoc]; exact h.text) hsize
      hstands rfl hvalid hlow.ge hreach⟩
  · have hinside := hcallback T.finished.length ⟨T.draft, s', T.mayQueue, T.queued⟩ (B ++ n) m r'
      (by rw [hassoc]; exact h.text) hsize hvalid hlow hnext' (by rw [hrun]; exact hfault)
    rw [hrun] at hinside
    obtain ⟨m', more, hinside⟩ := hinside
    have hlogged := hinside.logged
    dsimp only at hlogged
    rw [h.timestamp, Buffer.timestamp, Tracker.catchUp_append hlogged] at htracker
    have hA : (A ++ n ++ m).size < Text.capacity := (Text.size_append_lt (hassoc A m ▸ hsmall)).1
    have hB : (B ++ n ++ m).size < Text.capacity := (Text.size_append_lt hsize).1
    exact ⟨_, _, r', h.next ht hv hapart hnext (hinside.queued.trans h.queued) rfl hinside.text hinside.size
      (hstands.feedAll hA hB hinside.trail htracker) rfl hinside.valid hinside.low
      fun hlt => hinside.high (hreach hlt)⟩

end Room

/-- **All selections.** With callbacks that stay inside of their selections these come out apart from each
other, and nothing is queued. -/
theorem exists_room {T T' : Tour} {t A B r : Text} {items : List Selection} {callback : ℕ → Script}
    (h : T.Room t A B r items) (ht : t.size < Text.capacity) (hv : ∀ s ∈ items, s.ValidIn t)
    (hapart : items.Pairwise fun a b => a.high < b.low) (hcallback : ∀ i, (callback i).StaysInside)
    (hvisits : visitAll callback items T = (.ok (), T')) : ∃ A' B' r', T'.Room t A' B' r' [] := by
  induction items generalizing T A B r with
  | nil =>
    cases hvisits
    exact ⟨A, B, r, h⟩
  | cons s rest ih =>
    obtain ⟨hbehind, hapart⟩ := List.pairwise_cons.1 hapart
    unfold visitAll at hvisits
    cases hvisit : T.visit callback s with
    | mk outcome T₁ =>
      rw [hvisit] at hvisits
      cases outcome with
      | error f => cases hvisits
      | ok _ =>
        obtain ⟨A₁, B₁, r₁, h₁⟩ := h.visit ht hv hbehind hcallback hvisit
        exact ih h₁ (fun s₁ hs₁ => hv s₁ (List.mem_cons_of_mem s hs₁)) hapart hvisits

end Tour

end SelectionList

end Caret
