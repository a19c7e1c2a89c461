import Caret.Proofs.EditM
import Caret.Proofs.Pass
import Caret.Proofs.Run
import Caret.Selection.Visit

/-!
# The tour of a list, step by step

What a tour does for one selection and what comes of it in the end, whatever the callbacks do. Its
tracker stands in the text as it was and in the present one: up to there the one has become the other,
and from there on both are the same.

* `Tracker.StandsIn`: where a tracker stands. Every change that it takes in keeps it there.
* `SelectionList.Tour.visit_cases`: all that a visit can do.
* `SelectionList.resume_visitAll_eq_ok_iff`: the visit of a list is a tour and what it queued.
-/

namespace Caret

/-! ## Where a tracker stands -/

namespace Tracker

variable {tracker tracker' : Tracker} {t u u' : Text} {change : Change} {log : List Change}

/-- A position in text that stays goes along with it. -/
theorem landing_extent {a b m : Text} (ha : a.size < Text.capacity) (hb : b.size < Text.capacity)
    (hm : m.size < Text.capacity) :
    (⟨b.extent, a.extent⟩ : Tracker).landing (a ++ m).extent = .ok (b ++ m).extent := by
  unfold landing
  rw [if_neg (not_lt.2 (Text.extent_le_append a m)), toCurrent_extent ha hb hm]

/-- A text put in behind where the tracker stands. -/
theorem feed_insert {a b g x : Text} (ha : a.size < Text.capacity) (hb : b.size < Text.capacity)
    (hg : g.size < Text.capacity) :
    (⟨b.extent, a.extent⟩ : Tracker).feed ⟨.insert, (b ++ g).extent, (b ++ g ++ x).extent⟩ =
      .ok ⟨(b ++ g ++ x).extent, (a ++ g).extent⟩ := by
  unfold feed
  rw [Fault.unless_of (Text.extent_le_append b g), Fault.ok_bind]
  dsimp only
  rw [toReference_extent ha hb hg]
  rfl

/-- A text taken out behind where the tracker stands. -/
theorem feed_erase {a b g x : Text} (ha : a.size < Text.capacity) (hb : b.size < Text.capacity)
    (hgx : (g ++ x).size < Text.capacity) :
    (⟨b.extent, a.extent⟩ : Tracker).feed ⟨.erase, (b ++ g).extent, (b ++ g ++ x).extent⟩ =
      .ok ⟨(b ++ g).extent, (a ++ g ++ x).extent⟩ := by
  unfold feed
  rw [Fault.unless_of (Text.extent_le_append b g), Fault.ok_bind]
  dsimp only
  rw [List.append_assoc b, toReference_extent ha hb hgx, ← List.append_assoc]
  rfl

/-- What a tracker takes in lies behind where it stands. -/
theorem le_start_of_feed (h : tracker.feed change = .ok tracker') : tracker.current ≤ change.start := by
  unfold feed at h
  rw [Fault.bind_eq_ok] at h
  obtain ⟨_, hle, -⟩ := h
  exact Fault.unless_eq_ok_iff.1 hle

/-- A tracker goes forward. -/
theorem current_le_of_feed (h : tracker.feed change = .ok tracker') (hle : change.start ≤ change.stop) :
    tracker.current ≤ tracker'.current := by
  have hstart := le_start_of_feed h
  unfold feed at h
  rw [Fault.bind_eq_ok] at h
  obtain ⟨_, -, h⟩ := h
  split at h
  · rw [Fault.bind_eq_ok] at h
    obtain ⟨c, -, h⟩ := h
    cases h
    exact hstart.trans hle
  · rw [Fault.bind_eq_ok] at h
    obtain ⟨c, -, h⟩ := h
    cases h
    exact hstart

theorem feedAll_single (h : tracker.feed change = .ok tracker') : tracker.feedAll [change] = .ok tracker' := by
  unfold feedAll
  rw [List.foldlM_cons, h]
  rfl

/-- One stretch of the log behind another. -/
theorem feedAll_append {more : List Change} (h : tracker.feedAll log = .ok tracker') :
    tracker.feedAll (log ++ more) = tracker'.feedAll more := by
  unfold feedAll at *
  rw [List.foldlM_append, h, Fault.ok_bind]

/-- The changes that were made since. -/
theorem catchUp_append {buffer : Buffer} {more : List Change} (hlog : buffer.log = log ++ more) :
    tracker.catchUp buffer log.length = tracker.feedAll more := by
  have hle : log.length ≤ buffer.timestamp := by
    rw [Buffer.timestamp, hlog, List.length_append]
    exact Nat.le_add_right _ _
  unfold catchUp
  rw [Buffer.logSince_eq hle, hlog, List.drop_left, Fault.ok_bind]

/-- A single change that was made since. -/
theorem catchUp_concat {buffer : Buffer} (hlog : buffer.log = log ++ [change]) :
    tracker.catchUp buffer log.length = tracker.feed change := by
  rw [catchUp_append hlog, feedAll, List.foldlM_cons]
  cases tracker.feed change <;> rfl

/-- **Where a tracker stands** in a text `t` that has come to be `u`. -/
def StandsIn (tracker : Tracker) (t u : Text) : Prop :=
  ∃ a b q, t = a ++ q ∧ u = b ++ q ∧ tracker = ⟨b.extent, a.extent⟩

theorem standsIn_start (t : Text) : start.StandsIn t t := ⟨[], [], t, rfl, rfl, rfl⟩

namespace StandsIn

theorem append (h : tracker.StandsIn t u) (r : Text) : tracker.StandsIn (t ++ r) (u ++ r) := by
  obtain ⟨a, b, q, rfl, rfl, rfl⟩ := h
  exact ⟨a, b, q ++ r, List.append_assoc _ _ _, List.append_assoc _ _ _, rfl⟩

/-- Positions behind both texts. -/
theorem landing_extent (h : tracker.StandsIn t u) {m : Text} (ht : (t ++ m).size < Text.capacity)
    (hu : (u ++ m).size < Text.capacity) : tracker.landing (t ++ m).extent = .ok (u ++ m).extent := by
  obtain ⟨a, b, q, rfl, rfl, rfl⟩ := h
  rw [List.append_assoc] at ht hu ⊢
  rw [List.append_assoc]
  obtain ⟨ha, hm⟩ := Text.size_append_lt ht
  exact Tracker.landing_extent ha (Text.size_append_lt hu).1 hm

/-- **One change** takes the tracker to its end. -/
theorem feed (h : tracker.StandsIn t u) (ht : t.size < Text.capacity) (hu : u.size < Text.capacity)
    (htakes : change.Takes u u') (hfeed : tracker.feed change = .ok tracker') :
    tracker'.StandsIn t u' := by
  have hle := le_start_of_feed hfeed
  obtain ⟨a, b, q, rfl, hu', rfl⟩ := h
  obtain ⟨ha, hq⟩ := Text.size_append_lt ht
  cases htakes with
  | insert before mid after hmid =>
    obtain ⟨g, rfl, rfl⟩ := Text.exists_append_of_extent_le hu'.symm hle
    rw [hu'] at hu
    rw [feed_insert ha (Text.size_append_lt hu).1 (Text.size_append_lt hq).1] at hfeed
    cases hfeed
    exact ⟨a ++ g, b ++ g ++ mid, after, (List.append_assoc _ _ _).symm, rfl, rfl⟩
  | erase before mid after hmid =>
    rw [List.append_assoc before] at hu'
    obtain ⟨g, rfl, rfl⟩ := Text.exists_append_of_extent_le hu'.symm hle
    rw [← List.append_assoc g] at hq
    rw [List.append_assoc (b ++ g), hu'] at hu
    rw [feed_erase ha (Text.size_append_lt hu).1 (Text.size_append_lt hq).1] at hfeed
    cases hfeed
    exact ⟨a ++ g ++ mid, b ++ g, after, by simp only [List.append_assoc], rfl, rfl⟩

/-- **A stretch of the log.** -/
theorem feedAll (h : tracker.StandsIn t u) (ht : t.size < Text.capacity) (hu : u.size < Text.capacity)
    (htrail : Trail u log u') (hfeed : tracker.feedAll log = .ok tracker') : tracker'.StandsIn t u' := by
  induction log generalizing tracker u with
  | nil =>
    cases hfeed
    exact htrail ▸ h
  | cons change log ih =>
    obtain ⟨w, htakes, hw, htrail⟩ := htrail
    unfold Tracker.feedAll at hfeed
    rw [List.foldlM_cons, Fault.bind_eq_ok] at hfeed
    obtain ⟨next, hnext, hfeed⟩ := hfeed
    exact ih (h.feed ht hu htakes hnext) hw htrail hfeed

end StandsIn

end Tracker

namespace SelectionList

namespace Tour

variable {T T' : Tour} {callback : ℕ → Script} {s s' : Selection} {v : Visit}

theorem landing_of_arrive (h : T.arrive s = .ok s') :
    T.tracker.landing s.anchor = .ok s'.anchor ∧ T.tracker.landing s.cursor = .ok s'.cursor := by
  unfold arrive at h
  simp only [Fault.bind_eq_ok] at h
  obtain ⟨anchor, hanchor, cursor, hcursor, h⟩ := h
  cases h
  exact ⟨hanchor, hcursor⟩

theorem catchUp_eq {tracker : Tracker}
    (h : T.tracker.catchUp T.draft.buffer T.timestamp = .ok tracker) :
    T.catchUp = (.ok (), { T with tracker, timestamp := T.draft.buffer.timestamp }) := by
  unfold catchUp
  rw [h]

theorem exists_of_catchUp (h : T.catchUp = (.ok (), T')) :
    ∃ tracker, T.tracker.catchUp T.draft.buffer T.timestamp = .ok tracker ∧
      T' = { T with tracker, timestamp := T.draft.buffer.timestamp } := by
  unfold catchUp at h
  cases htracker : T.tracker.catchUp T.draft.buffer T.timestamp with
  | error f =>
    rw [htracker] at h
    cases h
  | ok tracker =>
    rw [htracker] at h
    cases h
    exact ⟨tracker, rfl, rfl⟩

/-- A visit that succeeds. -/
theorem visit_eq (harrive : T.arrive s = .ok s') (hrefusal : T.refusal = none)
    (hrun : (callback T.finished.length).run ⟨T.draft, s', T.mayQueue, T.queued⟩ = (.ok (), v)) :
    T.visit callback s =
      { T with
        draft := v.draft
        queued := v.queued
        handed := T.handed ++ [s']
        finished := T.finished ++ [v.selection] : Tour }.catchUp := by
  unfold visit
  rw [harrive]
  dsimp only
  rw [hrefusal, if_neg (by simp), hrun]

/-- A visit that is refused. -/
theorem visit_eq_of_error {e : EditError} (harrive : T.arrive s = .ok s') (hrefusal : T.refusal = none)
    (hrun : (callback T.finished.length).run ⟨T.draft, s', T.mayQueue, T.queued⟩ =
      (.error (.error e), v)) :
    T.visit callback s =
      { T with
        draft := v.draft
        queued := v.queued
        handed := T.handed ++ [s']
        finished := T.finished ++ [v.selection]
        refusal := some e : Tour }.catchUp := by
  unfold visit
  rw [harrive]
  dsimp only
  rw [hrefusal, if_neg (by simp), hrun]

/-- After a refusal a selection only arrives. -/
theorem visit_of_refused (harrive : T.arrive s = .ok s') (hrefusal : T.refusal ≠ none) :
    T.visit callback s = (.ok (), { T with finished := T.finished ++ [s'] }) := by
  unfold visit
  rw [harrive]
  dsimp only
  rw [if_pos (Option.isSome_iff_ne_none.2 hrefusal)]

/-- **All that a visit can do** unless it breaks a contract. After a refusal the selection only arrives.
Otherwise the callback is run, and the tracker takes in what it did. -/
theorem visit_cases (h : T.visit callback s = (.ok (), T')) :
    ∃ s', T.arrive s = .ok s' ∧
      (T.refusal ≠ none ∧ T' = { T with finished := T.finished ++ [s'] } ∨
        T.refusal = none ∧ ∃ outcome v tracker refusal,
          (callback T.finished.length).run ⟨T.draft, s', T.mayQueue, T.queued⟩ = (outcome, v) ∧
          (∀ f, outcome ≠ .error (.fault f)) ∧ (refusal = none → outcome = .ok ()) ∧
          T.tracker.catchUp v.draft.buffer T.timestamp = .ok tracker ∧
          T' = { T with
            draft := v.draft
            queued := v.queued
            handed := T.handed ++ [s']
            finished := T.finished ++ [v.selection]
            tracker
            timestamp := v.draft.buffer.timestamp
            refusal }) := by
  unfold visit at h
  cases harrive : T.arrive s with
  | error f =>
    rw [harrive] at h
    cases h
  | ok s' =>
    rw [harrive] at h
    dsimp only at h
    refine ⟨s', rfl, ?_⟩
    by_cases hrefused : T.refusal.isSome = true
    · rw [if_pos hrefused] at h
      cases h
      exact .inl ⟨Option.isSome_iff_ne_none.1 hrefused, rfl⟩
    have hrefusal : T.refusal = none := Option.not_isSome_iff_eq_none.1 hrefused
    rw [if_neg hrefused] at h
    cases hrun : (callback T.finished.length).run ⟨T.draft, s', T.mayQueue, T.queued⟩ with
    | mk outcome v =>
      rw [hrun] at h
      dsimp only at h
      refine .inr ⟨hrefusal, outcome, v, ?_⟩
      rcases outcome with (e | f) | _
      · obtain ⟨tracker, htracker, rfl⟩ := exists_of_catchUp h
        exact ⟨tracker, some e, rfl, by simp, by simp, htracker, rfl⟩
      · cases h
      · obtain ⟨tracker, htracker, rfl⟩ := exists_of_catchUp h
        exact ⟨tracker, none, rfl, by simp, fun _ => rfl, htracker, by rw [hrefusal]⟩

/-- What the visit of a list is once all selections were visited and others came behind them. -/
def visited (T : Tour) (l : SelectionList) (appended : List Selection) : Visited where
  list := { l with
    group := { l.group with items := T.finished ++ appended }, timestamp := T.draft.buffer.timestamp }
  handed := T.handed
  refusal := T.refusal

end Tour

/-- **The visit of a list** is a tour, and the queued selections behind it. -/
theorem resume_visitAll_eq_ok_iff {l l' : SelectionList} {d d' : Draft} {mayQueue : Bool}
    {callback : ℕ → Script} {v : Visited} (hupdate : l.updateMerging d.buffer = .ok l') :
    (l.visitAll mayQueue callback).resume d = (.ok v, d') ↔ ∃ T appended,
      Tour.visitAll callback l'.group.items
        { draft := d, tracker := .start, timestamp := d.buffer.timestamp, mayQueue } = (.ok (), T) ∧
      T.queued.mapM (settle T.draft.buffer) = .ok appended ∧
      v = T.visited l' appended.flatten ∧ d' = T.draft := by
  unfold visitAll
  rw [EditM.resume_bind_ok (show EditM.resume get d = (.ok d, d) from rfl), hupdate,
    EditM.resume_bind_ok (EditM.resume_require_ok l' d)]
  dsimp only
  cases htour : Tour.visitAll callback l'.group.items
      { draft := d, tracker := .start, timestamp := d.buffer.timestamp, mayQueue } with
  | mk outcome T =>
    dsimp only
    rw [EditM.resume_bind_ok (show EditM.resume (set T.draft) d = (.ok (), T.draft) from rfl)]
    cases outcome with
    | error f =>
      rw [EditM.resume_bind_error (EditM.resume_require_error f T.draft)]
      simp
    | ok _ =>
      rw [EditM.resume_bind_ok (EditM.resume_require_ok () T.draft)]
      cases hsettle : T.queued.mapM (settle T.draft.buffer) with
      | error f =>
        rw [EditM.resume_bind_error (EditM.resume_require_error f T.draft)]
        constructor
        · intro h
          cases h
        · rintro ⟨T', appended, hT, happended, -, -⟩
          cases hT
          cases hsettle.symm.trans happended
      | ok appended =>
        rw [EditM.resume_bind_ok (EditM.resume_require_ok appended T.draft)]
        constructor
        · intro h
          cases h
          exact ⟨T, appended, rfl, hsettle, rfl, rfl⟩
        · rintro ⟨T', appended', hT, happended, rfl, rfl⟩
          cases hT
          cases hsettle.symm.trans happended
          rfl

end SelectionList

end Caret
