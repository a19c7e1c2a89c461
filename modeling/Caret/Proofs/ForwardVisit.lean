import Caret.Proofs.Appended
import Caret.Proofs.ForwardPass
import Caret.Proofs.MultiInsert

/-!
# Visits with edits that go forward

Callbacks may make any edits that go forward through the text, in front of, next to and behind the
selection they are given, up to where the next one has moved. Where the log tells what they did, nothing
that a tour does is against a contract, and every selection comes to its callback as the changes made
before it move it one by one.

The log does not always tell. An undo across edits that were not recorded may log an erase whose end lies
in front of its beginning. Then the tour does the same as long as no such end lies in front of the position
that the change before it left, and breaks a contract otherwise.

* `Handover.GoesForward`, `Handover.EndsBehind`, `Handover.Tells`: what is asked of a callback and of what
  it logs.
* `SelectionList.InEachVisit`: what holds in each visit of a list.
* `SelectionList.Visits`: the visits of a list, all selections moved change by change.
* `SelectionList.visitAll_remaps_iff`: when the visit of a list comes to that.
* `SelectionList.remaps_of_keepsRecording`: it does if all edits were recorded, or none, and this goes on.
-/

namespace Caret

/-! ## One callback -/

/-- A queued selection that was at positions of the text when it was queued, and can be followed. -/
def Queued.FitsIn (b : Buffer) (q : Queued) : Prop :=
  ∃ t, q.timestamp ≤ b.timestamp ∧ Trail t (b.log.drop q.timestamp) b.text ∧ t.size < Text.capacity ∧
    q.selection.ValidIn t

namespace Queued.FitsIn

variable {d d' : Draft} {more : List Change} {q : Queued}

theorem later (h : q.FitsIn d.buffer) (hlogs : d.Logs more d') : q.FitsIn d'.buffer := by
  obtain ⟨t, hle, htrail, ht, hvalid⟩ := h
  refine ⟨t, hle.trans hlogs.timestamp_le, ?_, ht, hvalid⟩
  rw [hlogs.drop hle]
  exact Trail.append_iff.2 ⟨_, htrail, hlogs.trail⟩

/-- Such a selection can be put at the end of the list. -/
theorem exists_settle {b : Buffer} (h : q.FitsIn b) : ∃ items, SelectionList.settle b q = .ok items := by
  obtain ⟨t, hle, htrail, ht, hvalid⟩ := h
  obtain ⟨image, hmove, -⟩ := exists_moveBy htrail ht
  have hin : Tracked.InOrder t [q.selection] :=
    .cons hvalid.low hvalid.high q.selection.low_le_high (fun c hc => by simp [Tracked.ends] at hc) (.nil t)
  unfold SelectionList.settle
  rw [Buffer.logSince_eq hle, Fault.ok_bind]
  unfold sweepLog
  rw [hmove.foldlM_sweep hin]
  exact ⟨_, rfl⟩

end Queued.FitsIn

namespace Handover

variable {x : Handover} {since : ℕ}

/-- What comes of the callback. -/
def outcome (x : Handover) : Except Failure Unit := (x.script.run x.visit).1

/-- What the callback leaves. -/
def after (x : Handover) : Visit := (x.script.run x.visit).2

/-- The error by which the callback ends the visits, if it does. -/
def refusal (x : Handover) : Option EditError :=
  match x.outcome with
  | .error (.error e) => some e
  | _ => none

/-- The changes since a timestamp that the callback finds in the log. -/
def made (x : Handover) (since : ℕ) : List Change := x.visit.draft.buffer.log.drop since

/-- The changes that the callback logs. -/
def changes (x : Handover) : List Change := x.after.draft.buffer.log.drop x.visit.draft.buffer.timestamp

/-- **The edits of the callback go forward.** It breaks no contract of its own, and its changes begin at or
behind the position that the change before them left, and at or before what has become of the start of the
next selection. The `rest` are the selections that are still to come, as they were at the timestamp
`since`. -/
structure GoesForward (since : ℕ) (x : Handover) (rest : List Selection) : Prop where
  unbroken : ∀ f, x.outcome ≠ .error (.fault f)
  forward : Change.Forward (rest.head?.map Selection.low) (x.made since) x.changes

/-- No erase ends in front of the position that the change before it left. -/
def EndsBehind (since : ℕ) (x : Handover) : Prop := Change.EndsBehind (x.made since) x.changes

/-- All numbers stay in the signed range. -/
def StaysSigned (since : ℕ) (x : Handover) : Prop := Tracker.StaysSigned (x.made since) x.changes

/-- **The log tells** what the callback did to the text, and what is queued was at positions of it. -/
structure Tells (x : Handover) : Prop where
  logs : x.visit.draft.Logs x.changes x.after.draft
  queued : ∀ q ∈ x.after.queued, q.FitsIn x.after.draft.buffer

/-- A callback adds to the log. -/
theorem logged (x : Handover) : x.after.draft.buffer.log = x.visit.draft.buffer.log ++ x.changes := by
  obtain ⟨more, hmore⟩ := ((Draft.Extends.invariant x.visit.draft).script x.script x.visit (.refl _)).log
  have hafter : x.after.draft.buffer.log = x.visit.draft.buffer.log ++ more := hmore.symm
  have hchanges : x.changes = more := by
    unfold changes
    rw [hafter]
    exact List.drop_left
  rw [hchanges, hafter]

theorem timestamp_le (x : Handover) : x.visit.draft.buffer.timestamp ≤ x.after.draft.buffer.timestamp := by
  unfold Buffer.timestamp
  rw [x.logged, List.length_append]
  exact Nat.le_add_right _ _

theorem drop_logged (h : since ≤ x.visit.draft.buffer.timestamp) :
    x.after.draft.buffer.log.drop since = x.made since ++ x.changes := by
  rw [x.logged]
  exact List.drop_append_of_le_length h

/-- Callbacks that end the visits, and those that do not. -/
theorem refusal_cases (h : ∀ f, x.outcome ≠ .error (.fault f)) :
    x.outcome = .ok () ∧ x.refusal = none ∨ ∃ e, x.outcome = .error (.error e) ∧ x.refusal = some e := by
  unfold refusal
  rcases houtcome : x.outcome with (e | f) | _
  · exact .inr ⟨e, rfl, rfl⟩
  · exact absurd houtcome (h f)
  · exact .inl ⟨rfl, rfl⟩

end Handover

/-- Both ends are in the signed range. -/
def Selection.Signed (s : Selection) : Prop := s.anchor.Signed ∧ s.cursor.Signed

theorem Selection.Signed.low {s : Selection} (h : s.Signed) : s.low.Signed := by
  unfold Selection.low
  rcases min_choice s.anchor s.cursor with hmin | hmin
  · rw [hmin]
    exact h.1
  · rw [hmin]
    exact h.2

namespace SelectionList

/-! ## All callbacks -/

/-- **In each visit.** `P` holds of what is handed out and of the selections that are still to come,
from the index `i` on. They are given as they were at the timestamp `since`, and each is handed out as the
changes logged since then move it. -/
def EachVisit (P : Handover → List Selection → Prop) (callback : ℕ → Script) (mayQueue : Bool)
    (since : ℕ) : List Selection → ℕ → Draft → List Queued → Prop
  | [], _, _, _ => True
  | s :: rest, i, d, queued =>
    ∀ s', s.MovesTo (d.buffer.log.drop since) s' →
      P ⟨callback i, d, s', mayQueue, queued⟩ rest ∧
      ∀ v, (callback i).run ⟨d, s', mayQueue, queued⟩ = (.ok (), v) →
        EachVisit P callback mayQueue since rest (i + 1) v.draft v.queued

/-- In each visit of a list that is current with its buffer. -/
def InEachVisit (P : Handover → List Selection → Prop) (l : SelectionList) (mayQueue : Bool)
    (callback : ℕ → Script) (d : Draft) : Prop :=
  EachVisit P callback mayQueue d.buffer.timestamp l.group.items 0 d []

/-- What comes of the visits of selections. -/
structure Outcome where
  /-- The selections as they were handed out. -/
  handed : List Selection
  /-- All selections as they were left. -/
  finished : List Selection
  refusal : Option EditError
  draft : Draft
  queued : List Queued

/-- **The visits of selections.** Each of them comes to its callback as the changes logged since the
timestamp `since` move it one by one. After a callback that fails the others are not called, and all
selections that are left move across the changes as well. -/
inductive Visits (callback : ℕ → Script) (mayQueue : Bool) (since : ℕ) :
    List Selection → ℕ → Draft → List Queued → Outcome → Prop
  | nil (i : ℕ) (d : Draft) (queued : List Queued) :
    Visits callback mayQueue since [] i d queued ⟨[], [], none, d, queued⟩
  | visit {s s' : Selection} {rest : List Selection} {i : ℕ} {d : Draft} {queued : List Queued} {v : Visit}
      {out : Outcome} (hmoves : s.MovesTo (d.buffer.log.drop since) s')
      (hrun : (callback i).run ⟨d, s', mayQueue, queued⟩ = (.ok (), v))
      (hrest : Visits callback mayQueue since rest (i + 1) v.draft v.queued out) :
    Visits callback mayQueue since (s :: rest) i d queued
      { out with handed := s' :: out.handed, finished := v.selection :: out.finished }
  | refuse {s s' : Selection} {rest moved : List Selection} {i : ℕ} {d : Draft} {queued : List Queued}
      {v : Visit} {e : EditError} (hmoves : s.MovesTo (d.buffer.log.drop since) s')
      (hrun : (callback i).run ⟨d, s', mayQueue, queued⟩ = (.error (.error e), v))
      (hrest : List.Forall₂ (Selection.MovesTo (v.draft.buffer.log.drop since)) rest moved) :
    Visits callback mayQueue since (s :: rest) i d queued
      ⟨[s'], v.selection :: moved, some e, v.draft, v.queued⟩

/-- **The visit of a list comes to its visits**, and breaks no contract. The selections are handed out as
the changes move them, the error that ends the visits is answered, and the list comes out current, with
the queued selections at its end. -/
def Remaps (l : SelectionList) (mayQueue : Bool) (callback : ℕ → Script) (d : Draft) : Prop :=
  ∃ v out appended, (l.visitAll mayQueue callback).resume d = (.ok v, out.draft) ∧
    Visits callback mayQueue d.buffer.timestamp l.group.items 0 d [] out ∧
    out.queued.mapM (settle out.draft.buffer) = .ok appended ∧
    v.handed = out.handed ∧ v.refusal = out.refusal ∧
    v.list = { l with
      group := { l.group with items := out.finished ++ appended.flatten }
      timestamp := out.draft.buffer.timestamp }

section

variable {callback : ℕ → Script} {mayQueue : Bool} {since i : ℕ} {d : Draft} {queued : List Queued}
  {s s' : Selection} {rest items : List Selection} {P Q : Handover → List Selection → Prop}

/-- Two things that hold in each visit. -/
theorem EachVisit.and (h : EachVisit P callback mayQueue since items i d queued)
    (h' : EachVisit Q callback mayQueue since items i d queued) :
    EachVisit (fun x rest => P x rest ∧ Q x rest) callback mayQueue since items i d queued := by
  induction items generalizing i d queued with
  | nil => trivial
  | cons s rest ih =>
    intro s' hmoves
    obtain ⟨hx, hnext⟩ := h s' hmoves
    obtain ⟨hx', hnext'⟩ := h' s' hmoves
    exact ⟨⟨hx, hx'⟩, fun v hv => ih (hnext v hv) (hnext' v hv)⟩

theorem EachVisit.mono (h : EachVisit P callback mayQueue since items i d queued)
    (hPQ : ∀ x rest, P x rest → Q x rest) : EachVisit Q callback mayQueue since items i d queued := by
  induction items generalizing i d queued with
  | nil => trivial
  | cons s rest ih =>
    intro s' hmoves
    obtain ⟨hx, hnext⟩ := h s' hmoves
    exact ⟨hPQ _ _ hx, fun v hv => ih (hnext v hv)⟩

/-- What holds in the first visit and goes on. There is but one way in which the selection is handed
out. -/
theorem EachVisit.cons (s' : Selection) (hmoves : s.MovesTo (d.buffer.log.drop since) s')
    (hx : P ⟨callback i, d, s', mayQueue, queued⟩ rest)
    (hnext : ∀ v, (callback i).run ⟨d, s', mayQueue, queued⟩ = (.ok (), v) →
      EachVisit P callback mayQueue since rest (i + 1) v.draft v.queued) :
    EachVisit P callback mayQueue since (s :: rest) i d queued := by
  intro s₁ hmoves₁
  cases hmoves.unique hmoves₁
  exact ⟨hx, hnext⟩

/-- There is but one way in which the visits go. -/
theorem Visits.unique {out out' : Outcome} (h : Visits callback mayQueue since items i d queued out)
    (h' : Visits callback mayQueue since items i d queued out') : out = out' := by
  induction h generalizing out' with
  | nil =>
    cases h'
    rfl
  | visit hmoves hrun hrest ih =>
    cases h' with
    | visit hmoves' hrun' hrest' =>
      cases hmoves.unique hmoves'
      cases hrun.symm.trans hrun'
      cases ih hrest'
      rfl
    | refuse hmoves' hrun' hrest' =>
      cases hmoves.unique hmoves'
      cases hrun.symm.trans hrun'
  | @refuse s s' rest moved i d queued v e hmoves hrun hrest =>
    cases h' with
    | visit hmoves' hrun' hrest' =>
      cases hmoves.unique hmoves'
      cases hrun.symm.trans hrun'
    | refuse hmoves' hrun' hrest' =>
      cases hmoves.unique hmoves'
      cases hrun.symm.trans hrun'
      have hunique : Relator.RightUnique (Selection.MovesTo (v.draft.buffer.log.drop since)) :=
        fun _ _ _ h₁ h₂ => h₁.unique h₂
      rw [hunique.forall₂ hrest hrest']

end

/-! ## The tour -/

namespace Tour

variable {T T' : Tour} {since : ℕ} {ahead : Option Coord} {s s' : Selection} {rest : List Selection}
  {callback : ℕ → Script}

/-- What is handed out once a selection has arrived as `s'`. -/
def offer (T : Tour) (callback : ℕ → Script) (s' : Selection) : Handover :=
  ⟨callback T.finished.length, T.draft, s', T.mayQueue, T.queued⟩

/-- The tour with what a callback left, before its tracker takes in the changes. -/
def received (T : Tour) (x : Handover) : Tour :=
  { T with
    draft := x.after.draft
    queued := x.after.queued
    handed := T.handed ++ [x.visit.selection]
    finished := T.finished ++ [x.left]
    refusal := x.refusal }

/-- The tour with a visit behind it, its tracker up to date. -/
def completed (T : Tour) (since : ℕ) (x : Handover) : Tour :=
  { T.received x with
    tracker := .past (x.after.draft.buffer.log.drop since)
    timestamp := x.after.draft.buffer.timestamp }

theorem visit_eq_received (harrive : T.arrive s = .ok s') (hrefusal : T.refusal = none)
    (hok : ∀ f, (T.offer callback s').outcome ≠ .error (.fault f)) :
    T.visit callback s = (T.received (T.offer callback s')).catchUp := by
  rcases Handover.refusal_cases hok with ⟨houtcome, hnone⟩ | ⟨e, houtcome, hsome⟩
  · have hrun : (callback T.finished.length).run ⟨T.draft, s', T.mayQueue, T.queued⟩ =
        (.ok (), (T.offer callback s').after) := Prod.ext houtcome rfl
    rw [visit_eq harrive hrefusal hrun]
    unfold received
    rw [hnone, ← hrefusal]
    rfl
  · have hrun : (callback T.finished.length).run ⟨T.draft, s', T.mayQueue, T.queued⟩ =
        (.error (.error e), (T.offer callback s').after) := Prod.ext houtcome rfl
    rw [visit_eq_of_error harrive hrefusal hrun]
    unfold received
    rw [hsome]
    rfl

/-- **A tour on the way.** Its tracker has kept up with all changes since `since`. -/
structure OnTheWay (T : Tour) (since : ℕ) (ahead : Option Coord) : Prop where
  timestamp : T.timestamp = T.draft.buffer.timestamp
  begun : since ≤ T.draft.buffer.timestamp
  tracker : T.tracker = .past (T.draft.buffer.log.drop since)
  follows : Tracker.Follows (T.draft.buffer.log.drop since) ahead

/-- A selection arrives where the changes take it. -/
theorem OnTheWay.exists_arrive (h : T.OnTheWay since (some s.low)) (hs : s.Signed) :
    ∃ s', T.arrive s = .ok s' ∧ s.MovesTo (T.draft.buffer.log.drop since) s' := by
  obtain ⟨anchor, cursor, hanchor, hcursor, hland, hland'⟩ := h.follows.exists_arrive hs.1 hs.2
  refine ⟨{ s with anchor, cursor }, ?_, anchor, cursor, hanchor, hcursor, rfl⟩
  unfold arrive
  rw [h.tracker, hland, hland']
  rfl

/-- Selections behind the first one. -/
theorem OnTheWay.next (h : T.OnTheWay since (some s.low)) (hsigned : ∀ s' ∈ rest, s'.Signed)
    (hle : ∀ s' ∈ rest, s.low ≤ s'.low) : T.OnTheWay since (rest.head?.map Selection.low) := by
  refine { h with follows := h.follows.mono fun p hp => ?_ }
  obtain ⟨s', hs', rfl⟩ := Option.mem_map.1 hp
  have hmem := List.mem_of_head? hs'
  exact ⟨(hsigned s' hmem).low, s.low, rfl, hle s' hmem⟩

/-- **After an error** all selections that are left move on. -/
theorem OnTheWay.exists_refused (callback : ℕ → Script)
    (h : T.OnTheWay since (rest.head?.map Selection.low)) (hrefusal : T.refusal ≠ none)
    (hsigned : ∀ s ∈ rest, s.Signed) (hsorted : rest.Pairwise fun s s' => s.low ≤ s'.low) :
    ∃ moved, visitAll callback rest T = (.ok (), { T with finished := T.finished ++ moved }) ∧
      List.Forall₂ (Selection.MovesTo (T.draft.buffer.log.drop since)) rest moved := by
  induction rest generalizing T with
  | nil => exact ⟨[], by rw [List.append_nil]; rfl, .nil⟩
  | cons s rest ih =>
    obtain ⟨hs, hsigned⟩ := List.forall_mem_cons.1 hsigned
    obtain ⟨hle, hsorted⟩ := List.pairwise_cons.1 hsorted
    obtain ⟨s', harrive, hmoves⟩ := h.exists_arrive hs
    have hnext := h.next hsigned hle
    obtain ⟨moved, hall, hmoved⟩ := ih (T := { T with finished := T.finished ++ [s'] })
      ⟨hnext.timestamp, hnext.begun, hnext.tracker, hnext.follows⟩ hrefusal hsigned hsorted
    refine ⟨s' :: moved, ?_, .cons hmoves hmoved⟩
    unfold visitAll
    rw [visit_of_refused harrive hrefusal]
    dsimp only
    rw [hall, List.append_assoc]
    rfl

section

variable (h : T.OnTheWay since (rest.head?.map Selection.low)) (hrefusal : T.refusal = none)
  (harrive : T.arrive s = .ok s') (hforward : (T.offer callback s').GoesForward since rest)
  (hsmall : (T.offer callback s').StaysSigned since)

include h

theorem OnTheWay.catchUp_eq_feedAll :
    T.tracker.catchUp (T.offer callback s').after.draft.buffer T.timestamp =
      (Tracker.past ((T.offer callback s').made since)).feedAll (T.offer callback s').changes := by
  rw [h.timestamp, h.tracker]
  exact Tracker.catchUp_append (T.offer callback s').logged

include hrefusal harrive hforward hsmall

/-- **One visit** whose changes the tracker does not pass. -/
theorem OnTheWay.visit (hends : (T.offer callback s').EndsBehind since) :
    T.visit callback s = (.ok (), T.completed since (T.offer callback s')) ∧
      (T.completed since (T.offer callback s')).OnTheWay since (rest.head?.map Selection.low) := by
  have hlog := (T.offer callback s').drop_logged h.begun
  obtain ⟨hall, hfollows⟩ := h.follows.feedAll hsmall hforward.forward hends
  rw [visit_eq_received harrive hrefusal hforward.unbroken]
  constructor
  · unfold completed
    rw [hlog]
    exact catchUp_eq (h.catchUp_eq_feedAll.trans hall)
  · refine ⟨rfl, h.begun.trans (T.offer callback s').timestamp_le, rfl, ?_⟩
    show Tracker.Follows ((T.offer callback s').after.draft.buffer.log.drop since) _
    rw [hlog]
    exact hfollows

/-- The other visits break a contract. -/
theorem OnTheWay.endsBehind_of_visit (hvisit : T.visit callback s = (.ok (), T')) :
    (T.offer callback s').EndsBehind since := by
  rw [visit_eq_received harrive hrefusal hforward.unbroken] at hvisit
  obtain ⟨tracker, hcatchUp, -⟩ := exists_of_catchUp hvisit
  apply (h.follows.exists_feedAll_iff hsmall hforward.forward).1
  exact ⟨tracker, h.catchUp_eq_feedAll.symm.trans hcatchUp⟩

end

/-- **The tour after the visits** of selections. -/
structure ComesTo (T : Tour) (out : Outcome) (T' : Tour) : Prop where
  draft : T'.draft = out.draft
  queued : T'.queued = out.queued
  handed : T'.handed = T.handed ++ out.handed
  finished : T'.finished = T.finished ++ out.finished
  refusal : T'.refusal = out.refusal

section

variable {items : List Selection}

/-- **All visits.** -/
theorem OnTheWay.exists_visits (h : T.OnTheWay since (items.head?.map Selection.low))
    (hrefusal : T.refusal = none) (hsigned : ∀ s ∈ items, s.Signed)
    (hsorted : items.Pairwise fun s s' => s.low ≤ s'.low)
    (heach : EachVisit (fun x rest => (x.GoesForward since rest ∧ x.StaysSigned since) ∧ x.EndsBehind since)
      callback T.mayQueue since items T.finished.length T.draft T.queued) :
    ∃ T' out, visitAll callback items T = (.ok (), T') ∧ T.ComesTo out T' ∧
      Visits callback T.mayQueue since items T.finished.length T.draft T.queued out := by
  induction items generalizing T with
  | nil =>
    exact ⟨T, _, rfl, ⟨rfl, rfl, (List.append_nil _).symm, (List.append_nil _).symm, hrefusal⟩, .nil _ _ _⟩
  | cons s rest ih =>
    obtain ⟨hs, hsigned⟩ := List.forall_mem_cons.1 hsigned
    obtain ⟨hle, hsorted⟩ := List.pairwise_cons.1 hsorted
    obtain ⟨s', harrive, hmoves⟩ := h.exists_arrive hs
    obtain ⟨⟨⟨hforward, hsmall⟩, hends⟩, hnext⟩ := heach s' hmoves
    obtain ⟨hvisit, h₁⟩ := (h.next hsigned hle).visit hrefusal harrive hforward hsmall hends
    have hall : visitAll callback (s :: rest) T =
        visitAll callback rest (T.completed since (T.offer callback s')) := by
      rw [visitAll, hvisit]
    rw [hall]
    rcases Handover.refusal_cases hforward.unbroken with ⟨houtcome, hnone⟩ | ⟨e, houtcome, hsome⟩
    · have hrun : (callback T.finished.length).run ⟨T.draft, s', T.mayQueue, T.queued⟩ =
          (.ok (), (T.offer callback s').after) := Prod.ext houtcome rfl
      have hlength : (T.completed since (T.offer callback s')).finished.length = T.finished.length + 1 :=
        List.length_append
      have heach₁ := hnext _ hrun
      rw [← hlength] at heach₁
      obtain ⟨T', out, hrest, hcomes, hvisits⟩ := ih h₁ hnone hsigned hsorted heach₁
      rw [hlength] at hvisits
      refine ⟨T', _, hrest, ?_, .visit hmoves hrun hvisits⟩
      exact ⟨hcomes.draft, hcomes.queued, hcomes.handed.trans (List.append_assoc _ _ _),
        hcomes.finished.trans (List.append_assoc _ _ _), hcomes.refusal⟩
    · have hrun : (callback T.finished.length).run ⟨T.draft, s', T.mayQueue, T.queued⟩ =
          (.error (.error e), (T.offer callback s').after) := Prod.ext houtcome rfl
      have hrefused : (T.completed since (T.offer callback s')).refusal ≠ none := by
        rw [show (T.completed since (T.offer callback s')).refusal = some e from hsome]
        simp
      obtain ⟨moved, hrest, hmoved⟩ := h₁.exists_refused callback hrefused hsigned hsorted
      refine ⟨_, _, hrest, ?_, .refuse hmoves hrun hmoved⟩
      exact ⟨rfl, rfl, rfl, List.append_assoc _ _ _, hsome⟩

/-- No other visits come to an end. -/
theorem OnTheWay.endsBehind_of_visitAll (h : T.OnTheWay since (items.head?.map Selection.low))
    (hrefusal : T.refusal = none) (hsigned : ∀ s ∈ items, s.Signed)
    (hsorted : items.Pairwise fun s s' => s.low ≤ s'.low)
    (heach : EachVisit (fun x rest => x.GoesForward since rest ∧ x.StaysSigned since)
      callback T.mayQueue since items T.finished.length T.draft T.queued)
    (hall : visitAll callback items T = (.ok (), T')) :
    EachVisit (fun x _ => x.EndsBehind since) callback T.mayQueue since items T.finished.length T.draft
      T.queued := by
  induction items generalizing T with
  | nil => trivial
  | cons s rest ih =>
    obtain ⟨hs, hsigned⟩ := List.forall_mem_cons.1 hsigned
    obtain ⟨hle, hsorted⟩ := List.pairwise_cons.1 hsorted
    obtain ⟨s', harrive, hmoves⟩ := h.exists_arrive hs
    obtain ⟨⟨hforward, hsmall⟩, hnext⟩ := heach s' hmoves
    obtain ⟨T₁, hvisit, hrest, -⟩ := exists_of_visitAll_cons hall
    have hbehind := h.next hsigned hle
    have hends := hbehind.endsBehind_of_visit hrefusal harrive hforward hsmall hvisit
    obtain ⟨hvisit', h₁⟩ := hbehind.visit hrefusal harrive hforward hsmall hends
    cases hvisit.symm.trans hvisit'
    refine .cons s' hmoves hends fun v hrun => ?_
    have houtcome : (T.offer callback s').outcome = .ok () := congrArg Prod.fst hrun
    have hafter : (T.offer callback s').after = v := congrArg Prod.snd hrun
    have hnone : (T.offer callback s').refusal = none := by
      unfold Handover.refusal
      rw [houtcome]
    have hlength : (T.completed since (T.offer callback s')).finished.length = T.finished.length + 1 :=
      List.length_append
    have heach₁ := hnext v hrun
    rw [← hafter, ← hlength] at heach₁ ⊢
    exact ih h₁ hnone hsigned hsorted heach₁ hrest

end

end Tour

/-! ## What the log tells -/

section

variable {callback : ℕ → Script} {mayQueue : Bool} {since i : ℕ} {d : Draft} {queued : List Queued}
  {items : List Selection}

/-- **Where the log tells** what callbacks did that go forward, the tracker does not pass their changes. -/
theorem EachVisit.of_tells {t : Text} (ht : t.size < Text.capacity)
    (hsize : d.buffer.text.size < Text.capacity) (hsince : since ≤ d.buffer.timestamp)
    (hstands : (Tracker.past (d.buffer.log.drop since)).StandsIn t d.buffer.text)
    (hforward : EachVisit (Handover.GoesForward since) callback mayQueue since items i d queued)
    (htells : EachVisit (fun x _ => x.Tells) callback mayQueue since items i d queued) :
    EachVisit (fun x _ => x.StaysSigned since ∧ x.EndsBehind since) callback mayQueue since items i d
      queued := by
  induction items generalizing i d queued with
  | nil => trivial
  | cons s rest ih =>
    intro s' hmoves
    obtain ⟨hx, hnext⟩ := hforward s' hmoves
    obtain ⟨htold, hnext'⟩ := htells s' hmoves
    obtain ⟨hsmall, hends, hstands'⟩ := hstands.along ht hsize htold.logs.trail hx.forward
    refine ⟨⟨hsmall, hends⟩, fun v hrun => ?_⟩
    have hafter : Handover.after ⟨callback i, d, s', mayQueue, queued⟩ = v := congrArg Prod.snd hrun
    have hlog := Handover.drop_logged (x := ⟨callback i, d, s', mayQueue, queued⟩) hsince
    have htrail := htold.logs.trail
    have hle := htold.logs.timestamp_le
    rw [hafter] at hlog htrail hle
    apply ih (htrail.size_lt hsize) (hsince.trans hle) _ (hnext v hrun) (hnext' v hrun)
    rw [hlog]
    rwa [hafter] at hstands'

/-- All that is queued can be followed to the end. -/
theorem Visits.fitsIn {out : Outcome} (h : Visits callback mayQueue since items i d queued out)
    (htells : EachVisit (fun x _ => x.Tells) callback mayQueue since items i d queued)
    (hqueued : ∀ q ∈ queued, q.FitsIn d.buffer) : ∀ q ∈ out.queued, q.FitsIn out.draft.buffer := by
  induction h with
  | nil => exact hqueued
  | visit hmoves hrun hrest ih =>
    obtain ⟨htold, hnext⟩ := htells _ hmoves
    apply ih (hnext _ hrun)
    have hfits := htold.queued
    unfold Handover.after at hfits
    rwa [hrun] at hfits
  | refuse hmoves hrun hrest =>
    obtain ⟨htold, -⟩ := htells _ hmoves
    have hfits := htold.queued
    unfold Handover.after at hfits
    rwa [hrun] at hfits

end

section

variable {origin : Text} {noUndo : Bool} {callback : ℕ → Script} {mayQueue : Bool} {since i : ℕ} {d : Draft}
  {queued : List Queued} {items : List Selection}

/-- One callback after a run that is sound. It does not switch whether edits are recorded, and queues
selections that are at positions of the text at that moment. -/
theorem tells_of_sound {x : Handover} (hd : x.visit.draft.Sound origin noUndo)
    (hqueued : ∀ q ∈ x.visit.queued, q.FitsIn x.visit.draft.buffer)
    (hok : ∀ f, x.outcome ≠ .error (.fault f)) (hkeeps : x.KeepsRecording noUndo)
    (hvalid : ∀ p ∈ x.pushes, p.selection.ValidIn p.draft.buffer.text) :
    x.after.draft.Sound origin noUndo ∧ x.Tells := by
  have hqueues : Draft.Queues origin noUndo x.visit.draft x.visit.queued x.pushes x.after.draft
      x.after.queued := x.script.queues _ _ _ hkeeps hd rfl hok
  obtain ⟨more, hlogs⟩ := hqueues.logs
  have hchanges : x.changes = more := hlogs.drop_timestamp
  refine ⟨hqueues.sound, hchanges ▸ hlogs, ?_⟩
  rw [hqueues.queued]
  refine List.forall_mem_append.2 ⟨fun q hq => (hqueued q hq).later hlogs, fun q hq => ?_⟩
  obtain ⟨p, hp, rfl⟩ := List.mem_map.1 hq
  obtain ⟨hsound, since, hsince⟩ := hqueues.since p hp
  refine ⟨p.draft.buffer.text, hsince.timestamp_le, ?_, hsound.chronicle.size_lt, hvalid p hp⟩
  show Trail _ (x.after.draft.buffer.log.drop p.draft.buffer.timestamp) _
  rw [hsince.drop_timestamp]
  exact hsince.trail

/-- All callbacks. -/
theorem EachVisit.tells (hd : d.Sound origin noUndo) (hqueued : ∀ q ∈ queued, q.FitsIn d.buffer)
    (hforward : EachVisit (Handover.GoesForward since) callback mayQueue since items i d queued)
    (hkeeps : EachVisit (fun x _ => x.KeepsRecording noUndo ∧
      ∀ p ∈ x.pushes, p.selection.ValidIn p.draft.buffer.text) callback mayQueue since items i d queued) :
    EachVisit (fun x _ => x.Tells) callback mayQueue since items i d queued := by
  induction items generalizing i d queued with
  | nil => trivial
  | cons s rest ih =>
    intro s' hmoves
    obtain ⟨hx, hnext⟩ := hforward s' hmoves
    obtain ⟨⟨hrecording, hvalid⟩, hnext'⟩ := hkeeps s' hmoves
    obtain ⟨hsound, htold⟩ := tells_of_sound hd hqueued hx.unbroken hrecording hvalid
    refine ⟨htold, fun v hrun => ?_⟩
    have hafter : Handover.after ⟨callback i, d, s', mayQueue, queued⟩ = v := congrArg Prod.snd hrun
    have hfits := htold.queued
    rw [hafter] at hsound hfits
    exact ih hsound hfits (hnext v hrun) (hnext' v hrun)

end

/-! ## The visit of a list -/

section

variable {l : SelectionList} {d : Draft} {mayQueue : Bool} {callback : ℕ → Script}
  (hbuffer : l.buffer = d.buffer.id) (hcurrent : l.timestamp = d.buffer.timestamp)
  (hsettled : l.group.Settled d.buffer.text) (ht : d.buffer.text.size < Text.capacity)

include hsettled ht

/-- Where the tour begins. -/
theorem onTheWay_start (mayQueue : Bool) :
    (∀ s ∈ l.group.items, s.Signed) ∧
      Tour.OnTheWay { draft := d, tracker := .start, timestamp := d.buffer.timestamp, mayQueue }
        d.buffer.timestamp (l.group.items.head?.map Selection.low) := by
  have hsigned : ∀ s ∈ l.group.items, s.Signed := fun s hs =>
    ⟨(hsettled.valid s hs).1.signed ht, (hsettled.valid s hs).2.signed ht⟩
  have hlog : d.buffer.log.drop d.buffer.timestamp = [] := List.drop_length
  refine ⟨hsigned, rfl, le_rfl, ?_, ?_⟩
  · rw [hlog]
    rfl
  · rw [hlog]
    refine .start fun p hp => ?_
    obtain ⟨s, hs, rfl⟩ := Option.mem_map.1 hp
    exact (hsigned s (List.mem_of_head? hs)).low

variable
  (heach : l.InEachVisit
    (fun x rest => x.GoesForward d.buffer.timestamp rest ∧ x.StaysSigned d.buffer.timestamp) mayQueue
    callback d)

include hbuffer hcurrent heach

theorem remaps_of_endsBehind
    (hends : l.InEachVisit (fun x _ => x.EndsBehind d.buffer.timestamp) mayQueue callback d)
    (hsettle : ∀ out, Visits callback mayQueue d.buffer.timestamp l.group.items 0 d [] out →
      ∃ appended, out.queued.mapM (settle out.draft.buffer) = .ok appended) :
    l.Remaps mayQueue callback d := by
  obtain ⟨hsigned, hstart⟩ := onTheWay_start hsettled ht mayQueue
  obtain ⟨T, out, hall, hcomes, hvisits⟩ :=
    hstart.exists_visits rfl hsigned hsettled.sorted (heach.and hends)
  obtain ⟨appended, happended⟩ := hsettle out hvisits
  have hupdate : l.updateMerging d.buffer = .ok l := update_of_current hbuffer hcurrent true
  have happended' : T.queued.mapM (settle T.draft.buffer) = .ok appended := by
    rw [hcomes.queued, hcomes.draft]
    exact happended
  have hrun := (resume_visitAll_eq_ok_iff hupdate).2 ⟨T, appended, hall, happended', rfl, rfl⟩
  refine ⟨_, out, appended, hcomes.draft ▸ hrun, hvisits, happended, hcomes.handed, hcomes.refusal, ?_⟩
  unfold Tour.visited
  rw [hcomes.finished, hcomes.draft, List.nil_append]

theorem endsBehind_of_remaps (h : l.Remaps mayQueue callback d) :
    l.InEachVisit (fun x _ => x.EndsBehind d.buffer.timestamp) mayQueue callback d := by
  obtain ⟨hsigned, hstart⟩ := onTheWay_start hsettled ht mayQueue
  obtain ⟨v, out, appended, hrun, -⟩ := h
  have hupdate : l.updateMerging d.buffer = .ok l := update_of_current hbuffer hcurrent true
  obtain ⟨T, -, hall, -⟩ := (resume_visitAll_eq_ok_iff hupdate).1 hrun
  exact hstart.endsBehind_of_visitAll rfl hsigned hsettled.sorted heach hall

end

/-- **Where the log tells** what callbacks did that go forward, the visit of a list comes to its visits. -/
theorem remaps_of_tells {l : SelectionList} {d : Draft} {mayQueue : Bool} {callback : ℕ → Script}
    (hbuffer : l.buffer = d.buffer.id) (hcurrent : l.timestamp = d.buffer.timestamp)
    (hsettled : l.group.Settled d.buffer.text) (ht : d.buffer.text.size < Text.capacity)
    (hforward : l.InEachVisit (Handover.GoesForward d.buffer.timestamp) mayQueue callback d)
    (htells : l.InEachVisit (fun x _ => x.Tells) mayQueue callback d) : l.Remaps mayQueue callback d := by
  have hlog : d.buffer.log.drop d.buffer.timestamp = [] := List.drop_length
  have hstands : (Tracker.past (d.buffer.log.drop d.buffer.timestamp)).StandsIn d.buffer.text d.buffer.text := by
    rw [hlog]
    exact Tracker.standsIn_start d.buffer.text
  have halong := EachVisit.of_tells ht ht le_rfl hstands hforward htells
  apply remaps_of_endsBehind hbuffer hcurrent hsettled ht
  · exact hforward.and (halong.mono fun _ _ h => h.1)
  · exact halong.mono fun _ _ h => h.2
  · intro out hvisits
    have hfits := hvisits.fitsIn htells (by simp)
    obtain ⟨appended, happended, -⟩ := Fault.exists_mapM_eq_ok fun q hq => (hfits q hq).exists_settle
    exact ⟨appended, happended⟩

/-- **Where edits are recorded all the time, or never,** callbacks whose edits go forward are all right. -/
theorem remaps_of_keepsRecording {origin : Text} {l : SelectionList} {d : Draft} {mayQueue : Bool}
    {callback : ℕ → Script} (h : Reached origin d)
    (hbuffer : l.buffer = d.buffer.id) (hcurrent : l.timestamp = d.buffer.timestamp)
    (hsettled : l.group.Settled d.buffer.text)
    (hforward : l.InEachVisit (Handover.GoesForward d.buffer.timestamp) mayQueue callback d)
    (hkeeps : l.InEachVisit (fun x _ => x.KeepsRecording d.buffer.options.flags.noUndo ∧
      ∀ p ∈ x.pushes, p.selection.ValidIn p.draft.buffer.text) mayQueue callback d) :
    l.Remaps mayQueue callback d :=
  remaps_of_tells hbuffer hcurrent hsettled h.sound.chronicle.size_lt hforward
    (EachVisit.tells h.sound (by simp) hforward hkeeps)

/-- **The visit of a list with edits that go forward.** Where the log tells what the callbacks did, the
visit comes to what it should: it breaks no contract, every selection is handed out as the changes made
before it move it one by one, after an error no more callbacks are called but the selections that are left
still move across all changes, and the list comes out current, with the queued selections at its end. As
long as the numbers stay in the signed range it comes to that exactly if no erase is logged with an end in
front of the position that the change before it left, and the queued selections can be followed to the
end. -/
theorem visitAll_remaps_iff {l : SelectionList} {d : Draft} {mayQueue : Bool} {callback : ℕ → Script}
    (hbuffer : l.buffer = d.buffer.id) (hcurrent : l.timestamp = d.buffer.timestamp)
    (hsettled : l.group.Settled d.buffer.text) (ht : d.buffer.text.size < Text.capacity)
    (hforward : l.InEachVisit (Handover.GoesForward d.buffer.timestamp) mayQueue callback d) :
    (l.InEachVisit (fun x _ => x.Tells) mayQueue callback d → l.Remaps mayQueue callback d) ∧
      (l.InEachVisit (fun x _ => x.StaysSigned d.buffer.timestamp) mayQueue callback d →
        (l.Remaps mayQueue callback d ↔
          l.InEachVisit (fun x _ => x.EndsBehind d.buffer.timestamp) mayQueue callback d ∧
          ∀ out, Visits callback mayQueue d.buffer.timestamp l.group.items 0 d [] out →
            ∃ appended, out.queued.mapM (settle out.draft.buffer) = .ok appended)) := by
  refine ⟨remaps_of_tells hbuffer hcurrent hsettled ht hforward, fun hsmall => ?_⟩
  have heach := hforward.and hsmall
  constructor
  · intro h
    refine ⟨endsBehind_of_remaps hbuffer hcurrent hsettled ht heach h, fun out hvisits => ?_⟩
    obtain ⟨v, out', appended, -, hvisits', happended, -⟩ := h
    cases hvisits.unique hvisits'
    exact ⟨appended, happended⟩
  · rintro ⟨hends, hsettle⟩
    exact remaps_of_endsBehind hbuffer hcurrent hsettled ht heach hends hsettle

/-- Callbacks that queue a point, take out the end of the first line and put a text in where it was, and
then fail. -/
def joining : ℕ → Script
  | 0 => .queue (.point ⟨1, 1⟩) (.erase ⟨0, 1⟩ ⟨1, 0⟩ fun c => .insert c ['x'] fun _ => .done)
  | 1 => .look fun _ s => .insert s.low ['y'] fun _ => .fail (.error .readOnly)
  | _ => .done

/-- What the first of them works on. -/
def joiningFirst : Handover := ⟨joining 0, sampleDraft, ⟨⟨0, 2⟩, ⟨0, 1⟩, some 7, []⟩, true, []⟩

/-- What the second one works on. -/
def joiningSecond : Handover :=
  ⟨joining 1, joiningFirst.after.draft, .point ⟨0, 2⟩, true, joiningFirst.after.queued⟩

theorem joining_visits :
    sampleList.InEachVisit (fun x rest => x.GoesForward 0 rest ∧ x.KeepsRecording false ∧
      ∀ p ∈ x.pushes, p.selection.ValidIn p.draft.buffer.text) true joining sampleDraft := by
  have hfirst : joiningFirst.outcome = .ok () := by decide +kernel
  have hsecond : joiningSecond.outcome = .error (.error .readOnly) := by decide +kernel
  have hlog : joiningFirst.changes = [⟨.erase, ⟨0, 1⟩, ⟨1, 0⟩⟩, ⟨.insert, ⟨0, 1⟩, ⟨0, 2⟩⟩] := by decide +kernel
  have hmore : joiningSecond.changes = [⟨.insert, ⟨0, 2⟩, ⟨0, 3⟩⟩] := by decide +kernel
  -- where the next selection has come to begin
  have hnext : ∀ {p e start : Coord} {made : List Change}, p.across made = .ok e → start ≤ e →
      ∀ c ∈ some p, ∀ c', c.across made = .ok c' → start ≤ c' := by
    intro p e start made he hle c hc c' hc'
    cases hc
    cases he.symm.trans hc'
    exact hle
  refine .cons ⟨⟨0, 2⟩, ⟨0, 1⟩, some 7, []⟩ ⟨_, _, rfl, rfl, rfl⟩ ⟨⟨?_, ?_⟩, ?_, ?_⟩ fun v hv => ?_
  · intro f hf
    cases hfirst.symm.trans hf
  · show Change.Forward _ [] joiningFirst.changes
    rw [hlog]
    exact ⟨⟨by decide, hnext rfl (by decide)⟩, ⟨by decide, hnext rfl (by decide)⟩, trivial⟩
  · exact fun _ _ _ _ _ _ => trivial
  · have hpushes : joiningFirst.pushes = [⟨.point ⟨1, 1⟩, sampleDraft⟩] := rfl
    show ∀ p ∈ joiningFirst.pushes, _
    rw [hpushes]
    simp only [List.forall_mem_singleton, Selection.ValidIn]
    decide
  obtain rfl : joiningFirst.after = v := congrArg Prod.snd hv
  have hlanded : (⟨1, 0⟩ : Coord).across joiningFirst.changes = .ok ⟨0, 2⟩ := by
    rw [hlog]
    rfl
  refine .cons (.point ⟨0, 2⟩) ⟨⟨0, 2⟩, ⟨0, 2⟩, hlanded, hlanded, rfl⟩ ⟨⟨?_, ?_⟩, ?_, ?_⟩ fun v hv => ?_
  · intro f hf
    cases hsecond.symm.trans hf
  · show Change.Forward _ joiningFirst.changes joiningSecond.changes
    rw [hlog, hmore]
    exact ⟨⟨by decide, hnext rfl (by decide)⟩, trivial⟩
  · exact fun _ _ _ => trivial
  · have hpushes : joiningSecond.pushes = [] := rfl
    show ∀ p ∈ joiningSecond.pushes, _
    rw [hpushes]
    simp
  · have houtcome : joiningSecond.outcome = .ok () := congrArg Prod.fst hv
    cases hsecond.symm.trans houtcome

/-- Two insertions that are recorded as two groups, and then most of the text removed with no record. -/
def staleScript : List Command :=
  [.insert ⟨0, 3⟩ ['y'], .commitGroup, .insert ⟨0, 2⟩ ['x'], .commitGroup, .setFlags { noUndo := true },
    .erase ⟨0, 0⟩ ⟨0, 4⟩, .setFlags {}]

/-- The draft after that. -/
def staleDraft : Draft :=
  ((Draft.run { buffer := Buffer.ofText 0 ['a', 'b', 'c'] {} } staleScript).toOption).getD default

/-- A point in front of what is left. -/
def staleList : SelectionList := ⟨⟨[.point ⟨0, 0⟩], 0⟩, 0, 3⟩

/-- A callback that takes back the last group. -/
def undoing : ℕ → Script := fun _ => .undo fun _ => .done

/-- A callback that takes back the last group and the one before it. -/
def undoingTwice : ℕ → Script := fun _ => .undo fun _ => .undo fun _ => .done

/-- What such a callback works on. -/
def staleHandover (callback : ℕ → Script) : Handover :=
  ⟨callback 0, staleDraft, .point ⟨0, 0⟩, false, []⟩

theorem staleList_settled : staleList.group.Settled staleDraft.buffer.text := by
  have htext : staleDraft.buffer.text = ['y'] := by decide +kernel
  rw [htext]
  exact ⟨by simp only [Selection.ValidIn]; decide, by unfold Span.Apart; decide⟩

theorem undoing_visits :
    staleList.InEachVisit (fun x rest => x.GoesForward 3 rest ∧ x.StaysSigned 3 ∧ x.EndsBehind 3) false
      undoing staleDraft := by
  have houtcome : (staleHandover undoing).outcome = .ok () := by decide +kernel
  have hchanges : (staleHandover undoing).changes = [⟨.erase, ⟨0, 2⟩, ⟨0, 1⟩⟩] := by decide +kernel
  have hmade : (staleHandover undoing).made 3 = [] := by decide +kernel
  refine .cons (.point ⟨0, 0⟩) ⟨_, _, rfl, rfl, rfl⟩ ⟨⟨?_, ?_⟩, ?_, ?_⟩ fun v hv => trivial
  · intro f hf
    cases houtcome.symm.trans hf
  · show Change.Forward none ((staleHandover undoing).made 3) (staleHandover undoing).changes
    rw [hmade, hchanges]
    exact ⟨⟨by decide, by simp⟩, trivial⟩
  · show Tracker.StaysSigned ((staleHandover undoing).made 3) (staleHandover undoing).changes
    rw [hmade, hchanges]
    exact ⟨⟨⟨by decide, by decide⟩, ⟨by decide, by decide⟩, by decide, by decide⟩, trivial⟩
  · show Change.EndsBehind ((staleHandover undoing).made 3) (staleHandover undoing).changes
    rw [hmade, hchanges]
    exact ⟨fun _ => by decide, trivial⟩

theorem undoingTwice_goesForward :
    staleList.InEachVisit (Handover.GoesForward 3) false undoingTwice staleDraft := by
  have houtcome : (staleHandover undoingTwice).outcome = .ok () := by decide +kernel
  have hchanges : (staleHandover undoingTwice).changes =
      [⟨.erase, ⟨0, 2⟩, ⟨0, 1⟩⟩, ⟨.erase, ⟨0, 3⟩, ⟨0, 1⟩⟩] := by decide +kernel
  have hmade : (staleHandover undoingTwice).made 3 = [] := by decide +kernel
  refine .cons (.point ⟨0, 0⟩) ⟨_, _, rfl, rfl, rfl⟩ ⟨?_, ?_⟩ fun v hv => trivial
  · intro f hf
    cases houtcome.symm.trans hf
  · show Change.Forward none ((staleHandover undoingTwice).made 3)
      (staleHandover undoingTwice).changes
    rw [hmade, hchanges]
    exact ⟨⟨by decide, by simp⟩, ⟨by decide, by simp⟩, trivial⟩

theorem visitAll_remaps_iff_sample :
    (∃ v d', (sampleList.visitAll true joining).resume sampleDraft = (.ok v, d') ∧
      d'.buffer.text = ['a', 'x', 'y', 'c'] ∧ v.refusal = some .readOnly ∧
      v.handed = [⟨⟨0, 2⟩, ⟨0, 1⟩, some 7, []⟩, .point ⟨0, 2⟩] ∧
      v.list.group.items = [⟨⟨0, 2⟩, ⟨0, 1⟩, some 7, []⟩, .point ⟨0, 2⟩, .point ⟨0, 4⟩, .point ⟨0, 4⟩]) ∧
    ∃ v d', (staleList.visitAll false undoing).resume staleDraft = (.ok v, d') ∧
      d'.buffer.log.drop 3 = [⟨.erase, ⟨0, 2⟩, ⟨0, 1⟩⟩] ∧ v.list.group.items = [.point ⟨0, 0⟩] := by
  constructor
  · have htakes : sampleList.Takes [[]] sampleDraft := sampleList_takes (by decide) (by decide)
    have hreached : Reached ['a', 'b', '\n', 'c'] sampleDraft := ⟨0, {}, [], by decide, by simp, rfl⟩
    have hforward := joining_visits.mono fun _ _ h => h.1
    have htells := EachVisit.tells hreached.sound (by simp) hforward (joining_visits.mono fun _ _ h => h.2)
    obtain ⟨v, out, appended, hrun, -⟩ :=
      (visitAll_remaps_iff htakes.buffer htakes.current htakes.settled (by decide) hforward).1 htells
    have heval : ((sampleList.visitAll true joining).resume sampleDraft).map
        (fun outcome => outcome.toOption.map fun v => (v.refusal, v.handed, v.list.group.items))
        (·.buffer.text) =
          (some (some .readOnly, [⟨⟨0, 2⟩, ⟨0, 1⟩, some 7, []⟩, .point ⟨0, 2⟩],
            [⟨⟨0, 2⟩, ⟨0, 1⟩, some 7, []⟩, .point ⟨0, 2⟩, .point ⟨0, 4⟩, .point ⟨0, 4⟩]),
            ['a', 'x', 'y', 'c']) := by decide +kernel
    rw [hrun] at heval
    obtain ⟨hv, htext⟩ := Prod.mk.inj heval
    obtain ⟨hrefusal, hrest⟩ := Prod.mk.inj (Option.some.inj hv)
    obtain ⟨hhanded, hitems⟩ := Prod.mk.inj hrest
    exact ⟨v, out.draft, hrun, htext, hrefusal, hhanded, hitems⟩
  · -- nothing is queued
    have hsettle : ∀ out, Visits undoing false 3 staleList.group.items 0 staleDraft [] out →
        ∃ appended, out.queued.mapM (settle out.draft.buffer) = .ok appended := by
      intro out hvisits
      cases hvisits with
      | visit hmoves hrun hrest =>
        cases hrest
        cases hmoves.unique ⟨_, _, rfl, rfl, rfl⟩
        have hqueued : (staleHandover undoing).after.queued = [] := by decide +kernel
        obtain rfl : (staleHandover undoing).after = _ := congrArg Prod.snd hrun
        exact ⟨[], by dsimp only; rw [hqueued]; rfl⟩
      | refuse hmoves hrun hrest =>
        cases hmoves.unique ⟨_, _, rfl, rfl, rfl⟩
        have houtcome : (staleHandover undoing).outcome = .ok () := by decide +kernel
        cases houtcome.symm.trans (congrArg Prod.fst hrun)
    have hforward := undoing_visits.mono fun _ _ h => h.1
    obtain ⟨v, out, appended, hrun, -⟩ :=
      ((visitAll_remaps_iff rfl rfl staleList_settled (by decide +kernel) hforward).2
        (undoing_visits.mono fun _ _ h => h.2.1)).2 ⟨undoing_visits.mono fun _ _ h => h.2.2, hsettle⟩
    have heval : ((staleList.visitAll false undoing).resume staleDraft).map
        (fun outcome => outcome.toOption.map fun v => v.list.group.items) (·.buffer.log.drop 3) =
          (some [.point ⟨0, 0⟩], [⟨.erase, ⟨0, 2⟩, ⟨0, 1⟩⟩]) := by decide +kernel
    rw [hrun] at heval
    obtain ⟨hv, hlog⟩ := Prod.mk.inj heval
    exact ⟨v, out.draft, hrun, hlog, Option.some.inj hv⟩

/-- The same draft, and a callback that takes back both groups. Its changes go forward, but the second of
them ends in front of where the first one left the tracker, which is against a contract. -/
theorem not_visitAll_remaps :
    Draft.run { buffer := Buffer.ofText 0 ['a', 'b', 'c'] {} } staleScript = .ok staleDraft ∧
      staleList.buffer = staleDraft.buffer.id ∧ staleList.timestamp = staleDraft.buffer.timestamp ∧
      staleList.group.Settled staleDraft.buffer.text ∧
      staleList.InEachVisit (Handover.GoesForward staleDraft.buffer.timestamp) false undoingTwice staleDraft ∧
      ((staleList.visitAll false undoingTwice).resume staleDraft).1 = .error (.fault .outOfOrder) ∧
      ¬staleList.Remaps false undoingTwice staleDraft := by
  have hfault : ((staleList.visitAll false undoingTwice).resume staleDraft).1 = .error (.fault .outOfOrder) := by
    decide +kernel
  refine ⟨rfl, rfl, rfl, staleList_settled, undoingTwice_goesForward, hfault, ?_⟩
  rintro ⟨v, out, appended, hrun, -⟩
  rw [hrun] at hfault
  cases hfault

end SelectionList

end Caret
