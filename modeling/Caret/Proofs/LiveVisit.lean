import Caret.Proofs.Descent
import Caret.Proofs.InnerVisit

/-!
# Visits of live lists

The selections that are visited are those of the live list, sorted and merged. What comes of the visits
takes their place: it is put at positions of the text, but is neither sorted nor merged again.

* `LiveList.Leaves`: what visits leave of the selections of a live list.
* `WorkspaceM.visitLive_settled_iff`: a live list is at positions of the text after its visits, and sorted
  and apart just when what came of the visits is. Callbacks that stay inside of their selections see to that.
* `WorkspaceM.not_visitLive_settled`: others need not.
-/

namespace Caret

namespace LiveList

/-- **What visits leave of a live list**, whose selections were `g` while its buffer was `b`, and are `g'`.
`T` is the tour in the end, and `appended` is what the queued selections come to. -/
structure Leaves (b : Buffer) (mayQueue : Bool) (callback : ℕ → Script) (g g' : Selections)
    (T : SelectionList.Tour) (appended : List (List Selection)) : Prop where
  toured : SelectionList.Tour.visitAll callback g.normalize.items
    { draft := { buffer := b }, tracker := .start, timestamp := b.timestamp, mayQueue } = (.ok (), T)
  settled : T.queued.mapM (SelectionList.settle T.draft.buffer) = .ok appended
  items : g'.items = (T.finished ++ appended.flatten).map (Selection.clamp T.draft.buffer.text)
  main_eq : g'.main = g.normalize.main

variable {b : Buffer} {mayQueue : Bool} {callback : ℕ → Script} {g g' : Selections}
  {T : SelectionList.Tour} {appended : List (List Selection)}

theorem check_of_track (h : track b g = .ok g') : g.check = .ok () := by
  unfold track at h
  rw [Fault.bind_eq_ok] at h
  exact h.choose_spec.1

namespace Leaves

/-- All selections are at positions of the text. -/
theorem validIn (h : Leaves b mayQueue callback g g' T appended) :
    ∀ s ∈ g'.items, s.ValidIn T.draft.buffer.text := by
  rw [h.items]
  intro s hs
  obtain ⟨r, -, rfl⟩ := List.mem_map.1 hs
  exact r.validIn_clamp _

/-- They are sorted and apart if this is what came of the visits. -/
theorem settled_iff (h : Leaves b mayQueue callback g g' T appended) :
    g'.Settled T.draft.buffer.text ↔
      ((T.finished ++ appended.flatten).map (Selection.clamp T.draft.buffer.text)).Pairwise
        fun s s' => s.high < s'.low := by
  rw [← h.items]
  exact ⟨fun hsettled => hsettled.pairwise_lt, fun hlt => ⟨h.validIn, List.pairwise_map.2 hlt⟩⟩

/-- **Callbacks that stay inside** of their selections leave them sorted and apart. -/
theorem settled_of_inside (h : Leaves b mayQueue callback g g' T appended)
    (hsize : b.text.size < Text.capacity) (hvalid : ∀ s ∈ g.items, s.ValidIn b.text)
    (hinside : ∀ i, (callback i).StaysInside) : g'.Settled T.draft.buffer.text := by
  have hnormal := Selections.settled_normalize hvalid
  have hroom : SelectionList.Tour.Room
      { draft := { buffer := b }, tracker := .start, timestamp := b.timestamp, mayQueue } b.text [] []
      b.text g.normalize.items := by
    refine ⟨rfl, rfl, rfl, rfl, hsize, Tracker.standsIn_start [], ?_, .nil, ?_, fun s _ => Coord.zero_le _⟩
    · exact fun s hs => absurd hs List.not_mem_nil
    · exact fun _ s hs => absurd hs List.not_mem_nil
  obtain ⟨A, B, r, hroom⟩ := SelectionList.Tour.exists_room hroom hsize hnormal.valid hnormal.pairwise_lt
    hinside h.toured
  have hnone : appended = [] := by
    have hsettled := h.settled
    rw [hroom.queued] at hsettled
    exact (Except.ok.inj hsettled).symm
  have hkept : (T.finished ++ appended.flatten).map (Selection.clamp T.draft.buffer.text) = T.finished := by
    rw [hnone, List.flatten_nil, List.append_nil, hroom.text]
    exact (List.map_congr_left fun s hs => Selection.clamp_of_validIn (hroom.valid s hs)).trans
      (List.map_id' _)
  rw [h.settled_iff, hkept]
  exact hroom.apart

end Leaves

end LiveList

namespace WorkspaceM

variable {w : Workspace} {name buffer : String} {mayQueue : Bool} {callback : ℕ → Script} {l : LiveList}
  {host : Host}

/-- **The visits of a live list**: a tour of its selections, which then are replaced. -/
theorem ends_visitLive_leaves (hl : w.liveLists.get? name = some l) (hhost : w.hosts.get? buffer = some host) :
    Ends (visitLive name buffer mayQueue callback) w
      (fun v w' => ∃ l' host' T appended, w'.liveLists.get? name = some l' ∧
        w'.hosts.get? buffer = some host' ∧ host'.buffer = T.draft.buffer ∧ v.refusal = T.refusal ∧
        l'.group.main < l'.group.items.length ∧
        LiveList.Leaves host.buffer mayQueue callback l.group l'.group T appended)
      fun _ _ => True := by
  unfold visitLive liveList
  refine bind_named_of_eq_some hl (bind_buffer_of_eq_some hhost ?_)
  refine bind_require (fun _ _ => bind_require (fun batch hbatch => ?_) fun _ _ => trivial) fun _ _ => trivial
  refine Ends.bind ((ends_visit hhost).mono (fun _ _ hvisit => hvisit) fun _ _ _ => trivial) ?_
  rintro v w' ⟨l', T, appended, host', hupdate, htoured, hsettled, rfl, hhost', hsame⟩
  refine bind_buffer_of_eq_some hhost' (bind_require (fun group hgroup => ?_) fun _ _ => trivial)
  refine bind_named (fun live _ => bind_modify (ends_pure ?_)) fun _ => trivial
  -- the list that is visited is current
  obtain ⟨hnormal, htime⟩ := LiveList.of_snapshot hbatch
  obtain rfl := SelectionList.updateMerging_of_current hupdate htime
  have hmain := Selections.check_eq_ok_iff.1 (LiveList.check_of_track hgroup)
  obtain rfl := LiveList.of_track hgroup
  rw [hnormal] at htoured
  refine ⟨_, host', T, appended, Table.get?_put, hhost', hsame, rfl,
    hmain.trans_eq (List.length_map _).symm, htoured, hsettled, ?_, ?_⟩
  · rw [← hsame]
    rfl
  · show l'.group.main = l.group.normalize.main
    rw [hnormal]

/-- **A visited live list** has selections, one of them main, at positions of the text. They are sorted and
apart just when what came of the visits is, put at positions: the visited selections, and the queued ones
behind them. That is so if all callbacks stay inside of their selections. -/
theorem visitLive_settled_iff {w' : Workspace} {v : SelectionList.Visited}
    (hl : w.liveLists.get? name = some l) (hhost : w.hosts.get? buffer = some host)
    (hr : (visitLive name buffer mayQueue callback).resume w = (.ok v, w')) :
    ∃ l' host' T appended, w'.liveLists.get? name = some l' ∧ w'.hosts.get? buffer = some host' ∧
      host'.buffer = T.draft.buffer ∧ v.refusal = T.refusal ∧
      LiveList.Leaves host.buffer mayQueue callback l.group l'.group T appended ∧
      l'.group.main < l'.group.items.length ∧
      (∀ s ∈ l'.group.items, s.ValidIn host'.buffer.text) ∧
      (l'.group.Settled host'.buffer.text ↔
        ((T.finished ++ appended.flatten).map (Selection.clamp host'.buffer.text)).Pairwise
          fun s s' => s.high < s'.low) ∧
      (host.buffer.text.size < Text.capacity → (∀ s ∈ l.group.items, s.ValidIn host.buffer.text) →
        (∀ i, (callback i).StaysInside) → l'.group.Settled host'.buffer.text) := by
  obtain ⟨l', host', T, appended, hl', hhost', hsame, hrefusal, hmain, h⟩ := (ends_visitLive_leaves hl hhost).ok hr
  refine ⟨l', host', T, appended, hl', hhost', hsame, hrefusal, h, hmain, ?_, ?_, ?_⟩
  · rw [hsame]
    exact h.validIn
  · rw [hsame]
    exact h.settled_iff
  · rw [hsame]
    exact h.settled_of_inside

theorem visitLive_settled_iff_sample :
    ∃ v w' l' host', (visitLive "d" "b" false fun _ => Script.insertNear .before ['y']).resume
        ListTask.sampleWorkspace = (.ok v, w') ∧
      w'.liveLists.get? "d" = some l' ∧ w'.hosts.get? "b" = some host' ∧
      l'.group.Settled host'.buffer.text := by
  have hok : ((visitLive "d" "b" false fun _ => Script.insertNear .before ['y']).resume
      ListTask.sampleWorkspace).1.toBool = true := by cbv
  cases hr : (visitLive "d" "b" false fun _ => Script.insertNear .before ['y']).resume
      ListTask.sampleWorkspace with
  | mk outcome w' =>
    rw [hr] at hok
    cases outcome with
    | error f => cases hok
    | ok v =>
      obtain ⟨l', host', -, -, hl', hhost', -, -, -, -, -, -, hsettled⟩ := visitLive_settled_iff rfl rfl hr
      refine ⟨v, w', l', host', rfl, hl', hhost', hsettled (by decide) ?_ fun _ =>
        Script.staysInside_insertNear ['y']⟩
      simp only [Selection.ValidIn]
      decide

/-- A live list with two selections, sorted and apart. -/
def crossingList : LiveList :=
  { key := 0, group := { items := [.point ⟨0, 0⟩, .point ⟨0, 2⟩], main := 1 }, buffer := 0, registration := some 0 }

def crossingHost : Host :=
  { buffer := Buffer.ofText 0 ['a', 'b', 'c', 'd', 'e', 'f'] {}
    registry := ({} : Registry).add (fun _ => true) 0 }

def crossingWorkspace : Workspace :=
  { nextListener := 1, hosts := [("b", crossingHost)], liveLists := [("d", crossingList)] }

/-- Puts the first selection behind the second one. -/
def crossing (i : ℕ) : Script := if i = 0 then .select (.point ⟨0, 5⟩) .done else .done

/-- **Selections that cross** stay as they are, though no visit was refused. -/
theorem not_visitLive_settled :
    crossingList.group.Settled crossingHost.buffer.text ∧
      ∃ v w' l' host', (visitLive "d" "b" false crossing).resume crossingWorkspace = (.ok v, w') ∧
        v.refusal = none ∧ w'.liveLists.get? "d" = some l' ∧ w'.hosts.get? "b" = some host' ∧
        l'.group.items = [.point ⟨0, 5⟩, .point ⟨0, 2⟩] ∧ ¬l'.group.Settled host'.buffer.text := by
  refine ⟨⟨by simp only [Selection.ValidIn]; decide, by unfold Span.Apart; decide⟩, ?_⟩
  have hrefusal : ((visitLive "d" "b" false crossing).resume crossingWorkspace).1.toOption.map (·.refusal) =
      some none := by cbv
  have hleft : ((visitLive "d" "b" false crossing).resume crossingWorkspace).2.liveLists.get? "d" =
      some { crossingList with group := { items := [.point ⟨0, 5⟩, .point ⟨0, 2⟩], main := 1 } } := by cbv
  have hhost : (((visitLive "d" "b" false crossing).resume crossingWorkspace).2.hosts.get? "b").isSome =
      true := by cbv
  cases hr : (visitLive "d" "b" false crossing).resume crossingWorkspace with
  | mk outcome w' =>
    rw [hr] at hrefusal hleft hhost
    cases outcome with
    | error f => cases hrefusal
    | ok v =>
      obtain ⟨host', hhost⟩ := Option.isSome_iff_exists.1 hhost
      refine ⟨v, w', _, host', rfl, Option.some.inj hrefusal, hleft, hhost, rfl, fun hsettled => ?_⟩
      exact absurd hsettled.pairwise_lt (by decide)

end WorkspaceM

end Caret
