import Caret.Proofs.Ends
import Caret.Proofs.InsertTour

/-!
# One text for each selection of a list

A list takes one text per selection, each of which goes in next to its selection. Where no text goes in
in front of an earlier one or into a selection, this is the same as putting in all of them at once, and
the selections move across all of them.

* `SelectionList.stops`: the texts for the selections, each at its place.
* `SelectionList.Takes`: what the list asks for.
* `SelectionList.Takes.exists_spliced`: texts that go in one behind the other.
* `SelectionList.Takes.insert_splices`: texts before, at or behind the selections.
-/

namespace Caret

/-- A selection that moved across changes is at positions of the text after them. -/
theorem Selection.MovesTo.validIn {s s' : Selection} {t t' : Text} {log : List Change}
    (h : s.MovesTo log s') (htrail : Trail t log t') (ht : t.size < Text.capacity) (hs : s.ValidIn t) :
    s'.ValidIn t' := by
  obtain ⟨anchor, cursor, hanchor, hcursor, rfl⟩ := h
  obtain ⟨c, hc, hvalid⟩ := htrail.exists_valid ht hs.1
  obtain ⟨c', hc', hvalid'⟩ := htrail.exists_valid ht hs.2
  cases hanchor.symm.trans hc
  cases hcursor.symm.trans hc'
  exact ⟨hvalid, hvalid'⟩

namespace Stop

variable {placement : Placement} {t : Text} {u v : Stop}

/-- The place behind a selection is not in front of its end. -/
theorem high_le_of_behind (ht : t.size < Text.capacity) (hu : u.Fits .behind t) :
    u.selection.high ≤ u.point := by
  have hplace : t.nextCoord u.selection.high = .ok u.point := hu.place
  obtain ⟨p, r, rfl, hhigh⟩ := Text.valid_iff_extent.1 hu.valid.high
  rw [hhigh, Text.nextCoord_extent ht] at hplace
  rw [hhigh, ← Except.ok.inj hplace]
  exact Text.extent_le_append p _

/-- **Texts before, at or behind selections** that lie apart go in one behind the other. -/
theorem before_of_high_lt (ht : t.size < Text.capacity)
    (hplacement : placement = .before ∨ placement = .atCursor ∨ placement = .behind)
    (hu : u.Fits placement t) (hv : v.Fits placement t) (hlt : u.selection.high < v.selection.low) :
    u.Before v := by
  have hwithin := v.selection.low_le_high
  rcases hplacement with rfl | rfl | rfl
  · have hpoint : u.selection.low = u.point := Except.ok.inj hu.place
    have hpoint' : v.selection.low = v.point := Except.ok.inj hv.place
    have hle : u.point ≤ v.selection.low := hpoint ▸ u.selection.low_le_high.trans hlt.le
    exact ⟨hle, hpoint' ▸ hle, hpoint' ▸ hlt⟩
  · have hpoint : u.selection.cursor = u.point := Except.ok.inj hu.place
    have hpoint' : v.selection.cursor = v.point := Except.ok.inj hv.place
    have hle : u.point ≤ v.selection.low := hpoint ▸ (le_max_right _ _).trans hlt.le
    have hlow : v.selection.low ≤ v.point := hpoint' ▸ min_le_right _ _
    exact ⟨hle, hle.trans hlow, lt_of_lt_of_le hlt hlow⟩
  · have hle := (Text.nextCoord_le ht hu.valid.high hv.valid.low hu.place hlt).2
    have hlow := hwithin.trans (high_le_of_behind ht hv)
    exact ⟨hle, hle.trans hlow, lt_of_lt_of_le hlt hlow⟩

end Stop

/-- A list that is given by the indices of its elements. -/
theorem map_eq_map_range {α β : Type} {f : α → β} {g : ℕ → β} {l : List α} {n : ℕ} (hlength : l.length = n)
    (h : ∀ i a, l[i]? = some a → f a = g i) : l.map f = (List.range n).map g := by
  refine List.ext_getElem? fun i => ?_
  rw [List.getElem?_map, List.getElem?_map]
  cases ha : l[i]? with
  | none =>
    have hi := List.getElem?_eq_none_iff.1 ha
    rw [List.getElem?_eq_none (by rw [List.length_range]; omega)]
    rfl
  | some a =>
    obtain ⟨hi, -⟩ := List.getElem?_eq_some_iff.1 ha
    rw [List.getElem?_range (hlength ▸ hi), Option.map_some, Option.map_some, h i a ha]

namespace SelectionList

/-- The texts for the selections of a list, each at its place. -/
def stops (placement : Placement) (texts : List Text) (t : Text) (items : List Selection) :
    Except Fault (List Stop) :=
  items.zipIdx.mapM fun (s, i) => do return ⟨⟨← placement.resolve t s, textFor texts i⟩, s⟩

variable {placement : Placement} {texts : List Text} {t : Text} {items : List Selection}
  {l : SelectionList} {d : Draft}

/-- **There is a stop for each selection.** -/
theorem exists_stops (placement : Placement) (texts : List Text) (ht : t.size < Text.capacity)
    (hv : ∀ s ∈ items, s.ValidIn t) :
    ∃ us, stops placement texts t items = .ok us ∧ us.map (·.selection) = items ∧
      (∀ u ∈ us, u.Fits placement t) ∧ ∀ i u, us[i]? = some u → u.text = textFor texts i := by
  have hresolve : ∀ entry ∈ items.zipIdx, ∃ u : Stop,
      (do return ⟨⟨← placement.resolve t entry.1, textFor texts entry.2⟩, entry.1⟩ : Except Fault Stop) =
        .ok u := by
    intro entry hentry
    obtain ⟨c, hc, -⟩ := placement.exists_resolve ht (hv _ (List.fst_mem_of_mem_zipIdx hentry))
    rw [hc]
    exact ⟨_, rfl⟩
  obtain ⟨us, hus, hmap⟩ := Fault.exists_mapM_eq_ok hresolve
  -- the stop of each index
  have hat : ∀ i u, us[i]? = some u → ∃ s, items[i]? = some s ∧
      placement.resolve t s = .ok u.point ∧ u.text = textFor texts i ∧ u.selection = s := by
    intro i u hu
    have hi := congrArg (·[i]?) hmap
    simp only [List.getElem?_map, hu, List.getElem?_zipIdx, Option.map_some] at hi
    obtain ⟨entry, hentry, hi⟩ := Option.map_eq_some_iff.1 hi.symm
    obtain ⟨s, hs, rfl⟩ := Option.map_eq_some_iff.1 hentry
    rw [Fault.bind_eq_ok] at hi
    obtain ⟨c, hc, hi⟩ := hi
    cases hi
    exact ⟨s, hs, hc, by rw [Nat.zero_add], rfl⟩
  refine ⟨us, hus, ?_, ?_, fun i u hu => ?_⟩
  · have hlength := Fault.length_of_mapM hus
    rw [List.length_zipIdx] at hlength
    refine List.ext_getElem? fun i => ?_
    rw [List.getElem?_map]
    cases hu : us[i]? with
    | none => rw [Option.map_none, List.getElem?_eq_none (hlength ▸ List.getElem?_eq_none_iff.1 hu)]
    | some u =>
      obtain ⟨s, hs, -, -, rfl⟩ := hat i u hu
      rw [hs]
      rfl
  · intro u hu
    obtain ⟨i, hi⟩ := List.getElem?_of_mem hu
    obtain ⟨s, hs, hplace, -, rfl⟩ := hat i u hi
    exact ⟨hv _ (List.mem_of_getElem? hs), hplace⟩
  · obtain ⟨-, -, -, htext, -⟩ := hat i u hu
    exact htext

theorem textFor_mem (h : texts ≠ []) (i : ℕ) : textFor texts i ∈ texts := by
  have hi : min i (texts.length - 1) < texts.length := by
    have := List.length_pos_iff.2 h
    omega
  unfold textFor
  rw [List.getElem?_eq_getElem hi]
  exact List.getElem_mem hi

/-- **What the insertion of texts asks for**: a list that is current with a writable buffer, selections
at its positions that lie apart, at least one text, and room for all that is put in. -/
structure Takes (l : SelectionList) (texts : List Text) (d : Draft) : Prop where
  buffer : l.buffer = d.buffer.id
  current : l.timestamp = d.buffer.timestamp
  writable : d.buffer.options.flags.readOnly = false
  settled : l.group.Settled d.buffer.text
  nonempty : texts ≠ []
  size : d.buffer.text.size +
    ((List.range l.group.items.length).map fun i => (textFor texts i).size).sum < Text.capacity

/-- **Texts put in at all selections.** The visit `v` of the list `l` took the draft from `d` to `d'`: all
texts of `us` went in at once, as the changes `log`, and all selections moved across these. -/
structure Spliced (l : SelectionList) (us : List Stop) (log : List Change) (d d' : Draft) (v : Visited) :
    Prop where
  accepted : v.refusal = none
  text : d'.buffer.text = d.buffer.text.splice (us.map (·.toInsertion))
  changes : Insertion.changes (us.map (·.toInsertion)) = .ok log
  logged : d'.buffer.log = d.buffer.log ++ log
  list : v.list = { l with
    group := { l.group with items := v.list.group.items }, timestamp := d'.buffer.timestamp }
  moved : List.Forall₂ (Selection.MovesTo log) l.group.items v.list.group.items
  valid : ∀ s ∈ v.list.group.items, s.ValidIn d'.buffer.text

/-- A tour that has not begun. -/
theorem Tour.stands_start {d : Draft} (hw : d.buffer.options.flags.readOnly = false) (mayQueue : Bool) :
    Tour.Stands { draft := d, tracker := .start, timestamp := d.buffer.timestamp, mayQueue } d.buffer.text
      d.buffer.log [] [] [] [] d.buffer.text where
  refusal := rfl
  queued := rfl
  writable := hw
  timestamp := rfl
  logged := (List.append_nil _).symm
  origin := rfl
  text := rfl
  tracker := rfl
  changes := Insertion.changes_nil
  inserts := by simp
  trail := rfl
  splice := Text.splice_nil _
  border := .inl ⟨rfl, rfl⟩
  reached := by simp
  ahead := fun _ _ _ => rfl

theorem Tour.settles_nil : Tour.Settles [] [] [] := ⟨rfl, by simp, by simp⟩

theorem Tour.Settles.forall₂ {us : List Stop} {log : List Change} {finished : List Selection}
    (h : Tour.Settles us log finished) :
    List.Forall₂ (Selection.MovesTo log) (us.map (·.selection)) finished := by
  refine List.forall₂_iff_get.2 ⟨by rw [List.length_map, h.length], fun i hi hi' => ?_⟩
  rw [List.length_map] at hi
  rw [List.get_eq_getElem, List.getElem_map]
  exact h.all (List.getElem?_eq_getElem hi) (List.getElem?_eq_getElem hi')

namespace Takes

variable {us : List Stop}

/-- The texts as they come to the selections. -/
theorem sizes_eq (hlength : us.length = items.length)
    (htext : ∀ i u, us[i]? = some u → u.text = textFor texts i) :
    us.map (·.text.size) = (List.range items.length).map fun i => (textFor texts i).size :=
  map_eq_map_range hlength fun i u hu => congrArg Text.size (htext i u hu)

/-- Selections in order, as stops. -/
theorem pairwise_stops (h : l.Takes texts d) (hselections : us.map (·.selection) = l.group.items) :
    us.Pairwise fun u v => u.selection.high < v.selection.low := by
  have hpair := h.settled.pairwise_lt
  rw [← hselections, List.pairwise_map] at hpair
  exact hpair

/-- **Texts that go in one behind the other** go in at once. -/
theorem exists_spliced (h : l.Takes texts d)
    (hus : stops placement texts d.buffer.text l.group.items = .ok us)
    (hbefore : us.Pairwise Stop.Before) :
    ∃ v d' log, (l.insert texts placement).resume d = (.ok v, d') ∧ l.Spliced us log d d' v ∧
      Tour.Settles us log v.list.group.items := by
  have ht : d.buffer.text.size < Text.capacity := lt_of_le_of_lt (Nat.le_add_right _ _) h.size
  obtain ⟨us', hus', hselections, hfits, htext⟩ := exists_stops placement texts ht h.settled.valid
  cases hus'.symm.trans hus
  have hlength := congrArg List.length hselections
  rw [List.length_map] at hlength
  have hsize := h.size
  rw [← sizes_eq hlength htext] at hsize
  obtain ⟨T, log, a, b, q, hvisits, hstands, hsettles⟩ :
      ∃ T log a b q,
        Tour.visitAll (fun i => Script.insertNear placement (textFor texts i)) (us.map (·.selection))
          { draft := d, tracker := .start, timestamp := d.buffer.timestamp, mayQueue := false } =
            (.ok (), T) ∧
        T.Stands d.buffer.text d.buffer.log (us.map (·.toInsertion)) log a b q ∧
        Tour.Settles us log T.finished :=
    Tour.exists_visitAll [] (Tour.stands_start h.writable false) Tour.settles_nil ht hfits hbefore
      (fun i u hu => by rw [htext i u hu, List.length_nil, Nat.zero_add]) hsize
  rw [hselections] at hvisits
  have hupdate : l.updateMerging d.buffer = .ok l := update_of_current h.buffer h.current true
  have hrun := (resume_visitAll_eq_ok_iff hupdate).2
    ⟨T, [], hvisits, by rw [hstands.queued]; rfl, rfl, rfl⟩
  rw [List.flatten_nil] at hrun
  have hitems : (T.visited l []).list.group.items = T.finished := List.append_nil _
  rw [← hitems] at hsettles
  have hmoved := hsettles.forall₂
  rw [hselections] at hmoved
  refine ⟨T.visited l [], T.draft, log, ?_, ⟨hstands.refusal, ?_, hstands.changes, hstands.logged, rfl,
    hmoved, ?_⟩, hsettles⟩
  · unfold SelectionList.insert
    rw [if_neg (by simpa using h.nonempty)]
    exact hrun
  · rw [hstands.text, hstands.splice]
  · intro s' hs'
    obtain ⟨i, hi'⟩ := List.getElem?_of_mem hs'
    obtain ⟨hi, -⟩ := List.getElem?_eq_some_iff.1 hi'
    have hu := List.getElem?_eq_getElem (hsettles.length ▸ hi)
    exact (hsettles.all hu hi').validIn hstands.trail ht (hfits _ (List.mem_of_getElem? hu)).valid

/-- **Texts before, at or behind the selections** go in at once, each at its place in the text as it was.
Every selection keeps its place in the list and moves across the texts up to its own. -/
theorem insert_splices (h : l.Takes texts d)
    (hplacement : placement = .before ∨ placement = .atCursor ∨ placement = .behind) :
    ∃ us v d' log, stops placement texts d.buffer.text l.group.items = .ok us ∧
      (l.insert texts placement).resume d = (.ok v, d') ∧ l.Spliced us log d d' v ∧
      ∀ i s s', l.group.items[i]? = some s → v.list.group.items[i]? = some s' →
        ∃ log', Insertion.changes ((us.take (i + 1)).map (·.toInsertion)) = .ok log' ∧
          s.MovesTo log' s' := by
  have ht : d.buffer.text.size < Text.capacity := lt_of_le_of_lt (Nat.le_add_right _ _) h.size
  obtain ⟨us, hus, hselections, hfits, -⟩ := exists_stops placement texts ht h.settled.valid
  have hapart := h.pairwise_stops hselections
  have hbefore : us.Pairwise Stop.Before := hapart.imp_of_mem fun {u v} hu hv hlt =>
    Stop.before_of_high_lt ht hplacement (hfits u hu) (hfits v hv) hlt
  obtain ⟨v, d', log, hrun, hspliced, hsettles⟩ := h.exists_spliced hus hbefore
  refine ⟨us, v, d', log, hus, hrun, hspliced, fun i s s' hs hs' => ?_⟩
  rw [← hselections, List.getElem?_map] at hs
  obtain ⟨u, hu, rfl⟩ := Option.map_eq_some_iff.1 hs
  exact hsettles.own hu hs'

end Takes

/-- Two lines, in a buffer of its own. -/
def sampleDraft : Draft := { buffer := Buffer.ofText 0 ['a', 'b', '\n', 'c'] {} }

/-- A selection that ends on a newline, the first character behind it, and the end of the text. -/
def sampleList : SelectionList where
  group := { items := [⟨⟨0, 2⟩, ⟨0, 1⟩, some 7, []⟩, .point ⟨1, 0⟩, .point ⟨1, 1⟩], main := 1 }
  buffer := 0
  timestamp := 0

theorem sampleList_takes {texts : List Text} (hne : texts ≠ [])
    (hsize : 4 + ((List.range 3).map fun i => (textFor texts i).size).sum < Text.capacity) :
    sampleList.Takes texts sampleDraft where
  buffer := rfl
  current := rfl
  writable := rfl
  settled := ⟨by simp only [Selection.ValidIn]; decide, by unfold Span.Apart; decide⟩
  nonempty := hne
  size := hsize

theorem Takes.insert_splices_sample :
    ∃ v d', (sampleList.insert [['x', '\n'], [], ['y']] .behind).resume sampleDraft = (.ok v, d') ∧
      v.refusal = none ∧ d'.buffer.text = ['a', 'b', '\n', 'x', '\n', 'c', 'y'] ∧
      v.list.group.items = [⟨⟨0, 2⟩, ⟨0, 1⟩, some 7, []⟩, .point ⟨2, 0⟩, .point ⟨2, 2⟩] := by
  have htakes : sampleList.Takes [['x', '\n'], [], ['y']] sampleDraft := sampleList_takes (by decide) (by decide)
  obtain ⟨us, v, d', log, -, hrun, hspliced, -⟩ := htakes.insert_splices (.inr (.inr rfl))
  have heval : ((sampleList.insert [['x', '\n'], [], ['y']] .behind).resume sampleDraft).map
      (fun outcome => outcome.toOption.map (·.list.group.items)) (·.buffer.text) =
        (some [⟨⟨0, 2⟩, ⟨0, 1⟩, some 7, []⟩, .point ⟨2, 0⟩, .point ⟨2, 2⟩],
          ['a', 'b', '\n', 'x', '\n', 'c', 'y']) := by decide +kernel
  rw [hrun] at heval
  obtain ⟨hitems, htext⟩ := Prod.mk.inj heval
  exact ⟨v, d', hrun, hspliced.accepted, htext, Option.some.inj hitems⟩

end SelectionList

end Caret
