import Caret.Proofs.ExchangeTour
import Caret.Proofs.Hull
import Caret.Proofs.MultiInsert

/-!
# Texts replaced and taken out at all selections

Replacing puts a text in the place of what each selection covers and selects it; erasing leaves nothing
there but points, and those that come to stand on the same position become one. Putting the selections
inside of the text and merging them, as both do in the end, changes nothing after a replacement, and after
a removal only joins points.

* `SelectionList.exists_exchanged`: the visit of a list that exchanges texts.
* `SelectionList.Takes.replace_selects`: what replacing leads to.
* `SelectionList.erase_collapses`: what erasing leads to.
-/

namespace Caret

namespace Swap

variable {u u' : Swap} {t q : Text}

theorem low_placed (u : Swap) : (u.placed Selection.withEnds).low = u.front.extent :=
  Selection.withEnds_low _ (Text.extent_le_append u.front u.text.dropLast)

theorem high_placed (u : Swap) :
    (u.placed Selection.withEnds).high = (u.front ++ u.text.dropLast).extent :=
  Selection.withEnds_high _ (Text.extent_le_append u.front u.text.dropLast)

/-- **The text is selected** that was put in. -/
theorem span_placed (hu : u.text ≠ []) (ht : t = u.front ++ u.text ++ q) (hs : t.size < Text.capacity) :
    (u.placed Selection.withEnds).span t = .ok u.is := by
  subst ht
  refine Selection.span_eq_ok_iff.2 ⟨u.low_placed, ?_⟩
  rw [high_placed]
  exact Text.nextCoord_dropLast hu hs

theorem content_placed (hu : u.text ≠ []) (ht : t = u.front ++ u.text ++ q) (hs : t.size < Text.capacity) :
    (u.placed Selection.withEnds).content t = .ok u.text := by
  obtain ⟨hlow, hnext⟩ := Selection.span_eq_ok_iff.1 (span_placed hu ht hs)
  subst ht
  unfold Selection.content
  rw [hnext, Fault.ok_bind, hlow]
  exact EditM.between_extent hs

theorem validIn_placed (ht : t = u.front ++ u.text ++ q) : (u.placed Selection.withEnds).ValidIn t := by
  subst ht
  refine Selection.validIn_withEnds ?_ ?_
  · rw [List.append_assoc]
    exact Text.valid_extent_append u.front (u.text ++ q)
  · obtain hnil | hcons := eq_or_ne u.text []
    · rw [hnil]
      exact Text.valid_extent_append (u.front ++ []) q
    · rw [Text.append_dropLast u.front q hcons]
      exact Text.valid_extent_append (u.front ++ u.text.dropLast) _

/-- One text behind the other is selected behind the other. -/
theorem high_lt_low (hu : u.text ≠ []) (hle : (u.front ++ u.text).extent ≤ u'.front.extent) :
    (u.placed Selection.withEnds).high < (u'.placed Selection.withEnds).low := by
  have hend := Text.append_dropLast u.front [] hu
  rw [List.append_nil] at hend
  rw [low_placed, high_placed]
  refine lt_of_lt_of_le ?_ hle
  rw [hend]
  exact Text.extent_lt_append _ (List.cons_ne_nil _ _)

end Swap

/-- A selection that starts where it ends is a single coordinate. -/
theorem Selection.anchor_eq_cursor {s : Selection} (h : s.low = s.high) : s.anchor = s.cursor := by
  unfold low high at h
  exact inf_eq_sup.1 h

namespace SelectionList

variable {l : SelectionList} {d : Draft} {texts : List Text}

/-- **The visit of a list that exchanges texts.** -/
theorem exists_exchanged (newText : ℕ → Text) {callback : ℕ → Script}
    {left : Selection → Coord → Coord → Selection} (hbuffer : l.buffer = d.buffer.id)
    (hcurrent : l.timestamp = d.buffer.timestamp) (hw : d.buffer.options.flags.readOnly = false)
    (hsettled : l.group.Settled d.buffer.text) (hleft : Selection.IgnoresEnds left)
    (hcallback : ∀ i, (callback i).PutsInPlace (newText i) left)
    (hsize : d.buffer.text.size +
      ((List.range l.group.items.length).map fun i => (newText i).size).sum < Text.capacity) :
    ∃ (us : List Swap) (v : Visited) (d' : Draft), (l.visitAll false callback).resume d = (.ok v, d') ∧
      us.map Swap.selection = l.group.items ∧
      l.group.items.mapM (Selection.span d.buffer.text) = .ok ((us.map Swap.toExchange).map Exchange.was) ∧
      (∀ i u, us[i]? = some u → u.text = newText i) ∧
      Text.Exchanges [] [] (us.map Swap.toExchange) d.buffer.text d'.buffer.text ∧
      d'.buffer.text.size < Text.capacity ∧ v.refusal = none ∧ v.list = { l with
        group := { l.group with items := us.map (Swap.placed left) }, timestamp := d'.buffer.timestamp } := by
  have ht : d.buffer.text.size < Text.capacity := lt_of_le_of_lt (Nat.le_add_right _ _) hsize
  obtain ⟨T, us, r', hvisits, hselections, hexchanges, hspans, htexts, htext, hsmall, hrefusal, hqueued,
      hfinished⟩ :=
    Tour.exists_swaps (Tour.exchanging_start hw false) ht hsettled.valid hsettled.pairwise_lt
      (fun s _ => Coord.zero_le s.low) hleft hcallback (by
        rw [List.length_nil]
        simpa only [Nat.zero_add] using hsize)
  have hupdate : l.updateMerging d.buffer = .ok l := update_of_current hbuffer hcurrent true
  have hrun := (resume_visitAll_eq_ok_iff hupdate).2 ⟨T, [], hvisits, by rw [hqueued]; rfl, rfl, rfl⟩
  rw [List.nil_append] at htext hfinished
  refine ⟨us, _, T.draft, hrun, hselections, ?_, fun i u hu => ?_, htext ▸ hexchanges, hsmall, hrefusal, ?_⟩
  · rw [← hselections, List.mapM_map, List.map_map]
    exact Fault.mapM_eq_ok hspans
  · have := htexts i u hu
    rwa [List.length_nil, Nat.zero_add] at this
  · unfold Tour.visited
    rw [hfinished, List.flatten_nil, List.append_nil]

/-- What is left of the selections put inside of the text and merged. -/
theorem resume_pullInside (v : Visited) (d : Draft) : (pullInside v).resume d =
    (.ok { v with list := v.list.mapGroup fun g => (g.clamp d.buffer.text).mergeOverlapping }, d) := rfl

/-- **Replacing puts every text in its place and selects it.** If no text is empty, all that the selections
cover gives way to their texts and nothing else changes; each selection then covers its text, with all
else but its ends as it was, and the list is in order and up to date as it stands. -/
theorem Takes.replace_selects (h : l.Takes texts d) (hne : ∀ x ∈ texts, x ≠ [])
    (hmain : l.group.main < l.group.items.length) :
    ∃ (es : List Exchange) (v : Visited) (d' : Draft), (l.replace texts).resume d = (.ok v, d') ∧
      v.refusal = none ∧
      l.group.items.mapM (Selection.span d.buffer.text) = .ok (es.map Exchange.was) ∧
      es.map Exchange.text = (List.range l.group.items.length).map (textFor texts) ∧
      Text.Exchanges [] [] es d.buffer.text d'.buffer.text ∧
      v.list.group.items.mapM (Selection.span d'.buffer.text) = .ok (es.map Exchange.is) ∧
      v.list.group.items.mapM (Selection.content d'.buffer.text) = .ok (es.map Exchange.text) ∧
      (∀ (i : ℕ) (s s' : Selection), l.group.items[i]? = some s → v.list.group.items[i]? = some s' →
        s' = s.withEnds s'.low s'.high) ∧
      v.list.group.items.length = l.group.items.length ∧ v.list.group.main = l.group.main ∧
      v.list.group.Settled d'.buffer.text ∧ v.list.timestamp = d'.buffer.timestamp := by
  obtain ⟨us, v, d', hrun, hselections, hspans, htexts, hexchanges, hsize, hrefusal, hlist⟩ :=
    exists_exchanged (textFor texts) h.buffer h.current h.writable h.settled Selection.ignoresEnds_withEnds
      (fun i => Script.putsInPlace_replaceWith (hne _ (textFor_mem h.nonempty i))) h.size
  have hlength : us.length = l.group.items.length := by rw [← hselections, List.length_map]
  have hfilled : ∀ u ∈ us, u.text ≠ [] := by
    intro u hu
    obtain ⟨i, hi⟩ := List.getElem?_of_mem hu
    rw [htexts i u hi]
    exact hne _ (textFor_mem h.nonempty i)
  have hfound : ∀ u ∈ us, ∃ q, d'.buffer.text = u.front ++ u.text ++ q := by
    intro u hu
    obtain ⟨-, q, hq⟩ := hexchanges.exists_behind (List.mem_map_of_mem hu)
    exact ⟨q, hq⟩
  have hsettled : (⟨us.map (Swap.placed Selection.withEnds), l.group.main⟩ : Selections).Settled
      d'.buffer.text := by
    constructor
    · refine List.forall_mem_map.2 fun u hu => ?_
      obtain ⟨q, hq⟩ := hfound u hu
      exact Swap.validIn_placed hq
    · have hpairwise := List.pairwise_map.1 hexchanges.pairwise
      refine List.pairwise_map.2 (List.pairwise_map.2 (hpairwise.imp_of_mem ?_))
      intro u u' hu _ hle
      exact Swap.high_lt_low (hfilled u hu) hle
  -- so neither clamping nor merging has anything to do
  have hkeeps : ((⟨us.map (Swap.placed Selection.withEnds), l.group.main⟩ : Selections).clamp
      d'.buffer.text).mergeOverlapping = ⟨us.map (Swap.placed Selection.withEnds), l.group.main⟩ := by
    rw [Selections.clamp_of_validIn hsettled.valid]
    refine Selections.mergeOverlapping_eq_self hsettled.pairwise_lt ?_
    rw [List.length_map, hlength]
    exact hmain
  have hpulled : v.list.mapGroup (fun g => (g.clamp d'.buffer.text).mergeOverlapping) = v.list := by
    rw [hlist]
    unfold mapGroup
    dsimp only
    rw [hkeeps]
  refine ⟨us.map Swap.toExchange, _, d', ?_, hrefusal, hspans, ?_, hexchanges, ?_⟩
  · unfold replace
    rw [if_neg (by simpa using h.nonempty), EditM.resume_bind_ok hrun, resume_pullInside, hpulled]
  · rw [List.map_map]
    exact map_eq_map_range hlength htexts
  · rw [hlist]
    refine ⟨?_, ?_, fun i s s' hs hs' => ?_, by rw [List.length_map, hlength], rfl, hsettled, rfl⟩
    · rw [List.mapM_map, List.map_map]
      refine Fault.mapM_eq_ok fun u hu => ?_
      obtain ⟨q, hq⟩ := hfound u hu
      exact Swap.span_placed (hfilled u hu) hq hsize
    · rw [List.mapM_map, List.map_map]
      refine Fault.mapM_eq_ok fun u hu => ?_
      obtain ⟨q, hq⟩ := hfound u hu
      exact Swap.content_placed (hfilled u hu) hq hsize
    · rw [← hselections, List.getElem?_map] at hs
      rw [List.getElem?_map] at hs'
      obtain ⟨u, hu, rfl⟩ := Option.map_eq_some_iff.1 hs
      rw [hu] at hs'
      cases hs'
      rw [u.low_placed, u.high_placed]
      rfl

theorem Takes.replace_selects_sample :
    ∃ v d', (sampleList.replace [['x', '\n'], ['é']]).resume sampleDraft = (.ok v, d') ∧
      d'.buffer.text = ['a', 'x', '\n', 'é', 'é'] ∧
      v.list.group.items = [⟨⟨0, 2⟩, ⟨0, 1⟩, some 7, []⟩, .point ⟨1, 0⟩, .point ⟨1, 2⟩] ∧
      v.list.group.main = 1 ∧ v.list.group.Settled d'.buffer.text ∧
      v.list.group.items.mapM (Selection.content d'.buffer.text) = .ok [['x', '\n'], ['é'], ['é']] := by
  have htakes : sampleList.Takes [['x', '\n'], ['é']] sampleDraft := sampleList_takes (by decide) (by decide)
  obtain ⟨es, v, d', hrun, -, -, htexts, -, -, hcontents, -, -, hmain, hsettled, -⟩ :=
    htakes.replace_selects (by decide) (by decide)
  have heval : ((sampleList.replace [['x', '\n'], ['é']]).resume sampleDraft).map
      (fun outcome => outcome.toOption.map (·.list.group.items)) (·.buffer.text) =
        (some [⟨⟨0, 2⟩, ⟨0, 1⟩, some 7, []⟩, .point ⟨1, 0⟩, .point ⟨1, 2⟩],
          ['a', 'x', '\n', 'é', 'é']) := by decide +kernel
  rw [hrun] at heval
  obtain ⟨hitems, htext⟩ := Prod.mk.inj heval
  rw [htexts] at hcontents
  exact ⟨v, d', hrun, htext, Option.some.inj hitems, hmain, hsettled, hcontents⟩

/-- **Erasing leaves points where the texts were.** All that the selections cover is taken out and nothing
else changes. The selections that are left are single positions in order, just those where a text was
taken out, and the main one is where the text of the main one was. -/
theorem erase_collapses (hbuffer : l.buffer = d.buffer.id) (hcurrent : l.timestamp = d.buffer.timestamp)
    (hw : d.buffer.options.flags.readOnly = false) (hsettled : l.group.Settled d.buffer.text)
    (hmain : l.group.main < l.group.items.length) (hsize : d.buffer.text.size < Text.capacity) :
    ∃ (es : List Exchange) (v : Visited) (d' : Draft), l.erase.resume d = (.ok v, d') ∧
      v.refusal = none ∧
      l.group.items.mapM (Selection.span d.buffer.text) = .ok (es.map Exchange.was) ∧
      (∀ e ∈ es, e.text = []) ∧ Text.Exchanges [] [] es d.buffer.text d'.buffer.text ∧
      (∀ s ∈ v.list.group.items, s.anchor = s.cursor ∧ d'.buffer.text.Valid s.cursor) ∧
      (v.list.group.items.Pairwise fun a b => a.low < b.low) ∧
      (∀ c, (∃ s ∈ v.list.group.items, s.low = c) ↔ ∃ e ∈ es, e.front.extent = c) ∧
      (∃ s e, v.list.group.items[v.list.group.main]? = some s ∧ es[l.group.main]? = some e ∧
        s.low = e.front.extent) ∧
      v.list.timestamp = d'.buffer.timestamp := by
  obtain ⟨us, v, d', hrun, hselections, hspans, htexts, hexchanges, hsize, hrefusal, hlist⟩ :=
    exists_exchanged (fun _ => []) hbuffer hcurrent hw hsettled
      (fun _ _ _ _ _ _ => rfl) (fun _ => Script.putsInPlace_eraseText) (by simpa using hsize)
  have hlength : us.length = l.group.items.length := by rw [← hselections, List.length_map]
  have hempty : ∀ u ∈ us, u.text = [] := by
    intro u hu
    obtain ⟨i, hi⟩ := List.getElem?_of_mem hu
    exact htexts i u hi
  have hlow (u : Swap) : (u.placed Selection.collapsed).low = u.front.extent := min_self _
  have hhigh (u : Swap) : (u.placed Selection.collapsed).high = u.front.extent := max_self _
  generalize hg : (⟨us.map (Swap.placed Selection.collapsed), l.group.main⟩ : Selections) = g
  have hitems : g.items = us.map (Swap.placed Selection.collapsed) := by rw [← hg]
  have hmain' : g.main < g.items.length := by
    rw [hitems, List.length_map, hlength, ← hg]
    exact hmain
  have hvalid : ∀ s ∈ g.items, s.ValidIn d'.buffer.text := by
    rw [hitems]
    refine List.forall_mem_map.2 fun u hu => ?_
    obtain ⟨-, q, hq⟩ := hexchanges.exists_behind (List.mem_map_of_mem hu)
    rw [List.nil_append, List.append_assoc] at hq
    exact ⟨hq ▸ Text.valid_extent_append u.front _, hq ▸ Text.valid_extent_append u.front _⟩
  have hsorted : g.items.Pairwise fun a b => a.low ≤ b.low := by
    rw [hitems]
    refine List.pairwise_map.2 ((List.pairwise_map.1 hexchanges.pairwise).imp fun {u u'} hle => ?_)
    rw [hlow, hlow]
    exact (Text.extent_le_append u.front u.text).trans hle
  have hpoint : ∀ s ∈ g.items, s.low = s.high := by
    rw [hitems]
    exact List.forall_mem_map.2 fun u _ => (hlow u).trans (hhigh u).symm
  obtain ⟨hpoints, hpairwise, hiff, s, hs, hslow⟩ := Selections.mergeOverlapping_points hsorted hpoint hmain'
  have herase : l.erase.resume d = (.ok { v with list := { l with
      group := g.mergeOverlapping, timestamp := d'.buffer.timestamp } }, d') := by
    unfold erase
    rw [EditM.resume_bind_ok hrun, resume_pullInside, hlist]
    unfold mapGroup
    dsimp only
    rw [hg, Selections.clamp_of_validIn hvalid]
  refine ⟨us.map Swap.toExchange, _, d', herase, hrefusal, hspans, List.forall_mem_map.2 hempty,
    hexchanges, fun s hs => ?_, hpairwise, fun c => ?_, ?_, rfl⟩
  · exact ⟨Selection.anchor_eq_cursor (hpoints s hs), (Selections.validIn_mergeOverlapping hvalid s hs).2⟩
  · rw [hiff, hitems]
    simp only [List.mem_map, exists_exists_and_eq_and, hlow]
  · have hu : us[l.group.main]? = some us[l.group.main] := List.getElem?_eq_getElem (hlength ▸ hmain)
    have hfirst : g.items[g.main] = us[l.group.main].placed Selection.collapsed := by
      subst hg
      exact List.getElem_map _
    rw [hfirst, hlow] at hslow
    exact ⟨s, _, hs, by rw [List.getElem?_map, hu]; rfl, hslow⟩

theorem erase_collapses_sample :
    ∃ v d' es, sampleList.erase.resume sampleDraft = (.ok v, d') ∧ d'.buffer.text = ['a'] ∧
      v.list.group = ⟨[.point ⟨0, 1⟩], 0⟩ ∧ Text.Exchanges [] [] es sampleDraft.buffer.text ['a'] ∧
      sampleList.group.items.mapM (Selection.span sampleDraft.buffer.text) = .ok (es.map Exchange.was) ∧
      ∀ c, (∃ s ∈ v.list.group.items, s.low = c) ↔ ∃ e ∈ es, e.front.extent = c := by
  have htakes : sampleList.Takes [[]] sampleDraft := sampleList_takes (by decide) (by decide)
  obtain ⟨es, v, d', hrun, -, hspans, -, hexchanges, -, -, hiff, -⟩ :=
    erase_collapses htakes.buffer htakes.current htakes.writable htakes.settled (by decide) (by decide)
  have heval : (sampleList.erase.resume sampleDraft).map
      (fun outcome => outcome.toOption.map (·.list.group)) (·.buffer.text) =
        (some ⟨[.point ⟨0, 1⟩], 0⟩, ['a']) := by decide +kernel
  rw [hrun] at heval
  obtain ⟨hgroup, htext⟩ := Prod.mk.inj heval
  exact ⟨v, d', es, hrun, htext, Option.some.inj hgroup, htext ▸ hexchanges, hspans, hiff⟩

end SelectionList

end Caret
