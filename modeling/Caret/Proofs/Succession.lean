import Caret.Proofs.Ancestry
import Caret.Proofs.Tour

/-!
# Entries moved end by end, told of changes, and visited

Where each entry of a list goes when the list catches up without merging, when a live list is told of
changes, and when the entries are visited. It is told of each entry on its own: an end that is moved has
the numbers of its entry with it, and a visit leaves one selection in the place of the one that it was
given.

* `Heir.rejoin`, `Ancestry.updateSeparately`: each entry takes back the two ends with its numbers.
* `Ancestry.followAll`: each entry is moved across each change.
* `Heir.visitAll`, `Ancestry.visit`: each entry is left as its own visit leaves it.
* `Ancestry.Traces.updateSeparately`, `Ancestry.Traces.followAll`, `Ancestry.Traces.visit`: these are the
  entries of the lists that come out.
-/

namespace Caret

/-! ## Ends and their entries -/

/-- One end of an entry, to be moved on its own. -/
structure HeirEnd where
  coord : Coord
  /-- The numbers of the entry. -/
  origins : List ℕ
  isCursor : Bool
  deriving DecidableEq, Repr, Inhabited

/-- Ends are moved with the numbers of their entries. -/
instance : Tracked HeirEnd where
  first e := e.coord
  last e := e.coord
  withEnds e first _ := { e with coord := first }

namespace Heir

/-- Both ends of an entry. -/
def ends (h : Heir) : List HeirEnd :=
  [⟨h.selection.anchor, h.origins, false⟩, ⟨h.selection.cursor, h.origins, true⟩]

/-- Where an end of the entry is among ends that were moved. -/
def endAmong (moved : List HeirEnd) (h : Heir) (isCursor : Bool) : Except Fault Coord :=
  match moved.find? fun e => e.origins == h.origins && e.isCursor == isCursor with
  | some e => .ok e.coord
  | none => .error .outOfRange

/-- The entry with its ends at the nearest positions to where they were moved. -/
def rejoin (t : Text) (moved : List HeirEnd) (h : Heir) : Except Fault Heir :=
  h.changed fun s => do
    return { s with
      anchor := t.clamp (← h.endAmong moved false)
      cursor := t.clamp (← h.endAmong moved true) }

end Heir

namespace SelectionList

variable {items : List Selection} {moved : List SelectionEnd} {e : SelectionEnd} {s : Selection}
  {f : Coord → Coord} {i : ℕ} {log : List Change}

/-- Which end of which selection this is. -/
def SelectionEnd.tag (e : SelectionEnd) : ℕ × Bool := (e.index, e.isCursor)

theorem map_tag_endsOf (items : List Selection) :
    (endsOf items).map SelectionEnd.tag =
      (List.range items.length).flatMap fun i => [(i, false), (i, true)] := by
  unfold endsOf
  rw [List.map_flatten, List.flatMap_def]
  congr 1
  refine List.ext_getElem (by simp) fun i hi hi' => ?_
  simp [SelectionEnd.both, SelectionEnd.tag]

theorem nodup_map_tag_endsOf (items : List Selection) : ((endsOf items).map SelectionEnd.tag).Nodup := by
  rw [map_tag_endsOf, List.nodup_flatMap]
  refine ⟨fun i _ => by simp, List.nodup_range.imp fun {i j} hne => ?_⟩
  simp [Function.onFun, hne.symm]

/-- The ends of the selections after they were moved, each found by what it is the end of. -/
theorem exists_moved (hmoved : sweepLog log
      ((endsOf items).mergeSort fun a b => decide (a.coord ≤ b.coord)) = .ok moved) :
    (moved.map SelectionEnd.tag).Nodup ∧ (∀ e ∈ moved, e.index < items.length) ∧
      ∀ i < items.length, ∀ isCursor, ∃ e ∈ moved, e.tag = (i, isCursor) := by
  have htags := map_of_sweepLog (g := SelectionEnd.tag) (fun _ _ _ => rfl) hmoved
  have hperm : (moved.map SelectionEnd.tag).Perm ((endsOf items).map SelectionEnd.tag) := by
    rw [htags]
    exact (List.mergeSort_perm (endsOf items) _).map _
  have hmem (tag : ℕ × Bool) : tag ∈ moved.map SelectionEnd.tag ↔ tag.1 < items.length := by
    obtain ⟨i, isCursor⟩ := tag
    rw [hperm.mem_iff, map_tag_endsOf]
    cases isCursor <;> simp
  refine ⟨hperm.nodup_iff.2 (nodup_map_tag_endsOf items), fun e he => ?_, fun i hi isCursor => ?_⟩
  · exact (hmem e.tag).1 (List.mem_map_of_mem he)
  · exact List.mem_map.1 ((hmem (i, isCursor)).2 hi)

/-- Where a selection has this end. -/
def SelectionEnd.of (e : SelectionEnd) (s : Selection) : Coord := if e.isCursor then s.cursor else s.anchor

theorem SelectionEnd.of_place (e : SelectionEnd) (s : Selection) : e.of (e.place s) = e.coord := by
  unfold SelectionEnd.of place
  split <;> rfl

theorem SelectionEnd.of_place_of_ne {c : Coord} {isCursor : Bool} (h : e.isCursor ≠ isCursor) (s : Selection) :
    e.of ((⟨c, i, isCursor⟩ : SelectionEnd).place s) = e.of s := by
  unfold SelectionEnd.of place
  cases hcursor : e.isCursor <;> cases isCursor <;> simp_all

theorem getElem?_putBack (items : List Selection) (e : SelectionEnd) (i : ℕ) :
    (putBack f items e)[i]? =
      items[i]?.map fun s => if e.index = i then { e with coord := f e.coord : SelectionEnd }.place s else s := by
  unfold putBack
  rw [List.getElem?_modify]
  rfl

theorem length_foldl_putBack (items : List Selection) (moved : List SelectionEnd) :
    (moved.foldl (putBack f) items).length = items.length := by
  induction moved generalizing items with
  | nil => rfl
  | cons e moved ih => exact (ih _).trans (List.length_modify ..)

/-- Putting ends back leaves all else of a selection. -/
theorem exists_foldl_putBack (hs : items[i]? = some s) (moved : List SelectionEnd) :
    ∃ s', (moved.foldl (putBack f) items)[i]? = some s' ∧
      s' = { s with anchor := s'.anchor, cursor := s'.cursor } := by
  induction moved generalizing items s with
  | nil => exact ⟨s, hs, rfl⟩
  | cons e moved ih =>
    have hstep := getElem?_putBack (f := f) items e i
    rw [hs, Option.map_some] at hstep
    obtain ⟨s', hs', hrest⟩ := ih hstep
    refine ⟨s', hs', hrest.trans ?_⟩
    split
    · unfold SelectionEnd.place
      split <;> rfl
    · rfl

/-- **An end that is put back** is where it was put if it is the only one of its kind. -/
theorem of_foldl_putBack (he : e ∈ moved) (hnodup : (moved.map SelectionEnd.tag).Nodup)
    (hs : (moved.foldl (putBack f) items)[e.index]? = some s) : e.of s = f e.coord := by
  induction moved using List.reverseRecOn generalizing s with
  | nil => cases he
  | append_singleton moved last ih =>
    rw [List.foldl_append, List.foldl_cons, List.foldl_nil, getElem?_putBack, Option.map_eq_some_iff] at hs
    obtain ⟨s₀, hs₀, rfl⟩ := hs
    rw [List.map_append, List.map_singleton, List.nodup_append] at hnodup
    obtain ⟨hnodup, -, hlast⟩ := hnodup
    rcases List.mem_append.1 he with he | he
    · -- the last end is another one, of another selection or the other end of this one
      have hother : e.tag ≠ last.tag := hlast _ (List.mem_map_of_mem he) _ (List.mem_singleton_self _)
      by_cases hindex : last.index = e.index
      · have hkind : e.isCursor ≠ last.isCursor := fun hkind => hother (Prod.ext hindex.symm hkind)
        rw [if_pos hindex, SelectionEnd.of_place_of_ne hkind]
        exact ih he hnodup hs₀
      · rw [if_neg hindex]
        exact ih he hnodup hs₀
    · obtain rfl := List.mem_singleton.1 he
      rw [if_pos rfl]
      exact SelectionEnd.of_place { e with coord := f e.coord } s₀

end SelectionList

namespace Heir

open SelectionList

/-- An end with the numbers of its entry in the place of its index. -/
def label (l : List Heir) (e : SelectionEnd) : HeirEnd :=
  ⟨e.coord, (l[e.index]?.map origins).getD [], e.isCursor⟩

theorem hom_label (l : List Heir) : Tracked.Hom (label l) := ⟨fun _ => rfl, fun _ => rfl, fun _ _ _ => rfl⟩

theorem flatMap_ends (l : List Heir) : l.flatMap ends = (endsOf (l.map selection)).map (label l) := by
  unfold endsOf
  rw [List.flatMap_def, List.map_flatten]
  congr 1
  refine List.ext_getElem (by simp) fun i hi hi' => ?_
  have hi : i < l.length := by simpa using hi
  simp [ends, SelectionEnd.both, label, List.getElem?_eq_getElem hi]

end Heir

namespace Ancestry

open SelectionList

variable {f f' : Ancestry} {g : Selections} {items items' : List Selection} {log : List Change} {t : Text}
  {l l' : SelectionList} {b : Buffer} {moved : List SelectionEnd} {e : SelectionEnd} {h₀ : Heir}

/-- Entries moved across a stretch of the log end by end, and each end put at the nearest position of the
text. -/
def sweepEndpoints (log : List Change) (t : Text) (f : Ancestry) : Except Fault Ancestry := do
  let moved ← sweepLog log ((f.entries.flatMap Heir.ends).mergeSort fun a b => decide (a.coord ≤ b.coord))
  return { f with entries := ← f.entries.mapM (Heir.rejoin t moved) }

/-- The entries of a list at the current timestamp of its buffer, every anchor and every cursor moved on its
own. -/
def updateSeparately (l : SelectionList) (b : Buffer) (f : Ancestry) : Except Fault Ancestry := do
  let log ← b.logSince l.timestamp
  if l.timestamp = b.timestamp then return f
  f.sweepEndpoints log b.text

theorem chosen_sweepEndpoints (h : f.sweepEndpoints log t = .ok f') : f'.chosen = f.chosen := by
  unfold sweepEndpoints at h
  rw [Fault.bind_eq_ok] at h
  obtain ⟨_, -, h⟩ := h
  rw [Fault.bind_eq_ok] at h
  obtain ⟨_, -, h⟩ := h
  cases h
  rfl

theorem chosen_updateSeparately (h : f.updateSeparately l b = .ok f') : f'.chosen = f.chosen := by
  unfold updateSeparately at h
  rw [Fault.bind_eq_ok] at h
  obtain ⟨_, -, h⟩ := h
  split at h
  · cases h
    rfl
  · exact chosen_sweepEndpoints h

/-- **Each entry finds its ends again**, and no other ones. -/
theorem Lists.endAmong_label (h : f.Lists items) (hnodup : (moved.map SelectionEnd.tag).Nodup)
    (hbound : ∀ e ∈ moved, e.index < items.length) (he : e ∈ moved) {x : Heir}
    (hx : f.entries[e.index]? = some x) :
    x.endAmong (moved.map (Heir.label f.entries)) e.isCursor = .ok e.coord := by
  have hlabel {e' : SelectionEnd} {x' : Heir} (hx' : f.entries[e'.index]? = some x') :
      (Heir.label f.entries e').origins = x'.origins := by
    unfold Heir.label
    rw [hx']
    rfl
  have hsome : ((moved.map (Heir.label f.entries)).find? fun y =>
      y.origins == x.origins && y.isCursor == e.isCursor).isSome := by
    refine List.find?_isSome.2 ⟨_, List.mem_map_of_mem he, ?_⟩
    rw [hlabel hx]
    simp [Heir.label]
  obtain ⟨y, hy⟩ := Option.isSome_iff_exists.1 hsome
  obtain ⟨e', he', rfl⟩ := List.mem_map.1 (List.mem_of_find?_eq_some hy)
  have htest := List.find?_some hy
  rw [Bool.and_eq_true, beq_iff_eq, beq_iff_eq] at htest
  obtain ⟨horigins, hkind⟩ := htest
  -- what is found is an end of the same entry, because no other one has its numbers
  have hindex : e'.index < f.entries.length := h.length_entries ▸ hbound e' he'
  have hx' := List.getElem?_eq_getElem hindex
  rw [hlabel hx'] at horigins
  obtain ⟨o, ho⟩ := List.exists_mem_of_ne_nil _ (h.named x (List.mem_of_getElem? hx))
  have hsame := h.eq_of_mem hx' hx (horigins ▸ ho) ho
  obtain rfl := List.inj_on_of_nodup_map hnodup he' he (Prod.ext hsame hkind)
  unfold Heir.endAmong
  rw [hy]
  rfl

/-- **An entry takes back its ends**, and is then where the selection at its place is. -/
theorem Lists.rejoin (h : f.Lists items) (hnodup : (moved.map SelectionEnd.tag).Nodup)
    (hbound : ∀ e ∈ moved, e.index < items.length)
    (hall : ∀ i < items.length, ∀ isCursor, ∃ e ∈ moved, e.tag = (i, isCursor)) {i : ℕ} {x : Heir}
    {s : Selection} (hx : f.entries[i]? = some x) (hs : (moved.foldl (putBack t.clamp) items)[i]? = some s) :
    x.rejoin t (moved.map (Heir.label f.entries)) = .ok { x with selection := s } := by
  have hi : i < items.length := h.length_entries ▸ (List.getElem?_eq_some_iff.1 hx).1
  have hbefore : items[i]? = some x.selection := by
    rw [h.items, selections, List.getElem?_map, hx]
    rfl
  have hend (isCursor : Bool) : ∃ c, x.endAmong (moved.map (Heir.label f.entries)) isCursor = .ok c ∧
      (if isCursor then s.cursor else s.anchor) = t.clamp c := by
    obtain ⟨e, he, htag⟩ := hall i hi isCursor
    obtain ⟨rfl, rfl⟩ := Prod.mk.inj htag
    exact ⟨e.coord, h.endAmong_label hnodup hbound he hx, of_foldl_putBack he hnodup hs⟩
  obtain ⟨anchor, hanchor, (hanchor' : s.anchor = t.clamp anchor)⟩ := hend false
  obtain ⟨cursor, hcursor, (hcursor' : s.cursor = t.clamp cursor)⟩ := hend true
  obtain ⟨s', hs', hrest⟩ := exists_foldl_putBack (f := t.clamp) hbefore moved
  obtain rfl := Option.some.inj (hs.symm.trans hs')
  unfold Heir.rejoin Heir.changed
  dsimp only
  rw [hanchor, Fault.ok_bind, hcursor, Fault.ok_bind, Fault.pure_eq_ok, Fault.ok_bind, ← hanchor', ← hcursor']
  exact congrArg (fun s => Except.ok (Heir.mk s x.origins)) hrest.symm

/-- **Moving end by end**, entries included. -/
theorem Traces.sweepEndpoints (h : f.Traces g) (hs : SelectionList.sweepEndpoints log t g.items = .ok items) :
    ∃ f', f.sweepEndpoints log t = .ok f' ∧ f'.Traces { g with items } := by
  unfold SelectionList.sweepEndpoints at hs
  rw [Fault.bind_eq_ok] at hs
  obtain ⟨moved, hmoved, hs⟩ := hs
  obtain rfl := Except.ok.inj hs
  obtain ⟨hnodup, hbound, hall⟩ := SelectionList.exists_moved hmoved
  -- the ends of the entries are those of the selections, with numbers in the place of indices
  have hends : sweepLog log ((f.entries.flatMap Heir.ends).mergeSort fun a b => decide (a.coord ≤ b.coord)) =
      .ok (moved.map (Heir.label f.entries)) := by
    have hsorted : ((endsOf g.items).map (Heir.label f.entries)).mergeSort
        (fun a b => decide (a.coord ≤ b.coord)) =
        ((endsOf g.items).mergeSort fun a b => decide (a.coord ≤ b.coord)).map (Heir.label f.entries) :=
      (List.map_mergeSort (f := Heir.label f.entries) fun _ _ _ _ => rfl).symm
    rw [Heir.flatMap_ends, show f.entries.map Heir.selection = g.items from h.lists.items.symm, hsorted,
      sweepLog_map (Heir.hom_label f.entries)]
    exact Fault.bind_eq_ok.2 ⟨moved, hmoved, rfl⟩
  have hrejoin : List.Forall₂ (fun (e : Heir) s => e.rejoin t (moved.map (Heir.label f.entries)) =
      .ok { e with selection := s }) f.entries (moved.foldl (putBack t.clamp) g.items) := by
    refine List.forall₂_iff_get.2 ⟨?_, fun i hi hi' => ?_⟩
    · rw [length_foldl_putBack, h.lists.length_entries]
    · exact h.lists.rejoin hnodup hbound hall (List.getElem?_eq_getElem hi) (List.getElem?_eq_getElem hi')
  obtain ⟨entries, hentries, hselection, horigins⟩ := Heir.exists_mapM hrejoin
  refine ⟨{ f with entries }, ?_, hselection ▸ h.of_origins horigins⟩
  unfold Ancestry.sweepEndpoints
  rw [hends, Fault.ok_bind, hentries]
  rfl

/-- **Catching up without merging.** -/
theorem Traces.updateSeparately (h : f.Traces l.group) (hu : l.updateSeparately b = .ok l') :
    ∃ f', f.updateSeparately l b = .ok f' ∧ f'.Traces l'.group := by
  unfold SelectionList.updateSeparately at hu
  rw [Fault.bind_eq_ok] at hu
  obtain ⟨_, -, hu⟩ := hu
  rw [Fault.bind_eq_ok] at hu
  obtain ⟨log, hlog, hu⟩ := hu
  unfold Ancestry.updateSeparately
  rw [hlog, Fault.ok_bind]
  split at hu
  · cases hu
    exact ⟨f, if_pos ‹_›, h⟩
  · rw [if_neg ‹_›]
    rw [Fault.bind_eq_ok] at hu
    obtain ⟨items, hitems, hu⟩ := hu
    cases hu
    exact h.sweepEndpoints hitems

/-! ## Changes that are told -/

/-- Entries of a live list that is told of one change after the other. Each entry is moved across each of
them. -/
def followAll (changes : List Change) (f : Ancestry) : Except Fault Ancestry :=
  changes.foldlM (fun f change => f.changeAll (LiveList.followOne change)) f

theorem chosen_followAll {changes : List Change} (h : f.followAll changes = .ok f') : f'.chosen = f.chosen :=
  Fault.foldlM_keeps (P := fun f' => f'.chosen = f.chosen) (fun _ _ _ _ hsame hstep =>
    (chosen_changeAll hstep).trans hsame) rfl h

/-- **A live list that is told of changes.** -/
theorem Traces.followAll {live live' : LiveList} {changes : List Change} (h : f.Traces live.group)
    (hfollow : live.followAll changes = .ok live') :
    ∃ f', f.followAll changes = .ok f' ∧ f'.Traces live'.group := by
  unfold LiveList.followAll at hfollow
  unfold Ancestry.followAll
  induction changes generalizing f live with
  | nil =>
    cases hfollow
    exact ⟨f, rfl, h⟩
  | cons change changes ih =>
    rw [List.foldlM_cons, Fault.bind_eq_ok] at hfollow
    obtain ⟨next, hnext, hfollow⟩ := hfollow
    unfold LiveList.follow at hnext
    rw [Fault.bind_eq_ok] at hnext
    obtain ⟨items, hitems, hnext⟩ := hnext
    cases hnext
    obtain ⟨f₁, hf₁, h₁⟩ := h.changeAll hitems
    obtain ⟨f', hf', h'⟩ := ih h₁ hfollow
    refine ⟨f', ?_, h'⟩
    rw [List.foldlM_cons, hf₁]
    exact hf'

end Ancestry

/-! ## Visits -/

namespace SelectionList.Tour

variable {callback : ℕ → Script} {T T' : Tour} {s : Selection}

/-- The selection as its visit leaves it: as the callback does, or as it arrives after a refusal. -/
def leaves (callback : ℕ → Script) (T : Tour) (s : Selection) : Except Fault Selection := do
  let s ← T.arrive s
  if T.refusal.isSome then return s
  return ((callback T.finished.length).run ⟨T.draft, s, T.mayQueue, T.queued⟩).2.selection

theorem exists_leaves (h : T.visit callback s = (.ok (), T')) :
    ∃ s', T.leaves callback s = .ok s' ∧ T'.finished = T.finished ++ [s'] := by
  obtain ⟨s', harrive, ⟨hrefused, rfl⟩ | ⟨hrefusal, _, v, _, _, hrun, -, -, -, rfl⟩⟩ := visit_cases h
  · refine ⟨s', ?_, rfl⟩
    unfold leaves
    rw [harrive, Fault.ok_bind, if_pos (Option.isSome_iff_ne_none.2 hrefused)]
    rfl
  · refine ⟨v.selection, ?_, rfl⟩
    unfold leaves
    rw [harrive, Fault.ok_bind, hrefusal, hrun]
    rfl

end SelectionList.Tour

namespace Heir

open SelectionList

variable {callback : ℕ → Script} {T T' : Tour} {l : List Heir}

/-- Entries, one after the other, as their visits leave them, and the tour after the last visit. -/
def visitAll (callback : ℕ → Script) : List Heir → Tour → Except Fault (List Heir × Tour)
  | [], T => return ([], T)
  | e :: rest, T => do
    let left ← e.changed (T.leaves callback)
    let (outcome, T) := T.visit callback e.selection
    outcome
    let (rest, T) ← visitAll callback rest T
    return (left :: rest, T)

/-- **A tour of the selections is a tour of the entries**, in the same order. -/
theorem exists_visitAll (h : Tour.visitAll callback (l.map selection) T = (.ok (), T')) :
    ∃ l', visitAll callback l T = .ok (l', T') ∧ T'.finished = T.finished ++ l'.map selection ∧
      l'.map origins = l.map origins := by
  induction l generalizing T with
  | nil =>
    cases h
    exact ⟨[], rfl, (List.append_nil _).symm, rfl⟩
  | cons e l ih =>
    rw [List.map_cons, Tour.visitAll] at h
    cases hvisit : T.visit callback e.selection with
    | mk outcome T₁ =>
      rw [hvisit] at h
      cases outcome with
      | error f => cases h
      | ok _ =>
        obtain ⟨s, hleaves, hfinished⟩ := Tour.exists_leaves hvisit
        obtain ⟨l', hl', hrest, horigins⟩ := ih h
        refine ⟨{ e with selection := s } :: l', ?_, ?_, congrArg (e.origins :: ·) horigins⟩
        · rw [visitAll, changed, hleaves, Fault.ok_bind, Fault.pure_eq_ok, Fault.ok_bind, hvisit]
          dsimp only
          rw [Fault.ok_bind, hl']
          rfl
        · rw [hrest, hfinished, List.append_assoc]
          rfl

end Heir

namespace Ancestry

open SelectionList

variable {f f' : Ancestry} {l : SelectionList} {b b' : Buffer} {mayQueue : Bool} {callback : ℕ → Script}
  {T : Tour} {appended : List (List Selection)}

/-- The entries of a list that is visited while `b` is its buffer, and the buffer in the end. Each of them is
left as its visit leaves it, and the queued selections come behind them. -/
def visit (b : Buffer) (mayQueue : Bool) (callback : ℕ → Script) (f : Ancestry) :
    Except Fault (Ancestry × Buffer) := do
  let (entries, T) ← Heir.visitAll callback f.entries
    { draft := { buffer := b }, tracker := .start, timestamp := b.timestamp, mayQueue }
  let appended ← T.queued.mapM (settle T.draft.buffer)
  return ({ f with entries }.append appended.flatten, T.draft.buffer)

theorem chosen_visit (h : f.visit b mayQueue callback = .ok (f', b')) : f'.chosen = f.chosen := by
  unfold visit at h
  rw [Fault.bind_eq_ok] at h
  obtain ⟨⟨entries, T⟩, -, h⟩ := h
  rw [Fault.bind_eq_ok] at h
  obtain ⟨appended, -, h⟩ := h
  cases h
  rfl

/-- **Visiting**, entries included. -/
theorem Traces.visit (h : f.Traces l.group)
    (htour : Tour.visitAll callback l.group.items
      { draft := { buffer := b }, tracker := .start, timestamp := b.timestamp, mayQueue } = (.ok (), T))
    (hsettle : T.queued.mapM (settle T.draft.buffer) = .ok appended) :
    ∃ f', f.visit b mayQueue callback = .ok (f', T.draft.buffer) ∧
      f'.Traces (T.visited l appended.flatten).list.group := by
  rw [h.lists.items] at htour
  obtain ⟨entries, hentries, hfinished, horigins⟩ := Heir.exists_visitAll htour
  have hvisited := (h.of_origins horigins).append appended.flatten
  refine ⟨({ f with entries } : Ancestry).append appended.flatten, ?_, ?_⟩
  · unfold Ancestry.visit
    rw [hentries, Fault.ok_bind]
    dsimp only
    rw [hsettle]
    rfl
  · unfold Tour.visited
    rw [hfinished]
    exact hvisited

end Ancestry

end Caret
