import Mathlib.Data.List.Flatten
import Mathlib.Data.List.InsertIdx
import Mathlib.Data.List.Nodup
import Caret.Proofs.Reading

/-!
# Where selections come from

Each entry that a list begins with, or that is added to it, gets a number of its own, and the numbers
go with the entries: sorting permutes them, and a merge hands those of an entry that is taken in to the
entry that takes it in. So it can be told of each entry which ones it descends from, without regard to
the main index.

* `Heir`, `Ancestry`: entries with the numbers that went into them, and the entry that was chosen.
* `Ancestry.Traces`: entries of a list, the main one of which descends from the chosen one.
* `Ancestry.Traces.sort`, `Ancestry.Traces.mergeBy`, `Ancestry.Traces.remove`: one lemma for each
  operation on groups of selections.
-/

namespace Caret

/-- A selection and the entries that went into it, by their numbers. -/
structure Heir where
  selection : Selection
  origins : List ℕ
  deriving DecidableEq, Repr, Inhabited

namespace Heir

/-- The entry takes in those that follow it as long as the test holds, then the next one does. -/
def join (test : Selection → Selection → Except Fault Bool) (h : Heir) : List Heir → Except Fault (List Heir)
  | [] => return [h]
  | s :: rest => do
    if ← test h.selection s.selection then
      join test ⟨h.selection.cover s.selection, h.origins ++ s.origins⟩ rest
    else return h :: (← join test s rest)

/-- Entries that take in their neighbours. -/
def joinAll (test : Selection → Selection → Except Fault Bool) : List Heir → Except Fault (List Heir)
  | [] => return []
  | s :: rest => join test s rest

/-- Sorted by the selections; entries with equal selections keep their order. -/
def sort (l : List Heir) : List Heir := l.mergeSort fun a b => a.selection.le b.selection

/-- Entries are moved as their selections are, and keep their numbers. -/
instance : Tracked Heir where
  first h := h.selection.low
  last h := h.selection.high
  withEnds h low high := { h with selection := h.selection.withEnds low high }

theorem hom_selection : Tracked.Hom selection := ⟨fun _ => rfl, fun _ => rfl, fun _ _ _ => rfl⟩

/-- The entry with what comes of its selection. -/
def changed (φ : Selection → Except Fault Selection) (h : Heir) : Except Fault Heir := do
  return { h with selection := ← φ h.selection }

variable {test : Selection → Selection → Except Fault Bool} {l : List Heir} {h e : Heir} {c : Cover}
  {covers : List Cover}

/-- **Joining entries joins their selections**, and each entry goes where its index does. -/
theorem exists_join (hc : h.selection = c.selection)
    (hj : Cover.join test c (l.map selection) = .ok covers) :
    ∃ l', join test h l = .ok l' ∧ l'.map selection = covers.map Cover.selection ∧
      l'.flatMap origins = h.origins ++ l.flatMap origins ∧
      (∀ e ∈ l', ∃ e' ∈ h :: l, e'.origins ⊆ e.origins) ∧
      (∀ i < c.size, ∃ e', l'[Cover.indexOf covers i]? = some e' ∧ h.origins ⊆ e'.origins) ∧
      ∀ i e, l[i]? = some e →
        ∃ e', l'[Cover.indexOf covers (c.size + i)]? = some e' ∧ e.origins ⊆ e'.origins := by
  induction l generalizing h c covers with
  | nil =>
    cases hj
    refine ⟨[h], rfl, by simp [hc], by simp, fun e he => ⟨e, he, List.Subset.refl _⟩, fun i hi => ?_,
      fun i e he => by cases he⟩
    refine ⟨h, ?_, List.Subset.refl _⟩
    rw [Cover.indexOf, if_pos hi]
    rfl
  | cons s rest ih =>
    rw [List.map_cons, Cover.join, Fault.bind_eq_ok] at hj
    obtain ⟨b, htest, hj⟩ := hj
    rw [← hc] at htest
    cases b with
    | true =>
      rw [if_pos rfl] at hj
      obtain ⟨l', hl', hmap, horigins, hmem, hfirst, hrest⟩ :=
        ih (h := ⟨h.selection.cover s.selection, h.origins ++ s.origins⟩) (by rw [hc]) hj
      refine ⟨l', ?_, hmap, ?_, fun e he => ?_, fun i hi => ?_, fun i e he => ?_⟩
      · rw [join, htest, Fault.ok_bind, if_pos rfl]
        exact hl'
      · rw [horigins, List.flatMap_cons, List.append_assoc]
      · obtain ⟨e', he', hsub⟩ := hmem e he
        rcases List.mem_cons.1 he' with rfl | he'
        · exact ⟨h, List.mem_cons_self, List.Subset.trans (List.subset_append_left _ _) hsub⟩
        · exact ⟨e', List.mem_cons_of_mem _ (List.mem_cons_of_mem _ he'), hsub⟩
      · obtain ⟨e', he', hsub⟩ := hfirst i (Nat.lt_succ_of_lt hi)
        exact ⟨e', he', List.Subset.trans (List.subset_append_left _ _) hsub⟩
      · cases i with
        | zero =>
          cases he
          obtain ⟨e', he', hsub⟩ := hfirst c.size (Nat.lt_succ_self _)
          exact ⟨e', he', List.Subset.trans (List.subset_append_right _ _) hsub⟩
        | succ i =>
          obtain ⟨e', he', hsub⟩ := hrest i e he
          refine ⟨e', ?_, hsub⟩
          rw [← he', Nat.add_right_comm]
          rfl
    | false =>
      rw [if_neg (by simp), Fault.bind_eq_ok] at hj
      obtain ⟨covers', hj, hcovers⟩ := hj
      cases hcovers
      obtain ⟨l', hl', hmap, horigins, hmem, hfirst, hrest⟩ := ih (h := s) rfl hj
      have hindex (i : ℕ) : Cover.indexOf (c :: covers') (c.size + i) = Cover.indexOf covers' i + 1 := by
        rw [Cover.indexOf, if_neg (Nat.not_lt.2 (Nat.le_add_right _ _)), Nat.add_sub_cancel_left]
      refine ⟨h :: l', ?_, by simp [hc, hmap], ?_, fun e he => ?_, fun i hi => ?_, fun i e he => ?_⟩
      · rw [join, htest, Fault.ok_bind, if_neg (by simp), hl']
        rfl
      · rw [List.flatMap_cons, horigins, List.flatMap_cons]
      · rcases List.mem_cons.1 he with rfl | he
        · exact ⟨e, List.mem_cons_self, List.Subset.refl _⟩
        · obtain ⟨e', he', hsub⟩ := hmem e he
          exact ⟨e', List.mem_cons_of_mem _ he', hsub⟩
      · refine ⟨h, ?_, List.Subset.refl _⟩
        rw [Cover.indexOf, if_pos hi]
        rfl
      · rw [hindex, List.getElem?_cons_succ]
        cases i with
        | zero =>
          cases he
          exact hfirst 0 Nat.one_pos
        | succ i =>
          obtain ⟨e', he', hsub⟩ := hrest i e he
          refine ⟨e', ?_, hsub⟩
          rw [← he', Nat.add_comm 1 i]

variable {items : List Selection}

/-- Entries whose selections are changed one by one keep their numbers. -/
theorem exists_mapM {φ : Heir → Except Fault Heir}
    (h : List.Forall₂ (fun e s => φ e = .ok { e with selection := s }) l items) :
    ∃ l', l.mapM φ = .ok l' ∧ l'.map selection = items ∧ l'.map origins = l.map origins := by
  induction h with
  | nil => exact ⟨[], rfl, rfl, rfl⟩
  | @cons e s l items he _ ih =>
    obtain ⟨l', hl', hselection, horigins⟩ := ih
    refine ⟨{ e with selection := s } :: l', ?_, congrArg (s :: ·) hselection,
      congrArg (e.origins :: ·) horigins⟩
    rw [List.mapM_cons, he, Fault.ok_bind, hl']
    rfl

/-- Entries with numbers of their own, from `n` on. -/
def number (n : ℕ) (items : List Selection) : List Heir :=
  (items.zipIdx n).map fun entry => ⟨entry.1, [entry.2]⟩

theorem map_selection_number (n : ℕ) : (number n items).map selection = items := by
  unfold number
  rw [List.map_map]
  exact List.zipIdx_map_fst n items

theorem flatMap_origins_number (n : ℕ) : (number n items).flatMap origins = List.range' n items.length := by
  unfold number
  rw [List.flatMap_map, ← List.zipIdx_map_snd, ← List.map_eq_flatMap]

theorem exists_of_mem_number {n : ℕ} (he : e ∈ number n items) : ∃ o, e.origins = [o] := by
  obtain ⟨entry, -, rfl⟩ := List.mem_map.1 he
  exact ⟨entry.2, rfl⟩

end Heir

/-! ## A test that cannot fail -/

/-- Joining overlapping neighbours comes to the same where a test could fail. -/
theorem Cover.join_overlaps (c : Cover) (items : List Selection) :
    join (fun a b => (pure (a.overlaps b) : Except Fault Bool)) c items = .ok (c.merge items) := by
  induction items generalizing c with
  | nil => rfl
  | cons s items ih =>
    rw [join, Fault.pure_eq_ok, Fault.ok_bind, merge_cons]
    split
    · exact ih _
    · rw [ih, Fault.ok_bind]
      rfl

theorem Selections.mergeBy_overlaps (g : Selections) :
    g.mergeBy (fun a b => (pure (a.overlaps b) : Except Fault Bool)) = .ok g.mergeOverlapping := by
  obtain ⟨items, main⟩ := g
  cases items with
  | nil => rfl
  | cons s items =>
    rw [mergeOverlapping_cons, mergeBy, Cover.joinAll, Cover.join_overlaps, Fault.ok_bind]
    rfl

/-- Selections can be joined as long as the test answers for what joining leads to. -/
theorem Cover.exists_join_eq_ok {p : Selection → Prop} {test : Selection → Selection → Except Fault Bool}
    (hp : ∀ a b, p a → p b → p (a.cover b)) (htest : ∀ a b, p a → p b → ∃ r, test a b = .ok r) {c : Cover}
    {items : List Selection} (hc : p c.selection) (h : ∀ s ∈ items, p s) :
    ∃ covers, join test c items = .ok covers := by
  induction items generalizing c with
  | nil => exact ⟨[c], rfl⟩
  | cons s items ih =>
    obtain ⟨hs, h⟩ := List.forall_mem_cons.1 h
    obtain ⟨r, hr⟩ := htest c.selection s hc hs
    rw [join, hr, Fault.ok_bind]
    cases r with
    | true => exact ih (c := ⟨c.selection.cover s, c.size + 1⟩) (hp _ _ hc hs) h
    | false =>
      obtain ⟨covers, hcovers⟩ := ih (c := ⟨s, 1⟩) hs h
      refine ⟨c :: covers, ?_⟩
      rw [if_neg (by simp), hcovers]
      rfl

/-- At positions of a text, selections can be merged with what follows them there. -/
theorem Selections.exists_mergeConsecutive_eq_ok {g : Selections} {t : Text} (hs : t.size < Text.capacity)
    (h : ∀ s ∈ g.items, s.ValidIn t) : ∃ g', g.mergeConsecutive t = .ok g' := by
  obtain ⟨items, main⟩ := g
  unfold mergeConsecutive mergeBy
  cases items with
  | nil => exact ⟨_, rfl⟩
  | cons s items =>
    obtain ⟨hfirst, hrest⟩ := List.forall_mem_cons.1 h
    have htest (a b : Selection) (ha : a.ValidIn t) (_ : b.ValidIn t) :
        ∃ r, (do return decide (b.low ≤ (← t.nextCoord a.high)) : Except Fault Bool) = .ok r := by
      obtain ⟨i, hi, hposition⟩ := Text.valid_iff.1 ha.high
      rw [hposition, Text.nextCoord_position hs hi]
      exact ⟨_, rfl⟩
    obtain ⟨covers, hcovers⟩ :=
      Cover.exists_join_eq_ok (c := ⟨s, 1⟩) (fun _ _ => Selection.ValidIn.cover) htest hfirst hrest
    rw [Cover.joinAll, hcovers]
    exact ⟨_, rfl⟩

/-! ## Entries and the chosen one -/

/-- The entries of a list, the number of the next one, and the numbers of the entry that was chosen to be
main. -/
structure Ancestry where
  entries : List Heir
  next : ℕ
  chosen : List ℕ
  deriving DecidableEq, Repr, Inhabited

namespace Ancestry

/-- The selections of the entries. -/
def selections (f : Ancestry) : List Selection := f.entries.map Heir.selection

/-- The entry at an index is chosen. -/
def choose (f : Ancestry) (i : ℕ) : Ancestry := { f with chosen := (f.entries[i]?.map Heir.origins).getD [] }

/-- The entries that a list begins with, its main one chosen. -/
def start (g : Selections) : Ancestry :=
  choose { entries := Heir.number 0 g.items, next := g.items.length, chosen := [] } g.main

/-- Entries that take in their neighbours. -/
def merge (test : Selection → Selection → Except Fault Bool) (f : Ancestry) : Except Fault Ancestry := do
  return { f with entries := ← Heir.joinAll test f.entries }

def mergeOverlapping (f : Ancestry) : Except Fault Ancestry := f.merge fun a b => pure (a.overlaps b)

def mergeConsecutive (t : Text) (f : Ancestry) : Except Fault Ancestry :=
  f.merge fun a b => do return decide (b.low ≤ (← t.nextCoord a.high))

/-- Entries in another order. -/
def sort (f : Ancestry) : Ancestry := { f with entries := Heir.sort f.entries }

def normalize (f : Ancestry) : Except Fault Ancestry := f.sort.mergeOverlapping

/-- Entries whose selections are changed one by one. -/
def changeAll (φ : Selection → Except Fault Selection) (f : Ancestry) : Except Fault Ancestry := do
  return { f with entries := ← f.entries.mapM (Heir.changed φ) }

/-- New entries at the end. -/
def append (f : Ancestry) (items : List Selection) : Ancestry :=
  { f with
    entries := f.entries ++ Heir.number f.next items
    next := f.next + items.length }

/-- Entries moved across a run. -/
def sweep (run : Run) (f : Ancestry) : Except Fault Ancestry := do
  return { f with entries := ← run.sweep f.entries }

/-- Entries moved across a stretch of the log, with merging before the first run and after every run. -/
def sweepMerging (log : List Change) (f : Ancestry) : Except Fault Ancestry := do
  (splitRuns log).foldlM (fun f run => do (← f.sweep run).mergeOverlapping) (← f.normalize)

/-- The entries of a list at the current timestamp of its buffer. -/
def updateMerging (l : SelectionList) (b : Buffer) (f : Ancestry) : Except Fault Ancestry := do
  let log ← b.logSince l.timestamp
  if l.timestamp = b.timestamp then return f
  let f ← f.sweepMerging log
  (← f.changeAll fun s => return s.clamp b.text).mergeOverlapping

/-- An entry is taken out. If it is the chosen one, the one that comes to stand in its place is chosen
instead, or the last. -/
def remove (f : Ancestry) (i : ℕ) : Ancestry :=
  if f.chosen ⊆ (f.entries[i]?.map Heir.origins).getD [] then
    choose { f with entries := f.entries.eraseIdx i } (min i (f.entries.length - 2))
  else { f with entries := f.entries.eraseIdx i }

/-- The entries of a list, with different numbers. -/
structure Lists (f : Ancestry) (items : List Selection) : Prop where
  items : items = f.selections
  named : ∀ e ∈ f.entries, e.origins ≠ []
  distinct : (f.entries.flatMap Heir.origins).Nodup
  below : ∀ o ∈ f.entries.flatMap Heir.origins, o < f.next

/-- **The main entry descends from the chosen one.** -/
structure Traces (f : Ancestry) (g : Selections) : Prop where
  lists : f.Lists g.items
  chosen : f.chosen ≠ []
  main : ∃ e, f.entries[g.main]? = some e ∧ f.chosen ⊆ e.origins

variable {f f' : Ancestry} {g g' : Selections} {i : ℕ} {items : List Selection} {s : Selection}

namespace Lists

theorem length_entries (h : f.Lists items) : f.entries.length = items.length := by
  rw [h.items, selections, List.length_map]

theorem sublist {l : List Heir} (h : f.Lists items) (hl : l.Sublist f.entries) :
    ({ f with entries := l } : Ancestry).Lists (l.map Heir.selection) where
  items := rfl
  named e he := h.named e (hl.subset he)
  distinct := h.distinct.sublist (hl.flatMap Heir.origins)
  below o ho := h.below o ((hl.flatMap Heir.origins).subset ho)

/-- No two entries have a number in common. -/
theorem eq_of_mem (h : f.Lists items) {j o : ℕ} {e e' : Heir} (he : f.entries[i]? = some e)
    (he' : f.entries[j]? = some e') (ho : o ∈ e.origins) (ho' : o ∈ e'.origins) : i = j := by
  obtain ⟨hi, rfl⟩ := List.getElem?_eq_some_iff.1 he
  obtain ⟨hj, rfl⟩ := List.getElem?_eq_some_iff.1 he'
  have hdisjoint := List.pairwise_iff_getElem.1 (List.nodup_flatMap.1 h.distinct).2
  rcases Nat.lt_trichotomy i j with hlt | heq | hlt
  · exact absurd ho' (hdisjoint i j hi hj hlt ho)
  · exact heq
  · exact absurd ho (hdisjoint j i hj hi hlt ho')

/-- Any entry can be chosen. -/
theorem choose (h : f.Lists items) (hi : i < items.length) : (f.choose i).Traces ⟨items, i⟩ := by
  have hi' : i < f.entries.length := h.length_entries ▸ hi
  have hchosen : (f.choose i).chosen = f.entries[i].origins := by
    unfold Ancestry.choose
    rw [List.getElem?_eq_getElem hi']
    rfl
  refine ⟨⟨h.items, h.named, h.distinct, h.below⟩, ?_, f.entries[i], List.getElem?_eq_getElem hi', ?_⟩
  · rw [hchosen]
    exact h.named _ (List.getElem_mem hi')
  · rw [hchosen]
    exact List.Subset.refl _

/-- Entries that were moved about or put together. -/
theorem of_perm {l : List Heir} (h : f.Lists items)
    (hl : (l.flatMap Heir.origins).Perm (f.entries.flatMap Heir.origins))
    (hnamed : ∀ e ∈ l, ∃ e' ∈ f.entries, e'.origins ⊆ e.origins) :
    ({ f with entries := l } : Ancestry).Lists (l.map Heir.selection) where
  items := rfl
  named e he := by
    obtain ⟨e', he', hsub⟩ := hnamed e he
    obtain ⟨o, ho⟩ := List.exists_mem_of_ne_nil _ (h.named e' he')
    exact List.ne_nil_of_mem (hsub ho)
  distinct := hl.nodup_iff.2 h.distinct
  below o ho := h.below o (hl.mem_iff.1 ho)

end Lists

/-- What a list begins with. -/
theorem traces_start (h : g.main < g.items.length) : (start g).Traces g := by
  have hlists : ({ entries := Heir.number 0 g.items, next := g.items.length, chosen := [] } : Ancestry).Lists
      g.items := by
    refine ⟨(Heir.map_selection_number 0).symm, fun e he => ?_, ?_, fun o ho => ?_⟩
    · obtain ⟨o, ho⟩ := Heir.exists_of_mem_number he
      exact ho ▸ List.cons_ne_nil o []
    · rw [Heir.flatMap_origins_number]
      exact List.nodup_range'
    · rw [Heir.flatMap_origins_number, List.mem_range'_1] at ho
      exact ho.2.trans_eq (Nat.zero_add _)
  exact hlists.choose h

/-! ## What leaves the choice alone -/

section

variable {test : Selection → Selection → Except Fault Bool}

theorem chosen_merge (h : f.merge test = .ok f') : f'.chosen = f.chosen := by
  unfold merge at h
  rw [Fault.bind_eq_ok] at h
  obtain ⟨_, -, h⟩ := h
  cases h
  rfl

theorem chosen_sweep {run : Run} (h : f.sweep run = .ok f') : f'.chosen = f.chosen := by
  unfold sweep at h
  rw [Fault.bind_eq_ok] at h
  obtain ⟨_, -, h⟩ := h
  cases h
  rfl

theorem chosen_changeAll {φ : Selection → Except Fault Selection} (h : f.changeAll φ = .ok f') :
    f'.chosen = f.chosen := by
  unfold changeAll at h
  rw [Fault.bind_eq_ok] at h
  obtain ⟨_, -, h⟩ := h
  cases h
  rfl

theorem chosen_sweepMerging {log : List Change} (h : f.sweepMerging log = .ok f') : f'.chosen = f.chosen := by
  unfold sweepMerging at h
  rw [Fault.bind_eq_ok] at h
  obtain ⟨f₁, hf₁, h⟩ := h
  have hfirst : f₁.chosen = f.chosen := chosen_merge (f := f.sort) hf₁
  rw [← hfirst]
  generalize splitRuns log = runs at h
  clear hfirst hf₁
  induction runs generalizing f₁ with
  | nil =>
    cases h
    rfl
  | cons run runs ih =>
    rw [List.foldlM_cons, Fault.bind_eq_ok] at h
    obtain ⟨f₂, hf₂, h⟩ := h
    rw [Fault.bind_eq_ok] at hf₂
    obtain ⟨moved, hmoved, hf₂⟩ := hf₂
    exact ((ih f₂ h).trans (chosen_merge hf₂)).trans (chosen_sweep hmoved)

theorem chosen_updateMerging {l : SelectionList} {b : Buffer} (h : f.updateMerging l b = .ok f') :
    f'.chosen = f.chosen := by
  unfold updateMerging at h
  rw [Fault.bind_eq_ok] at h
  obtain ⟨_, -, h⟩ := h
  split at h
  · cases h
    rfl
  · rw [Fault.bind_eq_ok] at h
    obtain ⟨f₁, hf₁, h⟩ := h
    rw [Fault.bind_eq_ok] at h
    obtain ⟨f₂, hf₂, h⟩ := h
    exact ((chosen_merge h).trans (chosen_changeAll hf₂)).trans (chosen_sweepMerging hf₁)

end

/-! ## The main entry -/

namespace Traces

theorem main_lt (h : f.Traces g) : g.main < g.items.length := by
  obtain ⟨e, he, -⟩ := h.main
  exact h.lists.length_entries ▸ (List.getElem?_eq_some_iff.1 he).1

/-- **Only the main entry** has a number of the chosen one. -/
theorem eq_main (h : f.Traces g) {e : Heir} {o : ℕ} (he : f.entries[i]? = some e) (ho : o ∈ f.chosen)
    (hmem : o ∈ e.origins) : i = g.main := by
  obtain ⟨e', he', hsub⟩ := h.main
  exact h.lists.eq_of_mem he he' hmem (hsub ho)

/-- Entries that were moved about or put together, if the main one is followed. -/
theorem of_perm (h : f.Traces g) {l : List Heir} (hitems : g'.items = l.map Heir.selection)
    (hl : (l.flatMap Heir.origins).Perm (f.entries.flatMap Heir.origins))
    (hnamed : ∀ e ∈ l, ∃ e' ∈ f.entries, e'.origins ⊆ e.origins)
    (hmain : ∀ e, f.entries[g.main]? = some e → ∃ e', l[g'.main]? = some e' ∧ e.origins ⊆ e'.origins) :
    ({ f with entries := l } : Ancestry).Traces g' := by
  refine ⟨hitems ▸ h.lists.of_perm hl hnamed, h.chosen, ?_⟩
  obtain ⟨e, he, hsub⟩ := h.main
  obtain ⟨e', he', hsub'⟩ := hmain e he
  exact ⟨e', he', List.Subset.trans hsub hsub'⟩

/-- Entries with other selections, each with the numbers that it had. -/
theorem of_origins (h : f.Traces g) {l : List Heir} (horigins : l.map Heir.origins = f.entries.map Heir.origins) :
    ({ f with entries := l } : Ancestry).Traces { g with items := l.map Heir.selection } := by
  refine h.of_perm rfl ?_ (fun e he => ?_) fun e he => ?_
  · rw [List.flatMap_def, List.flatMap_def, horigins]
  · have hmem := List.mem_map_of_mem (f := Heir.origins) he
    rw [horigins] at hmem
    obtain ⟨e', he', hsame⟩ := List.mem_map.1 hmem
    exact ⟨e', he', hsame ▸ List.Subset.refl _⟩
  · have hsame := congrArg (·[g.main]?) horigins
    simp only [List.getElem?_map, he, Option.map_some] at hsame
    obtain ⟨e', he', horigins'⟩ := Option.map_eq_some_iff.1 hsame
    exact ⟨e', he', horigins' ▸ List.Subset.refl _⟩

/-- **Selections that are changed one by one**, and their entries with them. -/
theorem changeAll {φ : Selection → Except Fault Selection} (h : f.Traces g) (hφ : g.items.mapM φ = .ok items) :
    ∃ f', f.changeAll φ = .ok f' ∧ f'.Traces { g with items } := by
  rw [h.lists.items, selections, Fault.mapM_eq_ok_iff, List.forall₂_map_left_iff] at hφ
  have hchanged : List.Forall₂ (fun (e : Heir) s => e.changed φ = .ok { e with selection := s }) f.entries items :=
    hφ.imp fun e s hs => by rw [Heir.changed, hs]; rfl
  obtain ⟨l, hl, rfl, horigins⟩ := Heir.exists_mapM hchanged
  refine ⟨{ f with entries := l }, ?_, h.of_origins horigins⟩
  unfold Ancestry.changeAll
  rw [hl]
  rfl

theorem clamp (h : f.Traces g) (t : Text) :
    ∃ f', f.changeAll (fun s => return s.clamp t) = .ok f' ∧ f'.Traces (g.clamp t) :=
  h.changeAll (Fault.mapM_eq_ok fun _ _ => rfl)

/-- **Selections that are moved across a run**, and their entries with them. -/
theorem sweep {run : Run} (h : f.Traces g) (hr : run.sweep g.items = .ok items) :
    ∃ f', f.sweep run = .ok f' ∧ f'.Traces { g with items } := by
  rw [h.lists.items, selections, Run.sweep_map Heir.hom_selection, Fault.bind_eq_ok] at hr
  obtain ⟨l, hl, hitems⟩ := hr
  cases hitems
  refine ⟨{ f with entries := l }, ?_, h.of_origins (Run.map_of_sweep (fun _ _ _ => rfl) hl)⟩
  unfold Ancestry.sweep
  rw [hl]
  rfl

theorem append (h : f.Traces g) (items : List Selection) :
    (f.append items).Traces { g with items := g.items ++ items } := by
  have hflat : (f.append items).entries.flatMap Heir.origins =
      f.entries.flatMap Heir.origins ++ List.range' f.next items.length := by
    rw [Ancestry.append, List.flatMap_append, Heir.flatMap_origins_number]
  refine ⟨⟨?_, fun e he => ?_, ?_, fun o ho => ?_⟩, h.chosen, ?_⟩
  · rw [selections, Ancestry.append, List.map_append, Heir.map_selection_number, h.lists.items]
    rfl
  · rcases List.mem_append.1 he with he | he
    · exact h.lists.named e he
    · obtain ⟨o, ho⟩ := Heir.exists_of_mem_number he
      exact ho ▸ List.cons_ne_nil o []
  · -- the new numbers are above all those given out before
    rw [hflat]
    refine List.Nodup.append h.lists.distinct List.nodup_range' fun o ho hnew => ?_
    have hbelow := h.lists.below o ho
    exact absurd (List.mem_range'_1.1 hnew).1 (Nat.not_le.2 hbelow)
  · rw [hflat, List.mem_append, List.mem_range'_1] at ho
    rcases ho with ho | ⟨-, ho⟩
    · exact (h.lists.below o ho).trans_le (Nat.le_add_right _ _)
    · exact ho
  · obtain ⟨e, he, hsub⟩ := h.main
    exact ⟨e, List.getElem?_append_left (List.getElem?_eq_some_iff.1 he).1 ▸ he, hsub⟩

/-- **Sorting** moves the main entry along. -/
theorem sort (h : f.Traces g) : f.sort.Traces g.sort := by
  have hitems : g.sort.items = (Heir.sort f.entries).map Heir.selection := by
    rw [Selections.items_sort, h.lists.items]
    exact Eq.symm (List.map_mergeSort (f := Heir.selection) fun _ _ _ _ => rfl)
  have hmain : g.sort.main = (f.entries.zipIdx.mergeSort fun a b => a.1.selection.le b.1.selection).findIdx
      fun entry => entry.2 == g.main := by
    have hindexed : g.items.zipIdx.mergeSort (fun a b => a.1.le b.1) =
        (f.entries.zipIdx.mergeSort fun a b => a.1.selection.le b.1.selection).map
          (Prod.map Heir.selection id) := by
      rw [h.lists.items, selections, List.zipIdx_map]
      exact Eq.symm (List.map_mergeSort (f := Prod.map Heir.selection id) fun _ _ _ _ => rfl)
    show (g.items.zipIdx.mergeSort fun a b => a.1.le b.1).findIdx _ = _
    rw [hindexed, List.findIdx_map]
    rfl
  have hperm := List.mergeSort_perm f.entries fun a b => a.selection.le b.selection
  refine h.of_perm hitems (hperm.flatMap_right _) (fun e he => ?_) fun e he => ?_
  · exact ⟨e, hperm.mem_iff.1 he, List.Subset.refl _⟩
  · refine ⟨e, ?_, List.Subset.refl _⟩
    rw [hmain]
    exact getElem?_mergeSort he

/-- **Merging** keeps the main entry in the one that took it in. -/
theorem mergeBy {test : Selection → Selection → Except Fault Bool} (h : f.Traces g)
    (hg : g.mergeBy test = .ok g') : ∃ f', f.merge test = .ok f' ∧ f'.Traces g' := by
  unfold Selections.mergeBy at hg
  rw [Fault.bind_eq_ok] at hg
  obtain ⟨covers, hcovers, hg⟩ := hg
  cases hg
  rw [h.lists.items, selections] at hcovers
  cases hentries : f.entries with
  | nil =>
    obtain ⟨e, he, -⟩ := h.main
    rw [hentries] at he
    cases he
  | cons first l =>
    rw [hentries] at hcovers
    obtain ⟨l', hl', hmap, horigins, hmem, hfirst, hrest⟩ :=
      Heir.exists_join (h := first) (c := ⟨first.selection, 1⟩) rfl hcovers
    refine ⟨{ f with entries := l' }, ?_, h.of_perm hmap.symm ?_ (fun e he => ?_) fun e he => ?_⟩
    · unfold merge
      rw [hentries, Heir.joinAll, hl']
      rfl
    · rw [horigins, hentries]
      rfl
    · rw [hentries]
      exact hmem e he
    · rw [hentries] at he
      cases hmain : g.main with
      | zero =>
        rw [hmain] at he
        cases he
        exact hfirst 0 Nat.one_pos
      | succ i =>
        rw [hmain] at he
        have hmoved := hrest i e he
        rw [Nat.add_comm 1 i] at hmoved
        exact hmoved

theorem mergeOverlapping (h : f.Traces g) :
    ∃ f', f.mergeOverlapping = .ok f' ∧ f'.Traces g.mergeOverlapping :=
  h.mergeBy g.mergeBy_overlaps

theorem normalize (h : f.Traces g) : ∃ f', f.normalize = .ok f' ∧ f'.Traces g.normalize :=
  h.sort.mergeOverlapping

theorem choose (h : f.Traces g) (hi : i < g.items.length) : (f.choose i).Traces { g with main := i } :=
  h.lists.choose hi

/-- Which entry is the main one is told by the numbers of the chosen one. -/
theorem subset_iff (h : f.Traces g) (hi : i < f.entries.length) :
    f.chosen ⊆ f.entries[i].origins ↔ i = g.main := by
  constructor
  · intro hsub
    obtain ⟨o, ho⟩ := List.exists_mem_of_ne_nil _ h.chosen
    exact h.eq_main (List.getElem?_eq_getElem hi) ho (hsub ho)
  · rintro rfl
    obtain ⟨e, he, hsub⟩ := h.main
    rw [List.getElem?_eq_getElem hi, Option.some.injEq] at he
    exact he ▸ hsub

/-- **A removal** keeps the main entry if it is another one. -/
theorem remove (h : f.Traces g) (hr : g.remove i = .ok (s, g')) : (f.remove i).Traces g' := by
  unfold Selections.remove Selections.item at hr
  simp only [Fault.bind_eq_ok] at hr
  obtain ⟨_, hlen, removed, hitem, hr⟩ := hr
  cases hr
  have hlen := Fault.unless_eq_ok_iff.1 hlen
  have hi : i < g.items.length := by
    by_contra hge
    rw [List.getElem?_eq_none (Nat.not_lt.1 hge)] at hitem
    cases hitem
  have hi' : i < f.entries.length := h.lists.length_entries ▸ hi
  have hlists := h.lists.sublist (List.eraseIdx_sublist f.entries i)
  rw [← List.eraseIdx_map] at hlists
  replace hlists : ({ f with entries := f.entries.eraseIdx i } : Ancestry).Lists (g.items.eraseIdx i) := by
    rw [h.lists.items]
    exact hlists
  have hlength := List.length_eraseIdx_of_lt hi
  have hmain := h.main_lt
  unfold Ancestry.remove
  rw [List.getElem?_eq_getElem hi', Option.map_some, Option.getD_some, h.lists.length_entries, hlength]
  split
  · -- the main entry is gone, and another one is at its index
    have hsame : i = g.main := (h.subset_iff hi').1 ‹_›
    have hnext : (if i < g.main ∨ g.main = g.items.length - 1 then g.main - 1 else g.main) =
        min i (g.items.length - 2) := by
      split <;> omega
    rw [hnext]
    exact hlists.choose (by omega)
  · have hother : i ≠ g.main := fun hsame => ‹¬_› ((h.subset_iff hi').2 hsame)
    refine ⟨hlists, h.chosen, ?_⟩
    obtain ⟨e, he, hsub⟩ := h.main
    refine ⟨e, ?_, hsub⟩
    rcases Nat.lt_or_gt_of_ne hother with hlt | hlt
    · rw [if_pos (.inl hlt)]
      show (f.entries.eraseIdx i)[g.main - 1]? = some e
      rw [List.getElem?_eraseIdx_of_ge (Nat.le_sub_one_of_lt hlt), Nat.sub_add_cancel (Nat.zero_lt_of_lt hlt)]
      exact he
    · rw [if_neg (by omega)]
      show (f.entries.eraseIdx i)[g.main]? = some e
      rw [List.getElem?_eraseIdx_of_lt hlt]
      exact he

theorem foldlM_sweep {runs : List Run} (h : f.Traces g)
    (hr : runs.foldlM (fun s run => do
        return { s with items := ← run.sweep s.items : Selections }.mergeOverlapping) g = .ok g') :
    ∃ f', runs.foldlM (fun f run => do (← f.sweep run).mergeOverlapping) f = .ok f' ∧ f'.Traces g' := by
  induction runs generalizing f g with
  | nil =>
    cases hr
    exact ⟨f, rfl, h⟩
  | cons run runs ih =>
    rw [List.foldlM_cons, Fault.bind_eq_ok] at hr
    obtain ⟨next, hnext, hr⟩ := hr
    rw [Fault.bind_eq_ok] at hnext
    obtain ⟨items, hitems, hnext⟩ := hnext
    cases hnext
    obtain ⟨moved, hmoved, h₁⟩ := h.sweep hitems
    obtain ⟨f₁, hf₁, h₁⟩ := h₁.mergeOverlapping
    obtain ⟨f', hf', h'⟩ := ih h₁ hr
    refine ⟨f', ?_, h'⟩
    rw [List.foldlM_cons, hmoved, Fault.ok_bind, hf₁]
    exact hf'

/-- **Catching up with merging.** -/
theorem updateMerging {l l' : SelectionList} {b : Buffer} (h : f.Traces l.group)
    (hu : l.updateMerging b = .ok l') : ∃ f', f.updateMerging l b = .ok f' ∧ f'.Traces l'.group := by
  unfold SelectionList.updateMerging at hu
  rw [Fault.bind_eq_ok] at hu
  obtain ⟨_, -, hu⟩ := hu
  rw [Fault.bind_eq_ok] at hu
  obtain ⟨log, hlog, hu⟩ := hu
  unfold Ancestry.updateMerging
  rw [hlog, Fault.ok_bind]
  split at hu
  · cases hu
    exact ⟨f, if_pos ‹_›, h⟩
  · rw [if_neg ‹_›]
    rw [Fault.bind_eq_ok] at hu
    obtain ⟨group, hgroup, hu⟩ := hu
    cases hu
    obtain ⟨f₁, hf₁, h₁⟩ := h.normalize
    obtain ⟨f₂, hf₂, h₂⟩ := h₁.foldlM_sweep hgroup
    obtain ⟨f₃, hf₃, h₃⟩ := h₂.clamp b.text
    obtain ⟨f₄, hf₄, h₄⟩ := h₃.mergeOverlapping
    refine ⟨f₄, ?_, h₄⟩
    unfold sweepMerging
    rw [hf₁, Fault.ok_bind, hf₂, Fault.ok_bind, hf₃]
    exact hf₄

end Traces

end Ancestry

end Caret
