import Mathlib.Data.Char
import Mathlib.Data.List.Count
import Mathlib.Data.List.Lex
import Caret.Proofs.Fault
import Caret.WordIndex

/-!
# Counts of words

Counts are kept sorted, each word once and none without an occurrence. That leaves a single way to
count given words, whichever additions and removals led there.

* `Word.before_iff_lt`: the order of words by bytes is the order of lists of characters.
* `WordCounts.Tallies`: the counts of given words, with one lemma for each operation.
* `WordCounts.Tallies.unique`: given words have only one tally.
-/

namespace Caret

theorem Word.before_iff_lt {v w : Word} : v.before w = true ↔ v < w := by
  induction v generalizing w with
  | nil => cases w <;> simp [before]
  | cons a v ih =>
    cases w with
    | nil => simp [before]
    | cons b w =>
      have hlt : a.toNat < b.toNat ↔ a < b := Iff.rfl
      rw [before, List.cons_lt_cons_iff, Bool.or_eq_true, Bool.and_eq_true, decide_eq_true_iff,
        beq_iff_eq, ih, hlt]

namespace WordCounts

variable {counts counts' : WordCounts} {v w : Word} {ws ws' : List Word} {n : ℕ}

@[simp] theorem count_nil (w : Word) : count [] w = 0 := rfl

theorem count_cons (v : Word) (n : ℕ) (counts : WordCounts) (w : Word) :
    count ((v, n) :: counts) w = if w = v then n else counts.count w := by
  unfold count
  rw [List.lookup_cons]
  by_cases h : w = v
  · rw [if_pos h, beq_iff_eq.2 h]
    rfl
  · rw [if_neg h, beq_eq_false_iff_ne.2 h]

/-- A word in front of all others is counted by none of them. -/
theorem count_eq_zero (h : ∀ e ∈ counts, v < e.1) : counts.count v = 0 := by
  induction counts with
  | nil => rfl
  | cons e counts ih =>
    obtain ⟨hlt, h⟩ := List.forall_mem_cons.1 h
    rw [count_cons, if_neg hlt.ne, ih h]

/-- The words come in order, each of them once, and none of them without an occurrence. -/
structure Canonical (counts : WordCounts) : Prop where
  sorted : counts.Pairwise fun a b => a.1 < b.1
  pos : ∀ e ∈ counts, 0 < e.2

theorem canonical_cons :
    Canonical ((v, n) :: counts) ↔ 0 < n ∧ (∀ e ∈ counts, v < e.1) ∧ counts.Canonical := by
  constructor
  · rintro ⟨hs, hpos⟩
    obtain ⟨hlt, hs⟩ := List.pairwise_cons.1 hs
    obtain ⟨hn, hpos⟩ := List.forall_mem_cons.1 hpos
    exact ⟨hn, hlt, hs, hpos⟩
  · rintro ⟨hn, hlt, hs, hpos⟩
    exact ⟨List.pairwise_cons.2 ⟨hlt, hs⟩, List.forall_mem_cons.2 ⟨hn, hpos⟩⟩

theorem Canonical.mem_iff (h : counts.Canonical) : (w, n) ∈ counts ↔ 0 < n ∧ counts.count w = n := by
  induction counts with
  | nil =>
    rw [count_nil]
    exact ⟨fun h => absurd h List.not_mem_nil, fun ⟨h, h'⟩ => absurd h' h.ne⟩
  | cons e counts ih =>
    obtain ⟨v, k⟩ := e
    obtain ⟨hk, hlt, h⟩ := canonical_cons.1 h
    rw [List.mem_cons, count_cons, Prod.mk.injEq]
    by_cases hw : w = v
    · -- the first word does not come again
      subst hw
      have hnot : (w, n) ∉ counts := fun h => lt_irrefl w (hlt _ h)
      rw [if_pos rfl]
      constructor
      · rintro (⟨-, rfl⟩ | h)
        · exact ⟨hk, rfl⟩
        · exact absurd h hnot
      · rintro ⟨-, rfl⟩
        exact .inl ⟨rfl, rfl⟩
    · rw [if_neg hw, ← ih h]
      exact ⟨fun h => h.resolve_left fun h => hw h.1, .inr⟩

/-- Counts in canonical form are told apart by the number of some word. -/
theorem Canonical.ext (h : counts.Canonical) (h' : counts'.Canonical)
    (hcount : ∀ w, counts.count w = counts'.count w) : counts = counts' := by
  have hnodup : ∀ {counts : WordCounts}, counts.Canonical → counts.Nodup :=
    fun h => h.sorted.imp fun hlt heq => absurd (congrArg Prod.fst heq) hlt.ne
  have hperm : counts.Perm counts' := by
    rw [List.perm_ext_iff_of_nodup (hnodup h) (hnodup h')]
    rintro ⟨w, n⟩
    rw [h.mem_iff, h'.mem_iff, hcount]
  exact hperm.eq_of_pairwise (fun a b _ _ hab hba => absurd hba hab.asymm) h.sorted h'.sorted

/-! ## One word more -/

theorem mem_add {e : Word × ℕ} (h : e ∈ add w counts) : e.1 = w ∨ e ∈ counts := by
  induction counts with
  | nil => exact .inl (by rw [List.mem_singleton.1 h])
  | cons f counts ih =>
    obtain ⟨v, n⟩ := f
    rw [add] at h
    split at h
    · rename_i hv
      rcases List.mem_cons.1 h with rfl | h
      · exact .inl hv
      · exact .inr (List.mem_cons_of_mem _ h)
    · split at h
      · rcases List.mem_cons.1 h with rfl | h
        · exact .inl rfl
        · exact .inr h
      · rcases List.mem_cons.1 h with rfl | h
        · exact .inr List.mem_cons_self
        · exact (ih h).imp_right (List.mem_cons_of_mem _)

theorem Canonical.add (h : counts.Canonical) (w : Word) :
    (add w counts).Canonical ∧
      ∀ v, (WordCounts.add w counts).count v = counts.count v + if v = w then 1 else 0 := by
  induction counts with
  | nil =>
    refine ⟨canonical_cons.2 ⟨Nat.one_pos, by simp, h⟩, fun v => ?_⟩
    rw [WordCounts.add, count_cons, count_nil, Nat.zero_add]
  | cons e counts ih =>
    obtain ⟨u, n⟩ := e
    have hall := h
    obtain ⟨hn, hlt, h⟩ := canonical_cons.1 h
    rw [WordCounts.add]
    by_cases huw : u = w
    · subst huw
      rw [if_pos rfl]
      refine ⟨canonical_cons.2 ⟨Nat.succ_pos n, hlt, h⟩, fun v => ?_⟩
      rw [count_cons, count_cons]
      split <;> rfl
    rw [if_neg huw]
    by_cases hbefore : w.before u = true
    · -- a word in front of the first one has not been counted before
      rw [if_pos hbefore]
      have hwu : w < u := Word.before_iff_lt.1 hbefore
      have hfront : ∀ e ∈ (u, n) :: counts, w < e.1 :=
        List.forall_mem_cons.2 ⟨hwu, fun e he => hwu.trans (hlt e he)⟩
      refine ⟨canonical_cons.2 ⟨Nat.one_pos, hfront, hall⟩, fun v => ?_⟩
      rw [count_cons]
      split
      · rename_i hvw
        rw [hvw, count_eq_zero hfront]
      · rfl
    · rw [if_neg hbefore]
      have huw' : u < w := by
        rcases lt_trichotomy u w with hlt | heq | hgt
        · exact hlt
        · exact absurd heq huw
        · exact absurd (Word.before_iff_lt.2 hgt) hbefore
      obtain ⟨hcanonical, hcount⟩ := ih h
      refine ⟨canonical_cons.2 ⟨hn, fun e he => ?_, hcanonical⟩, fun v => ?_⟩
      · rcases mem_add he with hw | he
        · rw [hw]
          exact huw'
        · exact hlt e he
      · rw [count_cons, count_cons, hcount]
        split
        · rename_i hvu
          rw [hvu, if_neg huw, Nat.add_zero]
        · rfl

/-! ## One word less -/

/-- **A word that is counted can be taken out.** -/
theorem Canonical.exists_remove (h : counts.Canonical) (hw : 0 < counts.count w) :
    ∃ counts', remove w counts = .ok counts' ∧ counts'.Canonical ∧
      (∀ e ∈ counts', ∃ e' ∈ counts, e'.1 = e.1) ∧
      ∀ v, counts'.count v = counts.count v - if v = w then 1 else 0 := by
  induction counts with
  | nil => exact absurd hw (lt_irrefl 0)
  | cons e counts ih =>
    obtain ⟨u, n⟩ := e
    obtain ⟨hn, hlt, h⟩ := canonical_cons.1 h
    have hmem : ∀ e ∈ counts, ∃ e' ∈ (u, n) :: counts, e'.1 = e.1 :=
      fun e he => ⟨e, List.mem_cons_of_mem _ he, rfl⟩
    rw [remove]
    by_cases huw : u = w
    · subst huw
      rw [if_pos rfl]
      by_cases hone : n ≤ 1
      · -- the last occurrence takes the word along
        rw [if_pos hone]
        refine ⟨counts, rfl, h, hmem, fun v => ?_⟩
        rw [count_cons]
        split
        · rename_i hvu
          rw [hvu, count_eq_zero hlt]
          omega
        · rfl
      · rw [if_neg hone]
        have hn' : 0 < n - 1 := by omega
        refine ⟨_, rfl, canonical_cons.2 ⟨hn', hlt, h⟩,
          List.forall_mem_cons.2 ⟨⟨_, List.mem_cons_self, rfl⟩, hmem⟩, fun v => ?_⟩
        rw [count_cons, count_cons]
        split <;> rfl
    · have hcount : 0 < count counts w := by rwa [count_cons, if_neg (Ne.symm huw)] at hw
      obtain ⟨rest, hremove, hcanonical, hrest, hcounts⟩ := ih h hcount
      rw [if_neg huw, hremove, Fault.ok_bind]
      refine ⟨(u, n) :: rest, rfl, canonical_cons.2 ⟨hn, fun e he => ?_, hcanonical⟩,
        List.forall_mem_cons.2 ⟨⟨_, List.mem_cons_self, rfl⟩, fun e he => ?_⟩, fun v => ?_⟩
      · obtain ⟨e', he', heq⟩ := hrest e he
        rw [← heq]
        exact hlt e' he'
      · obtain ⟨e', he', heq⟩ := hrest e he
        exact ⟨e', List.mem_cons_of_mem _ he', heq⟩
      · rw [count_cons, count_cons, hcounts]
        split
        · rename_i hvu
          rw [hvu, if_neg huw, Nat.sub_zero]
        · rfl

/-! ## Tallies -/

/-- **The counts of given words**, in canonical form. -/
structure Tallies (counts : WordCounts) (ws : List Word) : Prop where
  canonical : counts.Canonical
  count : ∀ w, counts.count w = ws.count w

namespace Tallies

/-- **Given words have only one tally.** -/
theorem unique (h : counts.Tallies ws) (h' : counts'.Tallies ws) : counts = counts' :=
  h.canonical.ext h'.canonical fun w => (h.count w).trans (h'.count w).symm

theorem perm (h : counts.Tallies ws) (hp : ws.Perm ws') : counts.Tallies ws' :=
  ⟨h.canonical, fun w => (h.count w).trans (hp.count_eq w)⟩

theorem nil : Tallies [] [] := ⟨⟨.nil, by simp⟩, fun _ => rfl⟩

theorem add (h : counts.Tallies ws) (w : Word) : (add w counts).Tallies (w :: ws) := by
  obtain ⟨hcanonical, hcount⟩ := h.canonical.add w
  refine ⟨hcanonical, fun v => ?_⟩
  rw [hcount, h.count, List.count_cons]
  simp only [beq_iff_eq, eq_comm (a := v)]

theorem exists_remove (h : counts.Tallies (w :: ws)) :
    ∃ counts', remove w counts = .ok counts' ∧ counts'.Tallies ws := by
  have hw : 0 < counts.count w := by
    rw [h.count, List.count_cons_self]
    exact Nat.succ_pos _
  obtain ⟨counts', hremove, hcanonical, -, hcount⟩ := h.canonical.exists_remove hw
  refine ⟨counts', hremove, hcanonical, fun v => ?_⟩
  rw [hcount, h.count, List.count_cons]
  simp only [beq_iff_eq, eq_comm (a := v), Nat.add_sub_cancel]

theorem addAll (h : counts.Tallies ws) (ws' : List Word) :
    (counts.addAll ws').Tallies (ws ++ ws') := by
  induction ws' generalizing counts ws with
  | nil =>
    rw [List.append_nil]
    exact h
  | cons w ws' ih => exact (ih (h.add w)).perm List.perm_middle.symm

theorem exists_removeAll (h : counts.Tallies (ws' ++ ws)) :
    ∃ counts', counts.removeAll ws' = .ok counts' ∧ counts'.Tallies ws := by
  induction ws' generalizing counts with
  | nil => exact ⟨counts, rfl, h⟩
  | cons w ws' ih =>
    obtain ⟨rest, hremove, hrest⟩ := h.exists_remove
    obtain ⟨counts', hcounts, htally⟩ := ih hrest
    refine ⟨counts', ?_, htally⟩
    unfold removeAll
    rw [List.foldlM_cons, hremove, Fault.ok_bind]
    exact hcounts

/-- The words of further lines. -/
theorem addLines (h : counts.Tallies ws) (lines : List (List Word)) :
    (lines.foldl WordCounts.addAll counts).Tallies (ws ++ lines.flatten) := by
  induction lines generalizing counts ws with
  | nil =>
    rw [List.flatten_nil, List.append_nil]
    exact h
  | cons line lines ih =>
    rw [List.flatten_cons, ← List.append_assoc]
    exact ih (h.addAll line)

/-- The words of lines that go. -/
theorem exists_removeLines {lines : List (List Word)} (h : counts.Tallies (lines.flatten ++ ws)) :
    ∃ counts', lines.foldlM WordCounts.removeAll counts = .ok counts' ∧ counts'.Tallies ws := by
  induction lines generalizing counts with
  | nil => exact ⟨counts, rfl, h⟩
  | cons line lines ih =>
    rw [List.flatten_cons, List.append_assoc] at h
    obtain ⟨rest, hremove, hrest⟩ := h.exists_removeAll
    obtain ⟨counts', hcounts, htally⟩ := ih hrest
    refine ⟨counts', ?_, htally⟩
    rw [List.foldlM_cons, hremove, Fault.ok_bind]
    exact hcounts

end Tallies

end WordCounts

end Caret
