import Caret.Proofs.WordCounts
import Caret.Unicode.WordSplit

/-!
# Words that begin alike

In byte order the words that begin in one way stand together, and the beginning itself is in front of
them all. A scan that goes from there up to the first other word therefore misses none. Words are
kept as characters: these have the order of their UTF-8 bytes, and one word begins with another
exactly when its bytes do.

* `Word.bytes_lt_iff`, `Word.bytes_prefix_iff`: words and their bytes.
* `Word.prefix_of_between`: words that begin alike stand together.
* `WordCounts.Canonical.withBeginning_eq`: the scan finds what a filter finds.
* `WordIndex.Built`: every index that can come about, with `WordIndex.Built.canonical`.
* `WordIndex.withBeginning_lists`: what is found in such an index.
-/

namespace Caret

namespace Word

variable {p v w : Word} {a b : Char}

/-- The bytes of a word in UTF-8. -/
def bytes (w : Word) : List UInt8 := w.flatMap String.utf8EncodeChar

@[simp] theorem bytes_nil : bytes [] = [] := rfl

theorem bytes_cons (a : Char) (w : Word) : bytes (a :: w) = String.utf8EncodeChar a ++ w.bytes := rfl

/-- **Characters have the order of their bytes**, and no character is encoded by the first bytes of
another: whatever follows, the smaller character comes first. -/
theorem encode_append_lt (h : a < b) (s t : List UInt8) :
    String.utf8EncodeChar a ++ s < String.utf8EncodeChar b ++ t := by
  have hlt : a.val.toNat < b.val.toNat := h
  have hbound : b.val.toNat < 0x110000 := by
    have hvalid := b.valid
    simp only [UInt32.isValidChar, Nat.isValidChar] at hvalid
    omega
  -- the bytes hold the digits to the base 64
  have hsecond : ∀ n, n / 4096 = n / 64 / 64 := fun n => (Nat.div_div_eq_div_mul n 64 64).symm
  have hthird : ∀ n, n / 262144 = n / 64 / 64 / 64 := fun n => by
    rw [Nat.div_div_eq_div_mul, Nat.div_div_eq_div_mul]
  unfold String.utf8EncodeChar
  generalize a.val.toNat = m at hlt
  generalize b.val.toNat = n at hlt hbound
  dsimp only
  simp only [hsecond, hthird]
  -- encodings of different lengths differ in the first byte, those of one length in some digit
  by_cases hst : s < t
  all_goals
    split_ifs
    all_goals
      simp only [List.cons_append, List.nil_append, List.cons_lt_cons_iff, UInt8.lt_iff_toNat_lt,
        ← UInt8.toNat_inj, UInt8.toNat_ofNat', hst, and_true, and_false, or_false]
      omega

theorem encode_ne_nil (a : Char) : String.utf8EncodeChar a ≠ [] := by
  unfold String.utf8EncodeChar
  dsimp only
  split_ifs <;> exact List.cons_ne_nil _ _

theorem bytes_lt_bytes (h : v < w) : v.bytes < w.bytes := by
  induction v generalizing w with
  | nil =>
    cases w with
    | nil => exact absurd h (lt_irrefl _)
    | cons b w =>
      obtain ⟨x, l, hx⟩ := List.exists_cons_of_ne_nil (encode_ne_nil b)
      rw [bytes_cons, hx]
      exact List.nil_lt_cons _ _
  | cons a v ih =>
    cases w with
    | nil => exact absurd h (List.not_lt_nil _)
    | cons b w =>
      rw [bytes_cons, bytes_cons]
      rcases List.cons_lt_cons_iff.1 h with hab | ⟨rfl, hvw⟩
      · exact encode_append_lt hab _ _
      · exact List.append_left_lt (ih hvw)

/-- **The order of words** is the order of their bytes. -/
theorem bytes_lt_iff : v.bytes < w.bytes ↔ v < w := by
  refine ⟨fun h => ?_, bytes_lt_bytes⟩
  rcases lt_trichotomy v w with hlt | rfl | hgt
  · exact hlt
  · exact absurd h (List.lt_irrefl _)
  · exact absurd h (List.lt_asymm (bytes_lt_bytes hgt))

/-- **A word begins with another** when its bytes do. -/
theorem bytes_prefix_iff : p.bytes <+: w.bytes ↔ p <+: w := by
  induction p generalizing w with
  | nil => simp
  | cons a p ih =>
    cases w with
    | nil =>
      rw [bytes_cons, bytes_nil, List.prefix_nil, List.prefix_nil]
      exact ⟨fun h => absurd (List.append_eq_nil_iff.1 h).1 (encode_ne_nil a),
        fun h => absurd h (List.cons_ne_nil a p)⟩
    | cons b w =>
      rw [bytes_cons, bytes_cons, List.cons_prefix_cons]
      constructor
      · intro h
        have hab : a = b := by
          obtain ⟨rest, hrest⟩ := h
          rw [List.append_assoc] at hrest
          rcases lt_trichotomy a b with hlt | heq | hgt
          · exact absurd (hrest ▸ encode_append_lt hlt _ _) (List.lt_irrefl _)
          · exact heq
          · exact absurd (hrest ▸ encode_append_lt hgt _ _) (List.lt_irrefl _)
        subst hab
        exact ⟨rfl, ih.1 ((List.prefix_append_right_inj _).1 h)⟩
      · rintro ⟨rfl, h⟩
        exact (List.prefix_append_right_inj _).2 (ih.2 h)

/-- **Words that begin alike stand together**: what comes between a beginning and a word that has it
has it too. -/
theorem prefix_of_between (hpw : p ≤ w) (hwv : w ≤ v) (h : p <+: v) : p <+: w := by
  induction p generalizing v w with
  | nil => exact List.nil_prefix
  | cons a p ih =>
    obtain ⟨rest, rfl⟩ := h
    cases w with
    | nil => exact absurd hpw (not_le.2 (List.nil_lt_cons _ _))
    | cons b w =>
      -- the first character of the word is caught between two that are the same
      have hab : ¬b < a := fun hlt => hpw.not_gt (List.cons_lt_cons_iff.2 (.inl hlt))
      have hba : ¬a < b := fun hlt => hwv.not_gt (List.cons_lt_cons_iff.2 (.inl hlt))
      obtain rfl : a = b := le_antisymm (not_lt.1 hab) (not_lt.1 hba)
      have hpw' : p ≤ w := not_lt.1 fun hlt => hpw.not_gt (List.cons_lt_cons_iff.2 (.inr ⟨rfl, hlt⟩))
      have hwv' : w ≤ p ++ rest :=
        not_lt.1 fun hlt => hwv.not_gt (List.cons_lt_cons_iff.2 (.inr ⟨rfl, hlt⟩))
      exact (List.prefix_cons_inj a).2 (ih hpw' hwv' (List.prefix_append p rest))

end Word

namespace WordCounts

variable {counts counts' : WordCounts} {start : Word} {words : List Word}

/-- From the beginning on, the first word that does not begin so ends those that do. -/
theorem takeWhile_eq_filter (h : words.Pairwise (· < ·)) (hle : ∀ w ∈ words, start ≤ w) :
    words.takeWhile start.isPrefixOf = words.filter start.isPrefixOf := by
  induction words with
  | nil => rfl
  | cons w words ih =>
    obtain ⟨hlt, h⟩ := List.pairwise_cons.1 h
    obtain ⟨hw, hle⟩ := List.forall_mem_cons.1 hle
    by_cases hp : start.isPrefixOf w = true
    · rw [List.takeWhile_cons_of_pos hp, List.filter_cons_of_pos hp, ih h hle]
    · have hnone : ∀ v ∈ words, ¬start.isPrefixOf v = true := fun v hv hpv =>
        hp (List.isPrefixOf_iff_prefix.2 (Word.prefix_of_between hw (hlt v hv).le
          (List.isPrefixOf_iff_prefix.1 hpv)))
      rw [List.takeWhile_cons_of_neg hp, List.filter_cons_of_neg hp, List.filter_eq_nil_iff.2 hnone]

/-- **The scan.** The words that are passed over, in front of the beginning, do not begin so. -/
theorem takeWhile_dropWhile_eq_filter (h : words.Pairwise (· < ·)) :
    (words.dropWhile (·.before start)).takeWhile start.isPrefixOf =
      words.filter start.isPrefixOf := by
  induction words with
  | nil => rfl
  | cons w words ih =>
    rw [List.dropWhile_cons]
    by_cases hbefore : w.before start = true
    · have hnot : ¬start.isPrefixOf w = true := fun hp =>
        (List.isPrefixOf_iff_prefix.1 hp).le (Word.before_iff_lt.1 hbefore)
      rw [if_pos hbefore, List.filter_cons_of_neg hnot, ih (List.pairwise_cons.1 h).2]
    · have hw : start ≤ w := not_lt.1 fun hlt => hbefore (Word.before_iff_lt.2 hlt)
      rw [if_neg hbefore, takeWhile_eq_filter h]
      exact List.forall_mem_cons.2
        ⟨hw, fun v hv => hw.trans ((List.pairwise_cons.1 h).1 v hv).le⟩

/-- **The scan finds what a filter finds.** -/
theorem Canonical.withBeginning_eq (h : counts.Canonical) (start : Word) :
    counts.withBeginning start = (counts.map Prod.fst).filter start.isPrefixOf :=
  takeWhile_dropWhile_eq_filter (List.pairwise_map.2 h.sorted)

/-! ## Counts that stay in order -/

/-- A word that was taken out had been counted. -/
theorem count_pos_of_remove {w : Word} (h : counts.Canonical) (hr : remove w counts = .ok counts') :
    0 < counts.count w := by
  induction counts generalizing counts' with
  | nil => cases hr
  | cons e counts ih =>
    obtain ⟨v, n⟩ := e
    obtain ⟨hn, -, h⟩ := canonical_cons.1 h
    rw [count_cons]
    by_cases hv : v = w
    · rw [if_pos hv.symm]
      exact hn
    · rw [remove, if_neg hv, Fault.bind_eq_ok] at hr
      obtain ⟨rest, hrest, -⟩ := hr
      rw [if_neg (Ne.symm hv)]
      exact ih h hrest

theorem Canonical.remove {w : Word} (h : counts.Canonical) (hr : remove w counts = .ok counts') :
    counts'.Canonical := by
  obtain ⟨rest, hrest, hcanonical, -⟩ := h.exists_remove (count_pos_of_remove h hr)
  rw [hr] at hrest
  cases hrest
  exact hcanonical

theorem Canonical.addLines (h : counts.Canonical) (lines : List (List Word)) :
    (lines.foldl addAll counts).Canonical :=
  List.foldlRecOn lines addAll h fun _ h line _ =>
    List.foldlRecOn line _ h fun _ h w _ => (h.add w).1

theorem Canonical.removeLines {lines : List (List Word)} (h : counts.Canonical)
    (hr : lines.foldlM removeAll counts = .ok counts') : counts'.Canonical :=
  Fault.foldlM_keeps (fun _ _ _ _ h hr =>
    Fault.foldlM_keeps (fun _ _ _ _ h hr => h.remove hr) h hr) h hr

end WordCounts

namespace WordIndex

variable {split : Text → List Word} {x x' : WordIndex} {b : Buffer} {t : Text} {p p' : Patch}
  {m : LineModification}

/-- **The indexes that can come about**: the index of any buffer, brought up to date any number of
times with whatever has become of the buffer. -/
inductive Built (split : Text → List Word) : WordIndex → Prop
  | ofBuffer (b : Buffer) : Built split (.ofBuffer split b)
  | update {x x' : WordIndex} {b : Buffer} (h : Built split x) (hu : x.update split b = .ok x') :
    Built split x'

theorem canonical_patch (h : p.counts.Canonical) (hp : patch split t p m = .ok p') :
    p'.counts.Canonical := by
  unfold patch at hp
  rw [Fault.bind_eq_ok] at hp
  obtain ⟨⟨⟩, -, hp⟩ := hp
  dsimp only at hp
  rw [Fault.bind_eq_ok] at hp
  obtain ⟨⟨⟩, -, hp⟩ := hp
  rw [Fault.bind_eq_ok] at hp
  obtain ⟨counts, hcounts, hp⟩ := hp
  cases hp
  exact (h.removeLines hcounts).addLines _

/-- An update leaves the words in order, whatever buffer it reads. -/
theorem canonical_update (h : x.counts.Canonical) (hu : x.update split b = .ok x') :
    x'.counts.Canonical := by
  unfold update at hu
  rw [Fault.bind_eq_ok] at hu
  obtain ⟨⟨mods, watcher⟩, -, hu⟩ := hu
  dsimp only at hu
  split at hu
  · cases hu
    exact h
  · rw [Fault.bind_eq_ok] at hu
    obtain ⟨p, hp, hu⟩ := hu
    rw [Fault.bind_eq_ok] at hu
    obtain ⟨⟨⟩, -, hu⟩ := hu
    cases hu
    exact Fault.foldlM_keeps (P := fun p : Patch => p.counts.Canonical)
      (fun _ _ _ _ h hp => canonical_patch h hp) h hp

/-- **Every index** has its words in order, each of them once and none without an occurrence. -/
theorem Built.canonical (h : x.Built split) : x.counts.Canonical := by
  induction h with
  | ofBuffer b => exact WordCounts.Tallies.nil.canonical.addLines _
  | update _ hu ih => exact canonical_update ih hu

/-- A word is found among the words just when it is counted. -/
theorem mem_words_iff (h : x.counts.Canonical) {w : Word} : w ∈ x.words ↔ 0 < x.occurrences w := by
  unfold words occurrences
  rw [List.mem_map]
  constructor
  · rintro ⟨⟨v, n⟩, hmem, rfl⟩
    obtain ⟨hpos, hcount⟩ := h.mem_iff.1 hmem
    rwa [hcount]
  · exact fun hpos => ⟨(w, x.counts.count w), h.mem_iff.2 ⟨hpos, rfl⟩, rfl⟩

/-- **The words that begin in a given way**, in any index. The scan gives what is left of all words
when those are filtered out whose bytes do not begin with the bytes of the beginning. So it lists
every word that occurs and begins so, no other, each of them once and in the order of their bytes. -/
theorem withBeginning_lists (h : x.Built split) (start : Word) :
    x.withBeginning start = x.words.filter (fun w => start.bytes.isPrefixOf w.bytes) ∧
      (x.withBeginning start).Pairwise (fun v w => v.bytes < w.bytes) ∧
      ∀ w, w ∈ x.withBeginning start ↔ 0 < x.occurrences w ∧ start.bytes <+: w.bytes := by
  have hcanonical := h.canonical
  have hfilter : x.withBeginning start =
      x.words.filter (fun w => start.bytes.isPrefixOf w.bytes) := by
    refine (hcanonical.withBeginning_eq start).trans (List.filter_congr fun w _ => ?_)
    rw [Bool.eq_iff_iff, List.isPrefixOf_iff_prefix, List.isPrefixOf_iff_prefix,
      Word.bytes_prefix_iff]
  have hsorted : x.words.Pairwise (fun v w => v.bytes < w.bytes) :=
    List.pairwise_map.2 (hcanonical.sorted.imp Word.bytes_lt_bytes)
  rw [hfilter]
  refine ⟨rfl, hsorted.filter _, fun w => ?_⟩
  rw [List.mem_filter, mem_words_iff hcanonical, List.isPrefixOf_iff_prefix]

/-- Words with letters of two bytes, one of them twice. -/
def sample : WordIndex :=
  .ofBuffer Unicode.words (.ofText 0 ['é', 't', 'é', ' ', 'é', 't', ' ', 'z', ' ', 'é', 't'] {})

/-- A beginning that is a word itself, the empty one, and one that is behind all words. -/
theorem withBeginning_lists_sample :
    (sample.withBeginning ['é', 't']).Pairwise (fun v w => v.bytes < w.bytes) ∧
      (['é', 't', 'é'] ∈ sample.withBeginning ['é', 't'] ∧ ['z'] ∉ sample.withBeginning ['é', 't']) ∧
      sample.withBeginning [] = [['z'], ['é', 't'], ['é', 't', 'é']] ∧
      sample.withBeginning ['한'] = [] := by
  have hbuilt : sample.Built Unicode.words := .ofBuffer _
  have hwords : sample.words = [['z'], ['é', 't'], ['é', 't', 'é']] := by decide +kernel
  have hcounted : 0 < sample.occurrences ['é', 't', 'é'] := by decide +kernel
  obtain ⟨-, hsorted, hmem⟩ := withBeginning_lists hbuilt ['é', 't']
  obtain ⟨hall, -, -⟩ := withBeginning_lists hbuilt []
  obtain ⟨hnone, -, -⟩ := withBeginning_lists hbuilt ['한']
  rw [hwords] at hall hnone
  refine ⟨hsorted, ⟨(hmem _).2 ⟨hcounted, by decide⟩, fun h => ?_⟩, hall, hnone⟩
  exact absurd ((hmem _).1 h).2 (by decide)

end WordIndex

end Caret
