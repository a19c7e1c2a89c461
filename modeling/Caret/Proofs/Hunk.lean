import Caret.Proofs.Replay

/-!
# Runs as simultaneous substitutions

The changes of a run follow each other in the text, so that together they are a single
substitution: between pieces of text that stay, texts are put in or taken out. A pass over the run
moves the positions of the old text across this substitution.

* `Hunk`: a piece that stays and what is put in or taken out behind it.
* `Hunk.land`: where a pass puts the positions of the old text.
* `Run.exists_hunks`: the substitution that a run amounts to. Moving positions across the steps of
  the run puts them in the same places.
-/

namespace Caret

/-- A piece of text that stays, and a text put in or taken out behind it. -/
structure Hunk where
  gap : Text
  kind : EditKind
  content : Text
  filled : content ≠ []

namespace Hunk

/-- What was there before. -/
def old (h : Hunk) : Text :=
  match h.kind with
  | .insert => h.gap
  | .erase => h.gap ++ h.content

/-- What is there afterwards. -/
def new (h : Hunk) : Text :=
  match h.kind with
  | .insert => h.gap ++ h.content
  | .erase => h.gap

/-- The side of the hunks passed in whose coordinates the changes of a run are logged: a forward run
comes to a hunk after those in front of it, a backward run before them. -/
def side : Direction → Hunk → Text
  | .forward => new
  | .backward => old

def oldText (hunks : List Hunk) : Text := hunks.flatMap old

def newText (hunks : List Hunk) : Text := hunks.flatMap new

/-- The hunks behind a beginning `p` as changes, first one first. -/
def log (direction : Direction) : Text → List Hunk → List Change
  | _, [] => []
  | p, h :: hunks =>
    ⟨h.kind, (p ++ h.gap).extent, (p ++ h.gap ++ h.content).extent⟩ ::
      log direction (p ++ h.side direction) hunks

/-- Where a pass puts a position of the old text. A position inside of a text taken out collapses
onto its beginning, and is pushed on by a text put in right behind it. -/
def land : List Hunk → ℕ → ℕ
  | [], i => i
  | ⟨gap, .insert, content, _⟩ :: hunks, i =>
    if i < gap.length then i else gap.length + content.length + land hunks (i - gap.length)
  | ⟨gap, .erase, content, _⟩ :: hunks, i =>
    if i ≤ gap.length then i else gap.length + land hunks (i - (gap.length + content.length))

variable {hunks hunks' : List Hunk} {h : Hunk} {i j : ℕ}

@[simp] theorem oldText_nil : oldText [] = [] := rfl
@[simp] theorem newText_nil : newText [] = [] := rfl

@[simp] theorem oldText_cons (h : Hunk) (hunks : List Hunk) :
    oldText (h :: hunks) = h.old ++ oldText hunks := rfl

@[simp] theorem newText_cons (h : Hunk) (hunks : List Hunk) :
    newText (h :: hunks) = h.new ++ newText hunks := rfl

@[simp] theorem oldText_append (hunks hunks' : List Hunk) :
    oldText (hunks ++ hunks') = oldText hunks ++ oldText hunks' := List.flatMap_append

@[simp] theorem newText_append (hunks hunks' : List Hunk) :
    newText (hunks ++ hunks') = newText hunks ++ newText hunks' := List.flatMap_append

@[simp] theorem side_forward (h : Hunk) : h.side .forward = h.new := rfl
@[simp] theorem side_backward (h : Hunk) : h.side .backward = h.old := rfl

@[simp] theorem length_log (direction : Direction) (p : Text) (hunks : List Hunk) :
    (log direction p hunks).length = hunks.length := by
  induction hunks generalizing p with
  | nil => rfl
  | cons h hunks ih => rw [log, List.length_cons, List.length_cons, ih]

theorem log_backward_append (p : Text) (hunks hunks' : List Hunk) :
    log .backward p (hunks ++ hunks') =
      log .backward p hunks ++ log .backward (p ++ oldText hunks) hunks' := by
  induction hunks generalizing p with
  | nil => simp [log]
  | cons h hunks ih => simp [log, ih, side]

/-! ## Landing -/

theorem land_mono (hunks : List Hunk) : Monotone (land hunks) := by
  induction hunks with
  | nil => exact monotone_id
  | cons h hunks ih =>
    obtain ⟨gap, kind, content, filled⟩ := h
    intro i j hij
    cases kind with
    | insert =>
      have := ih (Nat.sub_le_sub_right hij gap.length)
      simp only [land]
      split <;> split <;> omega
    | erase =>
      have := ih (Nat.sub_le_sub_right hij (gap.length + content.length))
      simp only [land]
      split <;> split <;> omega

/-- Positions behind the hunks move along with the text. -/
theorem land_add (hunks : List Hunk) (n : ℕ) :
    land hunks ((oldText hunks).length + n) = (newText hunks).length + n := by
  induction hunks generalizing n with
  | nil => rfl
  | cons h hunks ih =>
    obtain ⟨gap, kind, content, filled⟩ := h
    cases kind with
    | insert =>
      simp only [land, oldText_cons, newText_cons, old, new, List.length_append]
      rw [if_neg (by omega), show gap.length + (oldText hunks).length + n - gap.length =
        (oldText hunks).length + n by omega, ih]
      omega
    | erase =>
      simp only [land, oldText_cons, newText_cons, old, new, List.length_append]
      have := List.length_pos_of_ne_nil filled
      rw [if_neg (by omega), show gap.length + content.length + (oldText hunks).length + n -
        (gap.length + content.length) = (oldText hunks).length + n by omega, ih]
      omega

/-- Positions of the old text land in the new one. -/
theorem land_le {n : ℕ} (hi : i ≤ (oldText hunks).length + n) :
    land hunks i ≤ (newText hunks).length + n :=
  land_add hunks n ▸ land_mono hunks hi

/-- Further hunks, unless they push on the text in front of them at once. -/
theorem land_append (h0 : land hunks' 0 = 0) (i : ℕ) :
    land (hunks ++ hunks') i =
      if i ≤ (oldText hunks).length then land hunks i
      else (newText hunks).length + land hunks' (i - (oldText hunks).length) := by
  -- positions up to the end of `hunks` do not get to see `hunks'`: at that very end this needs `h0`
  induction hunks generalizing i with
  | nil =>
    rw [List.nil_append, oldText_nil, newText_nil, List.length_nil, Nat.zero_add, Nat.sub_zero]
    split
    · rw [show i = 0 by omega, h0]; rfl
    · rfl
  | cons h hunks ih =>
    obtain ⟨gap, kind, content, filled⟩ := h
    cases kind with
    | insert =>
      simp only [List.cons_append, land, oldText_cons, newText_cons, old, new, List.length_append, ih]
      by_cases hi : i < gap.length
      · rw [if_pos hi, if_pos hi, if_pos (by omega)]
      · rw [if_neg hi, if_neg hi]
        by_cases hl : i ≤ gap.length + (oldText hunks).length
        · rw [if_pos hl, if_pos (by omega)]
        · rw [if_neg hl, if_neg (by omega), Nat.sub_sub]; omega
    | erase =>
      simp only [List.cons_append, land, oldText_cons, newText_cons, old, new, List.length_append, ih]
      by_cases hi : i ≤ gap.length
      · rw [if_pos hi, if_pos hi, if_pos (by omega)]
      · rw [if_neg hi, if_neg hi]
        by_cases hl : i ≤ gap.length + content.length + (oldText hunks).length
        · rw [if_pos hl, if_pos (by omega)]
        · rw [if_neg hl, if_neg (by omega), Nat.sub_sub]; omega

theorem land_of_le (hi : (oldText hunks).length ≤ i) :
    land hunks i = (newText hunks).length + (i - (oldText hunks).length) := by
  rw [← land_add, Nat.add_sub_cancel' hi]

/-- The last hunk put in, then the others, unless it pushes on the text in front of it at once. -/
theorem land_concat_insert {gap content : Text} (filled : content ≠ [])
    (hgap : gap = [] → hunks = []) (i : ℕ) :
    land (hunks ++ [⟨gap, .insert, content, filled⟩]) i =
      land hunks (if i < (oldText hunks).length + gap.length then i else i + content.length) := by
  -- the end of `hunks` and the place of the new hunk only coincide when there are no `hunks`
  rcases List.eq_nil_or_concat hunks with rfl | hne
  · simp only [List.nil_append, oldText_nil, List.length_nil, Nat.zero_add, land]
    split <;> omega
  · have hpos : 0 < gap.length := by
      apply List.length_pos_of_ne_nil
      intro h0
      obtain ⟨l, a, hl⟩ := hne
      rw [hgap h0] at hl
      exact absurd hl.symm (by simp)
    have h0 : land [⟨gap, .insert, content, filled⟩] 0 = 0 := if_pos hpos
    rw [land_append h0]
    by_cases hi : i ≤ (oldText hunks).length
    · rw [if_pos hi, if_pos (by omega)]
    · have hle := Nat.le_of_not_le hi
      rw [if_neg hi, @land_of_le hunks _ (by split <;> omega)]
      simp only [land]
      split <;> split <;> omega

/-- The last hunk taken out, then the others. -/
theorem land_concat_erase {gap content : Text} (filled : content ≠ []) (i : ℕ) :
    land (hunks ++ [⟨gap, .erase, content, filled⟩]) i =
      land hunks (if i < (oldText hunks).length + gap.length then i else
        if i ≤ (oldText hunks).length + gap.length + content.length then
          (oldText hunks).length + gap.length
        else i - content.length) := by
  have h0 : land [⟨gap, .erase, content, filled⟩] 0 = 0 := if_pos (Nat.zero_le _)
  rw [land_append h0]
  by_cases hi : i ≤ (oldText hunks).length
  · rw [if_pos hi]
    congr 1
    split
    · rfl
    · rw [if_pos (by omega)]; omega
  · rw [if_neg hi, @land_of_le hunks _ (by split <;> (try split) <;> omega)]
    simp only [land]
    split <;> split <;> (try split) <;> omega

/-- The last two hunks, a text put in right behind one taken out, and then the others. -/
theorem land_concat_pair {gap content new : Text} (filled : content ≠ []) (filled' : new ≠ []) (i : ℕ) :
    land (hunks ++ [⟨gap, .erase, content, filled⟩, ⟨[], .insert, new, filled'⟩]) i =
      land hunks (if i ≤ (oldText hunks).length + gap.length then i else
        if i ≤ (oldText hunks).length + gap.length + content.length then
          (oldText hunks).length + gap.length + new.length
        else i - content.length + new.length) := by
  have h0 : land [⟨gap, .erase, content, filled⟩, ⟨[], .insert, new, filled'⟩] 0 = 0 :=
    if_pos (Nat.zero_le _)
  rw [land_append h0]
  by_cases hi : i ≤ (oldText hunks).length
  · rw [if_pos hi, if_pos (by omega)]
  · rw [if_neg hi, @land_of_le hunks _ (by split <;> (try split) <;> omega)]
    simp only [land, List.length_nil, Nat.not_lt_zero, if_false]
    split <;> split <;> (try split) <;> omega

/-- Where hunks behind a beginning of `p` characters put a position. -/
def landFrom (p : ℕ) (hunks : List Hunk) (i : ℕ) : ℕ :=
  if i < p then i else p + land hunks (i - p)

theorem landFrom_zero (hunks : List Hunk) (i : ℕ) : landFrom 0 hunks i = land hunks i := by
  rw [landFrom, if_neg (Nat.not_lt_zero i), Nat.zero_add, Nat.sub_zero]

theorem landFrom_nil (p i : ℕ) : landFrom p [] i = i := by
  unfold landFrom land; split <;> omega

/-- The first hunk put in, then the others. -/
theorem landFrom_insert (p : ℕ) {gap content : Text} (filled : content ≠ []) (i : ℕ) :
    landFrom (p + gap.length + content.length) hunks
        (if i < p + gap.length then i else i + content.length) =
      landFrom p (⟨gap, .insert, content, filled⟩ :: hunks) i := by
  simp only [landFrom, land]
  by_cases hig : i < p + gap.length
  · rw [if_pos hig, if_pos (by omega)]
    split
    · rfl
    · rw [if_pos (by omega)]; omega
  · rw [if_neg hig, if_neg (by omega), if_neg (by omega), if_neg (by omega),
      show i + content.length - (p + gap.length + content.length) = i - p - gap.length by omega]
    omega

/-- The first hunk taken out, then the others, unless these push on the place that is left of it. -/
theorem landFrom_erase (p : ℕ) {gap content : Text} (filled : content ≠ []) (h0 : land hunks 0 = 0)
    (i : ℕ) :
    landFrom (p + gap.length) hunks
        (if i < p + gap.length then i else
          if i ≤ p + gap.length + content.length then p + gap.length else i - content.length) =
      landFrom p (⟨gap, .erase, content, filled⟩ :: hunks) i := by
  simp only [landFrom, land]
  by_cases hig : i < p + gap.length
  · rw [if_pos hig, if_pos hig]
    split
    · rfl
    · rw [if_pos (by omega)]; omega
  · rw [if_neg hig, if_neg (by omega : ¬i < p)]
    by_cases hic : i ≤ p + gap.length + content.length
    · -- all of the text taken out collapses onto its beginning, which `h0` leaves alone
      rw [if_pos hic, if_neg (lt_irrefl _), Nat.sub_self, h0]
      split
      · omega
      · rw [show i - p - (gap.length + content.length) = 0 by omega, h0]; omega
    · rw [if_neg hic, if_neg (by omega), if_neg (by omega), show i - content.length -
        (p + gap.length) = i - p - (gap.length + content.length) by omega]
      omega

end Hunk

/-! ## The hunks of a run -/

namespace Run

/-- Every change starts behind the frontier of its predecessor. -/
def Forward (changes : List Change) : Prop := changes.IsChain fun a b => a.frontier < b.start

/-- Every change lies before its predecessor. -/
def Backward (changes : List Change) : Prop := changes.IsChain fun a b => b.stop ≤ a.start

end Run

namespace Trail

open Hunk

variable {p q t : Text} {changes : List Change}

/-- **Forward runs.** -/
theorem exists_forward (h : Trail (p ++ q) changes t) (hs : (p ++ q).size < Text.capacity)
    (hf : Run.Forward changes) (hp : ∀ c ∈ changes.head?, p.extent ≤ c.start) :
    ∃ hunks rest, q = oldText hunks ++ rest ∧ t = p ++ newText hunks ++ rest ∧
      changes = Hunk.log .forward p hunks ∧
      ((∀ c ∈ changes.head?, p.extent < c.start) → land hunks 0 = 0) ∧
      ∀ i ≤ (p ++ q).length,
        ((p ++ q).position i).across changes = .ok (t.position (landFrom p.length hunks i)) := by
  -- `p` is what the run has left behind: every change comes with the hunk in front of the others
  induction changes generalizing p q with
  | nil =>
    refine ⟨[], q, rfl, by simpa [Trail] using h.symm, rfl, fun _ => rfl, ?_⟩
    intro i _
    rw [landFrom_nil, ← show p ++ q = t from h]
    rfl
  | cons a changes ih =>
    obtain ⟨u, hu, hub, h⟩ := h
    obtain ⟨hhead, hf'⟩ := List.isChain_cons.1 hf
    have hle : p.extent ≤ a.start := hp a rfl
    generalize hpq : p ++ q = s at hu hs
    cases hu with
    | insert before mid after hmid =>
      obtain ⟨gap, rfl, rfl⟩ := Text.exists_append_of_extent_le hpq hle
      obtain ⟨hunks, rest, rfl, rfl, rfl, -, hacross⟩ := ih h hub hf' fun c hc => (hhead c hc).le
      refine ⟨⟨gap, .insert, mid, hmid⟩ :: hunks, rest, by simp [old], by simp [new],
        by simp [Hunk.log, side, new], ?_, ?_⟩
      · intro hlt
        have hgap : gap ≠ [] := by
          rintro rfl
          exact lt_irrefl p.extent (by simpa using hlt _ rfl)
        exact if_pos (List.length_pos_of_ne_nil hgap)
      · intro i hi
        have hj : (if i < (p ++ gap).length then i else i + mid.length) ≤
            (p ++ gap ++ mid ++ (oldText hunks ++ rest)).length := by
          simp only [List.length_append] at hi ⊢; split <;> omega
        rw [Coord.across_cons (Text.move_insert hub hi), hacross _ hj]
        simp only [List.length_append, landFrom_insert _ hmid]
    | erase before mid after hmid =>
      obtain ⟨gap, rfl, rfl⟩ := Text.exists_append_of_extent_le
        (hpq.trans (List.append_assoc _ _ _)) hle
      obtain ⟨hunks, rest, rfl, rfl, rfl, h0, hacross⟩ := ih h hub hf' fun c hc => (hhead c hc).le
      refine ⟨⟨gap, .erase, mid, hmid⟩ :: hunks, rest, by simp [old], by simp [new],
        by simp [Hunk.log, side, new], fun _ => if_pos (Nat.zero_le _), ?_⟩
      intro i hi
      have hj : (if i < (p ++ gap).length then i else
            if i ≤ (p ++ gap).length + mid.length then (p ++ gap).length else i - mid.length) ≤
          (p ++ gap ++ (oldText hunks ++ rest)).length := by
        simp only [List.length_append] at hi ⊢; split <;> (try split) <;> omega
      rw [Coord.across_cons (Text.move_erase hs hi), hacross _ hj]
      simp only [List.length_append, landFrom_erase _ hmid (h0 hhead)]

/-- **The hunks of a backward run** over a text `p`, in front of a text `q` that the run has left
behind. Every step of the run comes with its hunks behind those of the later steps. -/
structure Substitutes (p q t : Text) (changes : List Change) (hunks : List Hunk) (rest : Text) :
    Prop where
  old : p = oldText hunks ++ rest
  new : t = newText hunks ++ rest ++ q
  log : changes.reverse = Hunk.log .backward [] hunks
  tight : rest = [] → ∀ c ∈ changes.head?, c.stop ≤ p.extent → c.kind = .erase ∧ c.stop = p.extent
  across : ∀ i ≤ (p ++ q).length, ((p ++ q).position i).acrossSteps (Run.steps changes) =
    .ok (t.position (land hunks i))

namespace Substitutes

variable {before mid new rest gap : Text} {hunks : List Hunk}

theorem nil (p q : Text) : Substitutes p q (p ++ q) [] [] p where
  old := rfl
  new := rfl
  log := rfl
  tight := by simp
  across _ _ := rfl

/-- An erase comes first. -/
theorem erase (hs : (before ++ mid ++ (rest ++ q)).size < Text.capacity) (hmid : mid ≠ [])
    (h : Substitutes before (rest ++ q) t changes hunks gap) :
    Substitutes (before ++ mid ++ rest) q t
      (⟨.erase, before.extent, (before ++ mid).extent⟩ :: changes)
      (hunks ++ [⟨gap, .erase, mid, hmid⟩]) rest := by
  obtain ⟨rfl, rfl, hlog, -, hacross⟩ := h
  refine ⟨by simp [Hunk.old], by simp [Hunk.new], ?_, ?_, ?_⟩
  · rw [List.reverse_cons, hlog, log_backward_append]
    simp [Hunk.log]
  · rintro rfl c hc -
    obtain rfl : _ = c := Option.mem_some.1 hc
    exact ⟨rfl, by rw [List.append_nil]⟩
  · intro i hi
    have hapart : ∀ b ∈ changes.head?, ¬b.ErasesUpTo
        ⟨.erase, (oldText hunks ++ gap).extent, (oldText hunks ++ gap ++ mid).extent⟩ :=
      fun b _ hup => nomatch hup.1
    rw [List.append_assoc _ rest] at hi ⊢
    have hmove := Text.move_erase hs hi
    rw [@List.length_append _ (oldText hunks)] at hmove
    rw [Run.steps_single hapart, Coord.acrossSteps_cons ((Coord.acrossStep_single _ _).trans hmove),
      hacross, land_concat_erase hmid]
    simp only [List.length_append] at hi ⊢
    split <;> (try split) <;> omega

/-- An insert comes first, and the next change is not an erase right up to it. -/
theorem insert (hu : (before ++ mid ++ (rest ++ q)).size < Text.capacity) (hmid : mid ≠ [])
    (h : Substitutes before (mid ++ (rest ++ q)) t changes hunks gap)
    (hnext : ∀ b ∈ changes.head?, b.stop ≤ before.extent ∧
      ¬b.ErasesUpTo ⟨.insert, before.extent, (before ++ mid).extent⟩) :
    Substitutes (before ++ rest) q t
      (⟨.insert, before.extent, (before ++ mid).extent⟩ :: changes)
      (hunks ++ [⟨gap, .insert, mid, hmid⟩]) rest := by
  obtain ⟨rfl, rfl, hlog, hgap, hacross⟩ := h
  -- a change right in front of this insert would be an erase up to it
  have hempty : gap = [] → hunks = [] := by
    intro h0
    have hnil : changes = [] := by
      cases changes with
      | nil => rfl
      | cons b changes =>
        obtain ⟨hstop, hup⟩ := hnext b rfl
        exact absurd ⟨rfl, hgap h0 b rfl hstop⟩ hup
    rw [hnil] at hlog
    cases hunks with
    | nil => rfl
    | cons h hunks => simp [Hunk.log] at hlog
  refine ⟨by simp [Hunk.old], by simp [Hunk.new], ?_, ?_, ?_⟩
  · rw [List.reverse_cons, hlog, log_backward_append]
    simp [Hunk.log]
  · rintro rfl c hc hstop
    obtain rfl : _ = c := Option.mem_some.1 hc
    rw [List.append_nil] at hstop
    exact absurd (Text.extent_lt_append _ hmid) (not_lt.2 hstop)
  · intro i hi
    have hapart := fun b hb => (hnext b hb).2
    rw [← List.append_assoc] at hacross
    rw [List.append_assoc _ rest] at hi ⊢
    have hmove := Text.move_insert hu hi
    rw [@List.length_append _ (oldText hunks)] at hmove
    rw [Run.steps_single hapart, Coord.acrossSteps_cons ((Coord.acrossStep_single _ _).trans hmove),
      hacross, land_concat_insert hmid hempty]
    simp only [List.length_append] at hi ⊢
    split <;> omega

/-- An insert and the erase right up to it come first. -/
theorem pair (hs : (before ++ mid ++ (rest ++ q)).size < Text.capacity)
    (hu : (before ++ mid ++ (new ++ (rest ++ q))).size < Text.capacity) (hmid : mid ≠ [])
    (hnew : new ≠ []) (h : Substitutes before (new ++ (rest ++ q)) t changes hunks gap) :
    Substitutes (before ++ mid ++ rest) q t
      (⟨.insert, (before ++ mid).extent, (before ++ mid ++ new).extent⟩ ::
        ⟨.erase, before.extent, (before ++ mid).extent⟩ :: changes)
      (hunks ++ [⟨gap, .erase, mid, hmid⟩, ⟨[], .insert, new, hnew⟩]) rest := by
  obtain ⟨rfl, rfl, hlog, -, hacross⟩ := h
  refine ⟨by simp [Hunk.old], by simp [Hunk.new], ?_, ?_, ?_⟩
  · rw [List.reverse_cons, List.reverse_cons, hlog, log_backward_append]
    simp [Hunk.log, side, Hunk.old]
  · rintro rfl c hc hstop
    obtain rfl : _ = c := Option.mem_some.1 hc
    rw [List.append_nil] at hstop
    exact absurd (Text.extent_lt_append _ hnew) (not_lt.2 hstop)
  · intro i hi
    rw [← List.append_assoc _ new] at hacross
    rw [List.append_assoc _ rest] at hi ⊢
    have hmove := Text.acrossStep_pair hs hu hi
    rw [@List.length_append _ (oldText hunks)] at hmove
    rw [Run.steps_pair ⟨rfl, rfl, rfl⟩, Coord.acrossSteps_cons hmove, hacross,
      land_concat_pair hmid hnew]
    simp only [List.length_append] at hi ⊢
    split <;> (try split) <;> omega

end Substitutes

/-- **Backward runs.** -/
theorem exists_backward (h : Trail (p ++ q) changes t) (hs : (p ++ q).size < Text.capacity)
    (hb : Run.Backward changes) (hp : ∀ c ∈ changes.head?, c.reach ≤ p.extent) :
    ∃ hunks rest, Substitutes p q t changes hunks rest := by
  induction hn : changes.length using Nat.strong_induction_on generalizing p q changes with
  | _ n ih =>
  have hreach : ∀ {changes : List Change} {u : Text} {c : Coord}, Trail u changes t →
      (∀ b ∈ changes.head?, b.stop ≤ c) → ∀ b ∈ changes.head?, b.reach ≤ c := by
    intro changes u c h hhead b hb
    obtain ⟨v, w, hv⟩ := h.exists_takes (List.mem_of_mem_head? hb)
    exact hv.reach_le_stop.trans (hhead b hb)
  cases changes with
  | nil =>
    cases h
    exact ⟨[], p, .nil p q⟩
  | cons a changes =>
    obtain ⟨hhead, hb'⟩ := List.isChain_cons.1 hb
    have hle : a.reach ≤ p.extent := hp a rfl
    have hlt : changes.length < n := by
      rw [← hn]
      exact Nat.lt_succ_self _
    by_cases hpair : ∃ b ∈ changes.head?, b.ErasesUpTo a
    · -- the erase right up to this insert leaves the text put in behind
      obtain ⟨b, hmem, hup⟩ := hpair
      obtain ⟨changes, rfl⟩ := List.head?_eq_some_iff.1 hmem
      obtain ⟨hhead', hb''⟩ := List.isChain_cons.1 hb'
      obtain ⟨u, hu, h⟩ := h.exists_replaces hup
      have hub := hu.size_lt
      have hlt' : changes.length < n := (Nat.lt_succ_self _).trans hlt
      generalize hpq : p ++ q = s at hu hs
      obtain ⟨before, mid, new, after, hmid, hnew, hsize⟩ := hu
      obtain ⟨rest, rfl, rfl⟩ := Text.exists_append_of_extent_le hpq.symm hle
      obtain ⟨hunks, gap, hsub⟩ := ih _ hlt' h hub hb'' (hreach h hhead') rfl
      exact ⟨_, rest, hsub.pair hs hsize hmid hnew⟩
    · have hapart : ∀ b ∈ changes.head?, ¬b.ErasesUpTo a := fun b hb hup => hpair ⟨b, hb, hup⟩
      obtain ⟨u, hu, hub, h⟩ := h
      generalize hpq : p ++ q = s at hu hs
      cases hu with
      | insert before mid after hmid =>
        obtain ⟨rest, rfl, rfl⟩ := Text.exists_append_of_extent_le hpq.symm hle
        rw [List.append_assoc before mid] at h
        obtain ⟨hunks, gap, hsub⟩ := ih _ hlt h (List.append_assoc before mid _ ▸ hub) hb'
          (hreach h hhead) rfl
        exact ⟨_, rest, hsub.insert hub hmid fun b hb => ⟨hhead b hb, hapart b hb⟩⟩
      | erase before mid after hmid =>
        obtain ⟨rest, rfl, rfl⟩ := Text.exists_append_of_extent_le hpq.symm hle
        obtain ⟨hunks, gap, hsub⟩ := ih _ hlt h hub hb' (hreach h hhead) rfl
        exact ⟨_, rest, hsub.erase hs hmid⟩

end Trail

namespace Run

/-- The changes follow each other in the direction of the run. -/
def Ordered (run : Run) : Prop :=
  match run.direction with
  | .forward => Forward run.changes
  | .backward => Backward run.changes

/-- The changes in the order of their positions. -/
def pending (run : Run) : List Change :=
  match run.direction with
  | .forward => run.changes
  | .backward => run.changes.reverse

/-- A forward run never erases back up to an insert. -/
theorem Forward.apart {changes : List Change} {s t : Text} (hf : Forward changes)
    (h : Trail s changes t) : changes.IsChain fun a b => ¬b.ErasesUpTo a := by
  induction changes generalizing s with
  | nil => exact .nil
  | cons a changes ih =>
    obtain ⟨u, hu, -, h⟩ := h
    obtain ⟨hhead, hf⟩ := List.isChain_cons.1 hf
    refine List.isChain_cons.2 ⟨fun b hb hup => ?_, ih hf h⟩
    obtain ⟨v, w, hv⟩ := h.exists_takes (List.mem_of_mem_head? hb)
    obtain ⟨hkind, -, hstop⟩ := hup
    have hfrontier : a.frontier = a.stop := by
      unfold Change.frontier
      rw [hkind]
    have hbehind := hhead b hb
    rw [hfrontier] at hbehind
    -- the insert would lie in front of the erase and behind it
    exact absurd (hu.start_lt_stop.trans (hbehind.trans hv.start_lt_stop)) (hstop ▸ lt_irrefl _)

/-- **The substitution that a run amounts to.** -/
theorem exists_hunks {run : Run} {s t : Text} (hr : run.Ordered) (h : Trail s run.changes t)
    (hs : s.size < Text.capacity) :
    ∃ hunks rest, s = Hunk.oldText hunks ++ rest ∧ t = Hunk.newText hunks ++ rest ∧
      run.pending = Hunk.log run.direction [] hunks ∧
      ∀ i ≤ s.length, (s.position i).acrossSteps (steps run.changes) =
        .ok (t.position (Hunk.land hunks i)) := by
  obtain ⟨direction, changes⟩ := run
  cases direction with
  | forward =>
    have hsteps := steps_of_apart (Forward.apart hr h)
    obtain ⟨hunks, rest, rfl, rfl, hlog, -, hacross⟩ :=
      Trail.exists_forward (p := []) h hs hr fun c _ => Coord.zero_le _
    refine ⟨hunks, rest, rfl, rfl, hlog, ?_⟩
    intro i hi
    rw [hsteps, Coord.acrossSteps_map, ← Hunk.landFrom_zero]
    exact hacross i hi
  | backward =>
    have hp : ∀ c ∈ changes.head?, c.reach ≤ s.extent := by
      cases changes with
      | nil => simp
      | cons a changes =>
        intro c hc
        obtain rfl : a = c := Option.mem_some.1 hc
        obtain ⟨u, hu, -⟩ := h
        exact hu.reach_le_extent
    rw [← List.append_nil s] at h hs
    obtain ⟨hunks, rest, hold, rfl, hlog, -, hacross⟩ := Trail.exists_backward h hs hr hp
    simp only [List.append_nil] at hacross ⊢
    exact ⟨hunks, rest, hold, rfl, hlog, hacross⟩

end Run

end Caret
