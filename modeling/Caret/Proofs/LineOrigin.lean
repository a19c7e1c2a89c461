import Caret.Proofs.Alignment

/-!
# Where lines come from

Line records read as edits of an unbounded sequence of lines. The fold of any records says exactly
which old lines they took out, which of the final lines they put in, and where all others are.

* `LineRecord.edit`, `LineRecord.sheetAfter`: what records make of a sequence of lines.
* `LineRecord.exists_old_iff`: an old line is still there or some record took it out.
* `Lines.Aligned.new_cases`, `Lines.Aligned.old_cases`: lines on one side of an alignment.
* `LineModification.Follows`: the invariant of the fold, its step and its run.
* `LineModification.exists_fold_exact`: the fold of any records is exact.
-/

namespace Caret

/-- Where a line comes from: it is one of the lines that there were, or a record put it in. -/
inductive LineOrigin
  | old (line : ℕ)
  | put (record : LineRecord)
  deriving DecidableEq, Repr

namespace LineRecord

variable {r : LineRecord} {records : List LineRecord} {sheet : ℕ → LineOrigin} {i j : ℕ}

/-- How many lines a record puts in. -/
def gain (r : LineRecord) : ℕ := r.count.toNat

/-- How many lines a record takes out. -/
def loss (r : LineRecord) : ℕ := (-r.count).toNat

/-- What a record makes of an unbounded sequence of lines: from its line on, fresh lines come in or
lines go. -/
def edit (r : LineRecord) (sheet : ℕ → LineOrigin) (i : ℕ) : LineOrigin :=
  if i < r.line then sheet i
  else if i < r.line + r.gain then .put r
  else sheet (i - r.gain + r.loss)

/-- What records make, one after another, of the lines that there were. -/
def sheetAfter (records : List LineRecord) : ℕ → LineOrigin :=
  records.foldl (fun sheet r => r.edit sheet) .old

/-- One of the records took an old line out. -/
def Deleted (records : List LineRecord) (j : ℕ) : Prop :=
  ∃ before r after, records = before ++ r :: after ∧
    ∃ i, r.line ≤ i ∧ i < r.line + r.loss ∧ sheetAfter before i = .old j

/-! ## A single record -/

theorem edit_of_lt (h : i < r.line) : r.edit sheet i = sheet i := if_pos h

theorem edit_of_mem (h : r.line ≤ i) (h' : i < r.line + r.gain) : r.edit sheet i = .put r := by
  unfold edit
  rw [if_neg (by omega), if_pos h']

theorem edit_of_ge (h : r.line + r.gain ≤ i) : r.edit sheet i = sheet (i - r.gain + r.loss) := by
  unfold edit
  rw [if_neg (by omega), if_neg (by omega)]

/-- A record of no lines leaves all lines alone. -/
theorem edit_of_count_eq_zero (h : r.count = 0) : r.edit sheet = sheet := by
  funext i
  have hgain : r.gain = 0 := by simp [gain, h]
  have hloss : r.loss = 0 := by simp [loss, h]
  rcases Nat.lt_or_ge i r.line with hlt | hge
  · exact edit_of_lt hlt
  · rw [edit_of_ge (by omega), hgain, hloss]
    rfl

/-- Old lines after a record are those that it does not take out. -/
theorem exists_edit_eq_old_iff :
    (∃ i, r.edit sheet i = .old j) ↔
      ∃ i, sheet i = .old j ∧ ¬(r.line ≤ i ∧ i < r.line + r.loss) := by
  have hone : r.gain = 0 ∨ r.loss = 0 := by simp only [gain, loss]; omega
  constructor
  · rintro ⟨i, hi⟩
    rcases Nat.lt_or_ge i r.line with hlt | hge
    · rw [edit_of_lt hlt] at hi
      exact ⟨i, hi, by omega⟩
    · rcases Nat.lt_or_ge i (r.line + r.gain) with hmid | hback
      · rw [edit_of_mem hge hmid] at hi
        exact absurd hi (by simp)
      · rw [edit_of_ge hback] at hi
        exact ⟨_, hi, by omega⟩
  · rintro ⟨i, hi, hout⟩
    rcases Nat.lt_or_ge i r.line with hlt | hge
    · exact ⟨i, (edit_of_lt hlt).trans hi⟩
    · refine ⟨i - r.loss + r.gain, (edit_of_ge (by omega)).trans ?_⟩
      rwa [show i - r.loss + r.gain - r.gain + r.loss = i by omega]

/-! ## All records -/

/-- No old line is in two places. -/
def Distinct (sheet : ℕ → LineOrigin) : Prop :=
  ∀ {i i' j : ℕ}, sheet i = .old j → sheet i' = .old j → i = i'

theorem Distinct.edit (h : Distinct sheet) : Distinct (r.edit sheet) := by
  -- where a line that is still there was before the record
  have hbefore : ∀ {i j : ℕ}, r.edit sheet i = .old j →
      i < r.line ∧ sheet i = .old j ∨ r.line + r.gain ≤ i ∧ sheet (i - r.gain + r.loss) = .old j := by
    intro i j hi
    rcases Nat.lt_or_ge i r.line with hlt | hge
    · exact .inl ⟨hlt, (edit_of_lt hlt).symm.trans hi⟩
    · rcases Nat.lt_or_ge i (r.line + r.gain) with hmid | hback
      · rw [edit_of_mem hge hmid] at hi
        exact absurd hi (by simp)
      · exact .inr ⟨hback, (edit_of_ge hback).symm.trans hi⟩
  intro i i' j hi hi'
  rcases hbefore hi with ⟨hlt, hi⟩ | ⟨hge, hi⟩ <;> rcases hbefore hi' with ⟨hlt', hi'⟩ | ⟨hge', hi'⟩
  all_goals
    have := h hi hi'
    omega

theorem sheetAfter_concat : sheetAfter (records ++ [r]) = r.edit (sheetAfter records) := by
  unfold sheetAfter
  rw [List.foldl_append]
  rfl

theorem distinct_sheetAfter (records : List LineRecord) : Distinct (sheetAfter records) := by
  induction records using List.reverseRecOn with
  | nil =>
    intro i i' j hi hi'
    cases hi
    cases hi'
    rfl
  | append_singleton records r ih =>
    rw [sheetAfter_concat]
    exact ih.edit

theorem deleted_concat_iff :
    Deleted (records ++ [r]) j ↔
      Deleted records j ∨ ∃ i, r.line ≤ i ∧ i < r.line + r.loss ∧ sheetAfter records i = .old j := by
  constructor
  · rintro ⟨before, r', after, hsplit, hi⟩
    rcases List.eq_nil_or_concat after with rfl | ⟨after, last, rfl⟩
    · obtain ⟨rfl, hr⟩ := List.append_inj' hsplit rfl
      cases hr
      exact .inr hi
    · rw [List.concat_eq_append, ← List.cons_append, ← List.append_assoc] at hsplit
      obtain ⟨rfl, -⟩ := List.append_inj' hsplit rfl
      exact .inl ⟨before, r', after, rfl, hi⟩
  · rintro (⟨before, r', after, rfl, hi⟩ | hi)
    · exact ⟨before, r', after ++ [r], by simp, hi⟩
    · exact ⟨records, r, [], rfl, hi⟩

/-- **An old line is still there, or one of the records took it out**, but not both. -/
theorem exists_old_iff : (∃ i, sheetAfter records i = .old j) ↔ ¬Deleted records j := by
  induction records using List.reverseRecOn with
  | nil =>
    refine iff_of_true ⟨j, rfl⟩ ?_
    rintro ⟨before, r, after, hsplit, -⟩
    simp at hsplit
  | append_singleton records r ih =>
    rw [sheetAfter_concat, exists_edit_eq_old_iff, deleted_concat_iff, not_or, ← ih]
    constructor
    · rintro ⟨i, hi, hout⟩
      refine ⟨⟨i, hi⟩, ?_⟩
      rintro ⟨i', hge, hlt, hi'⟩
      have hsame := distinct_sheetAfter records hi hi'
      exact hout ⟨by omega, by omega⟩
    · rintro ⟨⟨i, hi⟩, hout⟩
      exact ⟨i, hi, fun hin => hout ⟨i, hin.1, hin.2, hi⟩⟩

/-- Lines that are not old ones were put in by one of the records. -/
theorem mem_of_sheetAfter_eq_put (h : sheetAfter records i = .put r) : r ∈ records := by
  induction records using List.reverseRecOn generalizing i with
  | nil => cases h
  | append_singleton records r' ih =>
    rw [sheetAfter_concat] at h
    rcases Nat.lt_or_ge i r'.line with hlt | hge
    · rw [edit_of_lt hlt] at h
      exact List.mem_append_left _ (ih h)
    · rcases Nat.lt_or_ge i (r'.line + r'.gain) with hmid | hback
      · rw [edit_of_mem hge hmid] at h
        cases h
        exact List.mem_append_right _ List.mem_cons_self
      · rw [edit_of_ge hback] at h
        exact List.mem_append_left _ (ih h)

/-- A record is a splice. -/
theorem spliced {c c' : ℕ} (hroom : r.line + r.loss ≤ c) (hcount : c' + r.loss = c + r.gain) :
    Lines.Spliced ⟨sheet, c⟩ ⟨r.edit sheet, c'⟩ r.line r.loss r.gain := by
  refine ⟨fun i hi => edit_of_lt hi, fun i => ?_, hroom, hcount⟩
  dsimp only
  rw [edit_of_ge (by omega)]
  congr 1
  omega

end LineRecord

/-! ## Lines on one side of an alignment -/

/-- How many more lines there are up to the end of the modification than there were. -/
def LineModification.offset (m : LineModification) : ℤ :=
  (m.newLine + m.added : ℤ) - (m.oldLine + m.removed)

namespace Lines

variable {α : Type} {a b : Lines α} {o n i j : ℕ} {mods : List LineModification}

theorem Aligned.le_oldLine (h : Aligned a b o n mods) : ∀ m ∈ mods, o ≤ m.oldLine := by
  induction mods generalizing o n with
  | nil => simp
  | cons m mods ih =>
    obtain ⟨gap, ho, -, -, h⟩ := h
    refine List.forall_mem_cons.2 ⟨by omega, fun m' hm' => ?_⟩
    have := ih h m' hm'
    omega

/-- The modifications are in order and apart from each other on both sides. -/
theorem Aligned.pairwise (h : Aligned a b o n mods) :
    mods.Pairwise fun m m' =>
      m.oldLine + m.removed ≤ m'.oldLine ∧ m.newLine + m.added ≤ m'.newLine := by
  induction mods generalizing o n with
  | nil => exact .nil
  | cons m mods ih =>
    obtain ⟨-, -, -, -, h⟩ := h
    exact List.pairwise_cons.2 ⟨fun m' hm' => ⟨h.le_oldLine m' hm', h.le_newLine m' hm'⟩, ih h⟩

theorem Aligned.balance (h : Aligned a b o n mods) :
    a.count + n + addedIn mods = b.count + o + removedIn mods := by
  induction mods generalizing o n with
  | nil => obtain ⟨gap, ho, hn, -⟩ := h; simp only [addedIn, removedIn, List.map_nil, List.sum_nil]; omega
  | cons m mods ih =>
    obtain ⟨gap, ho, hn, -, h⟩ := h
    have := ih h
    rw [addedIn_cons, removedIn_cons]
    omega

/-- Behind each modification the two sides are less far apart than the modifications put in and take
out. -/
theorem Aligned.mem_near {m : LineModification} {k : ℕ} (h : Aligned a b 0 0 mods) (hm : m ∈ mods)
    (hremoved : removedIn mods < k) (hadded : addedIn mods < k) :
    m.oldLine + m.removed < m.newLine + m.added + k ∧
      m.newLine + m.added < m.oldLine + m.removed + k := by
  obtain ⟨before, after, rfl⟩ := List.append_of_mem hm
  obtain ⟨o, n, hpath, gap, ho, hn, -⟩ := Aligned.append_iff.1 h
  have := hpath.balance
  rw [removedIn_append, removedIn_cons] at hremoved
  rw [addedIn_append, addedIn_cons] at hadded
  omega

/-- A new line is one that a modification put in, or an old line that none took out. -/
theorem Aligned.new_cases (h : Aligned a b o n mods) (hi : n ≤ i) :
    (∃ m ∈ mods, m.newLine ≤ i ∧ i < m.newLine + m.added) ∨
      ∃ j, o ≤ j ∧ a.line j = b.line i ∧ ∀ m ∈ mods, ¬(m.oldLine ≤ j ∧ j < m.oldLine + m.removed) := by
  induction mods generalizing o n with
  | nil =>
    obtain ⟨gap, -, -, hs⟩ := h
    refine .inr ⟨o + (i - n), by omega, ?_, by simp⟩
    rw [hs, Nat.add_sub_cancel' hi]
  | cons m mods ih =>
    obtain ⟨gap, ho, hn, hs, h⟩ := h
    rcases Nat.lt_or_ge i m.newLine with hlt | hge
    · -- in front of the first modification
      refine .inr ⟨o + (i - n), by omega, ?_, fun m' hm' => ?_⟩
      · rw [hs (i - n) (by omega), Nat.add_sub_cancel' hi]
      · rcases List.mem_cons.1 hm' with rfl | hm'
        · omega
        · have := h.le_oldLine m' hm'
          omega
    · rcases Nat.lt_or_ge i (m.newLine + m.added) with hmid | hback
      · exact .inl ⟨m, List.mem_cons_self, hge, hmid⟩
      · rcases ih h hback with ⟨m', hm', hin⟩ | ⟨j, hj, hline, hout⟩
        · exact .inl ⟨m', List.mem_cons_of_mem m hm', hin⟩
        · exact .inr ⟨j, by omega, hline, List.forall_mem_cons.2 ⟨by omega, hout⟩⟩

/-- The modifications that end at or in front of an old line. -/
def passed (mods : List LineModification) (j : ℕ) : List LineModification :=
  mods.filter fun m => m.oldLine + m.removed ≤ j

/-- An old line is one that a modification took out, or it moved as the lines behind the last
modification in front of it. -/
theorem Aligned.old_cases (h : Aligned a b o n mods) (hj : o ≤ j) :
    (∃ m ∈ mods, m.oldLine ≤ j ∧ j < m.oldLine + m.removed) ∨
      ∃ i, a.line j = b.line i ∧ (i : ℤ) = j + ((passed mods j).getLast?.map (·.offset)).getD (n - o) := by
  induction mods generalizing o n with
  | nil =>
    obtain ⟨gap, -, -, hs⟩ := h
    refine .inr ⟨n + (j - o), ?_, ?_⟩
    · rw [← hs, Nat.add_sub_cancel' hj]
    · simp only [passed, List.filter_nil, List.getLast?_nil, Option.map_none, Option.getD_none]
      omega
  | cons m mods ih =>
    obtain ⟨gap, ho, hn, hs, h⟩ := h
    rcases Nat.lt_or_ge j m.oldLine with hlt | hge
    · -- in front of the first modification there is none to have passed
      have hnone : passed (m :: mods) j = [] := by
        refine List.filter_eq_nil_iff.2 (List.forall_mem_cons.2 ⟨?_, fun m' hm' => ?_⟩)
        · simp only [decide_eq_true_eq]
          omega
        · have := h.le_oldLine m' hm'
          simp only [decide_eq_true_eq]
          omega
      refine .inr ⟨n + (j - o), ?_, ?_⟩
      · rw [← hs (j - o) (by omega), Nat.add_sub_cancel' hj]
      · rw [hnone]
        simp only [List.getLast?_nil, Option.map_none, Option.getD_none]
        omega
    · rcases Nat.lt_or_ge j (m.oldLine + m.removed) with hmid | hback
      · exact .inl ⟨m, List.mem_cons_self, hge, hmid⟩
      · rcases ih h hback with ⟨m', hm', hin⟩ | ⟨i, hline, hi⟩
        · exact .inl ⟨m', List.mem_cons_of_mem m hm', hin⟩
        · refine .inr ⟨i, hline, ?_⟩
          -- the first modification counts where no later one was passed
          have hfirst : passed (m :: mods) j = m :: passed mods j :=
            List.filter_cons_of_pos (by simpa using hback)
          rw [hfirst, List.getLast?_cons, hi]
          cases (passed mods j).getLast? with
          | none =>
            simp only [Option.map_none, Option.getD_none, Option.map_some, Option.getD_some,
              LineModification.offset]
            omega
          | some m' => simp only [Option.map_some, Option.getD_some]

end Lines

namespace LineModification

open Lines LineRecord

variable {r : LineRecord} {records : List LineRecord} {sheet : ℕ → LineOrigin}
  {mods : List LineModification}

/-! ## The fold -/

/-- How many lines records put in. -/
def gains (records : List LineRecord) : ℕ := (records.map gain).sum

/-- How many lines records take out. -/
def losses (records : List LineRecord) : ℕ := (records.map loss).sum

/-- The lines that there were, `count` of them within reach. -/
def oldLines (count : ℕ) : Lines LineOrigin := ⟨.old, count⟩

/-- That a line was put in by a record. -/
def IsPut (origin : LineOrigin) : Prop := ∃ r, origin = .put r

/-- **The invariant of the fold of records.** With `records` still to come, the modifications align
the lines that there were, `c₀` of them within reach of all records, with those that there are, `c`
in number. They put in no other lines than fresh ones, and few enough. -/
structure Follows (c₀ : ℕ) (sheet : ℕ → LineOrigin) (mods : List LineModification)
    (records : List LineRecord) (c : ℕ) : Prop where
  tracks : Tracks (oldLines c₀) ⟨sheet, c⟩ mods
  tight : Tight IsPut ⟨sheet, c⟩ mods
  old_lt : c₀ < Count.bound
  new_lt : c + gains records < Count.bound
  room : Count.signedBound + losses records ≤ c
  added_lt : addedIn mods + gains records < Count.signedBound
  removed_lt : c₀ + addedIn mods + losses records < c + Count.signedBound

namespace Follows

variable {c₀ c : ℕ}

theorem removedIn_lt (h : Follows c₀ sheet mods records c) :
    removedIn mods < Count.signedBound := by
  have hbalance := h.tracks.aligned.balance
  have hlt := h.removed_lt
  dsimp only [oldLines] at hbalance
  omega

theorem bounded (h : Follows c₀ sheet mods records c) :
    Bounded (oldLines c₀) ⟨sheet, c⟩ mods := by
  have hnew := h.new_lt
  have hadded := h.added_lt
  exact ⟨h.old_lt, by dsimp only; omega, .inr ⟨h.removedIn_lt, by omega⟩⟩

/-- **A single record.** -/
theorem exists_step (h : Follows c₀ sheet mods (r :: records) c) (hline : r.line < Count.signedBound) :
    ∃ mods' c', steps mods [r] = .ok mods' ∧ Follows c₀ (r.edit sheet) mods' records c' := by
  obtain ⟨htracks, htight, hold, hnew, hroom, hadded, hremoved⟩ := id h
  have hgains : gains (r :: records) = r.gain + gains records := by simp [gains]
  have hlosses : losses (r :: records) = r.loss + losses records := by simp [losses]
  rw [hgains] at hnew hadded
  rw [hlosses] at hroom hremoved
  rcases lt_trichotomy r.count 0 with hneg | hzero | hpos
  · -- lines go
    have hgain : r.gain = 0 := by unfold gain; omega
    have hcount : r.count = -(r.loss : ℤ) := by unfold loss; omega
    have hsplice : Lines.Spliced ⟨sheet, c⟩ ⟨r.edit sheet, c - r.loss⟩ r.line r.loss r.gain :=
      spliced (by omega) (by omega)
    rw [hgain] at hsplice
    obtain ⟨mods', hmods, htracks', hgained⟩ :=
      exists_steps_remove htracks h.bounded hsplice (by omega)
    rw [← hcount] at hmods
    have hle := hgained.added_le
    refine ⟨mods', c - r.loss, hmods, htracks', hgained.tight htight (by simp), hold, ?_, ?_, ?_, ?_⟩
    all_goals omega
  · -- nothing happens
    have hgain : r.gain = 0 := by unfold gain; omega
    have hloss : r.loss = 0 := by unfold loss; omega
    have hsteps : steps mods [r] = .ok mods := by
      unfold steps step
      rw [List.foldlM_cons, if_pos hzero]
      rfl
    refine ⟨mods, c, hsteps, ?_⟩
    rw [edit_of_count_eq_zero hzero]
    exact ⟨htracks, htight, hold, by omega, by omega, by omega, by omega⟩
  · -- lines come in
    have hloss : r.loss = 0 := by unfold loss; omega
    have hcount : r.count = (r.gain : ℤ) := by unfold gain; omega
    have hsplice : Lines.Spliced ⟨sheet, c⟩ ⟨r.edit sheet, c + r.gain⟩ r.line r.loss r.gain :=
      spliced (by omega) (by omega)
    rw [hloss] at hsplice
    obtain ⟨mods', hmods, htracks', hgained⟩ :=
      exists_steps_insert htracks h.bounded (by dsimp only; omega) hsplice (by omega)
    rw [← hcount] at hmods
    have hle := hgained.added_le
    have hfresh : ∀ i < r.gain, IsPut (r.edit sheet (r.line + i)) := fun i hi =>
      ⟨r, edit_of_mem (by omega) (by omega)⟩
    refine ⟨mods', c + r.gain, hmods, htracks', hgained.tight htight hfresh, hold, ?_, ?_, ?_, ?_⟩
    all_goals omega

/-- **All records.** -/
theorem exists_steps (h : Follows c₀ sheet mods records c)
    (hline : ∀ r ∈ records, r.line < Count.signedBound) :
    ∃ mods' c', steps mods records = .ok mods' ∧
      Follows c₀ (records.foldl (fun sheet r => r.edit sheet) sheet) mods' [] c' := by
  induction records generalizing sheet mods c with
  | nil => exact ⟨mods, c, rfl, h⟩
  | cons r records ih =>
    obtain ⟨hr, hrest⟩ := List.forall_mem_cons.1 hline
    obtain ⟨mods₁, c₁, hmods₁, h₁⟩ := h.exists_step hr
    obtain ⟨mods', c', hmods', h'⟩ := ih h₁ hrest
    exact ⟨mods', c', (steps_append hmods₁).trans hmods', h'⟩

end Follows

/-- Before the first record. Lines are within reach up to where records may be, and as many more as
they take out. -/
theorem follows_old (h : (records.map (·.count.natAbs)).sum < Count.signedBound) :
    Follows (Count.signedBound + losses records) .old [] records
      (Count.signedBound + losses records) := by
  have hadd := Count.signedBound_add_self
  have hpos : 0 < Count.signedBound := by decide
  -- each record puts lines in or takes lines out
  have hsum : gains records + losses records = (records.map (·.count.natAbs)).sum := by
    have hone : ∀ r : LineRecord, r.gain + r.loss = r.count.natAbs := fun r => by
      unfold gain loss
      omega
    induction records with
    | nil => rfl
    | cons r records ih =>
      have := hone r
      simp only [gains, losses, List.map_cons, List.sum_cons] at h ih ⊢
      have := ih (by omega)
      omega
  have hnil : addedIn [] = 0 := rfl
  exact ⟨.nil (by dsimp only [oldLines]; omega), by simp [Tight], by omega, by omega, by omega,
    by omega, by omega⟩

/-! ## What the modifications say -/

/-- How far an old line that is still there moved: as far as the lines behind the last modification
to end at or in front of it. -/
def shiftAt (mods : List LineModification) (line : ℕ) : Except Fault ℤ :=
  match (passed mods line).getLast? with
  | none => .ok 0
  | some m => m.displacement

/-- **Modifications that say exactly what records did.** None is empty, they are in order and apart
from each other on both sides, and their ends and displacements are numbers. The old lines they name
are those that the records took out, the new lines those that the records put in. All other old lines
are where the modifications in front of them moved them to, and nowhere else. -/
structure Exact (records : List LineRecord) (mods : List LineModification) : Prop where
  nonempty : ∀ m ∈ mods, 0 < m.removed ∨ 0 < m.added
  ordered : mods.Pairwise fun m m' =>
    m.oldLine + m.removed ≤ m'.oldLine ∧ m.newLine + m.added ≤ m'.newLine
  ends : ∀ m ∈ mods, m.oldEnd = .ok (m.oldLine + m.removed) ∧ m.newEnd = .ok (m.newLine + m.added) ∧
    m.displacement = .ok m.offset
  removed_iff : ∀ j, (∃ m ∈ mods, m.oldLine ≤ j ∧ j < m.oldLine + m.removed) ↔ Deleted records j
  added_iff : ∀ i, (∃ m ∈ mods, m.newLine ≤ i ∧ i < m.newLine + m.added) ↔
    ∃ r ∈ records, sheetAfter records i = .put r
  kept : ∀ j, ¬Deleted records j → ∃ (i : ℕ) (d : ℤ), shiftAt mods j = .ok d ∧ (i : ℤ) = j + d ∧
    ∀ i', sheetAfter records i' = .old j ↔ i' = i

theorem Follows.exact {c₀ c : ℕ} (h : Follows c₀ (sheetAfter records) mods [] c) :
    Exact records (mods.filter (!·.isEmpty)) := by
  have haligned := h.tracks.aligned.filter
  have hends : ∀ m ∈ mods.filter (!·.isEmpty), m.oldEnd = .ok (m.oldLine + m.removed) ∧
      m.newEnd = .ok (m.newLine + m.added) ∧ m.displacement = .ok m.offset := by
    intro m hm
    have hmem := List.mem_of_mem_filter hm
    have hcount := h.tracks.aligned.mem_le_count m hmem
    have hnear := h.tracks.aligned.mem_near hmem h.removedIn_lt
      (Nat.lt_of_le_of_lt (Nat.le_add_right _ _) h.added_lt)
    have hold := h.bounded.old_lt
    have hnew := h.bounded.new_lt
    refine ⟨oldEnd_eq (by omega), newEnd_eq (by omega), ?_⟩
    have := displacement_eq rfl rfl (by omega) (by omega) hnear
    push_cast at this
    exact this
  have htight : ∀ m ∈ mods.filter (!·.isEmpty), ∀ i, m.newLine ≤ i → i < m.newLine + m.added →
      IsPut (sheetAfter records i) := fun m hm => h.tight m (List.mem_of_mem_filter hm)
  have hnonempty : ∀ m ∈ mods.filter (!·.isEmpty), 0 < m.removed ∨ 0 < m.added := by
    intro m hm
    have hm := (List.mem_filter.1 hm).2
    simp only [isEmpty, Bool.not_eq_true', Bool.and_eq_false_iff, beq_eq_false_iff_ne] at hm
    omega
  generalize mods.filter (!·.isEmpty) = mods at *
  have hremoved : ∀ j, (∃ m ∈ mods, m.oldLine ≤ j ∧ j < m.oldLine + m.removed) ↔
      Deleted records j := by
    intro j
    constructor
    · rintro ⟨m, hm, hin⟩
      by_contra hkept
      -- a line that is still there is not among the new lines and so comes from outside of `m`
      obtain ⟨i, hi⟩ := exists_old_iff.2 hkept
      rcases haligned.new_cases (Nat.zero_le i) with ⟨m', hm', hin'⟩ | ⟨j', -, hline, hout⟩
      · obtain ⟨r, hr⟩ := htight m' hm' i hin'.1 hin'.2
        rw [hi] at hr
        exact absurd hr (by simp)
      · have hj : LineOrigin.old j' = .old j := hline.trans hi
        cases hj
        exact hout m hm hin
    · intro hdeleted
      rcases haligned.old_cases (Nat.zero_le j) with hin | ⟨i, hline, -⟩
      · exact hin
      · exact absurd hdeleted (exists_old_iff.1 ⟨i, hline.symm⟩)
  refine ⟨hnonempty, haligned.pairwise, hends, hremoved, fun i => ?_, fun j hj => ?_⟩
  · constructor
    · rintro ⟨m, hm, hin⟩
      obtain ⟨r, hr⟩ := htight m hm i hin.1 hin.2
      exact ⟨r, mem_of_sheetAfter_eq_put hr, hr⟩
    · rintro ⟨r, -, hr⟩
      rcases haligned.new_cases (Nat.zero_le i) with hin | ⟨j, -, hline, -⟩
      · exact hin
      · have hold : LineOrigin.old j = .put r := hline.trans hr
        exact absurd hold (by simp)
  · rcases haligned.old_cases (Nat.zero_le j) with hin | ⟨i, hline, hi⟩
    · exact absurd ((hremoved j).1 hin) hj
    · refine ⟨i, _, ?_, hi, fun i' => ⟨fun hi' => ?_, fun hi' => hi' ▸ hline.symm⟩⟩
      · unfold shiftAt
        cases hlast : (passed mods j).getLast? with
        | none => rfl
        | some m => exact (hends m (List.mem_of_mem_filter (List.mem_of_getLast? hlast))).2.2
      · exact distinct_sheetAfter records hi' hline.symm

/-- **The fold of line records is exact.** There is no fault for records of lines below `2 ^ 63` that
are about less than `2 ^ 63` lines together, and the modifications say exactly which old lines the
records took out, which of the final lines they put in, and where all others are. -/
theorem exists_fold_exact {records : List LineRecord}
    (hline : ∀ r ∈ records, r.line < Count.signedBound)
    (hcount : (records.map (·.count.natAbs)).sum < Count.signedBound) :
    ∃ mods, fold records = .ok mods ∧ Exact records mods := by
  obtain ⟨mods, c, hmods, hfollows⟩ := (follows_old hcount).exists_steps hline
  refine ⟨_, ?_, hfollows.exact⟩
  unfold fold
  unfold steps at hmods
  rw [hmods]
  rfl

/-- Two lines are put in at line 4, then lines 3 and 4 are taken out: an old one and a fresh one. -/
theorem exists_fold_exact_sample :
    fold [⟨4, 2⟩, ⟨3, -2⟩] = .ok [⟨3, 3, 1, 1⟩] ∧ Exact [⟨4, 2⟩, ⟨3, -2⟩] [⟨3, 3, 1, 1⟩] := by
  obtain ⟨mods, hmods, hexact⟩ :=
    @exists_fold_exact [⟨4, 2⟩, ⟨3, -2⟩] (by decide) (by decide)
  have heval : fold [⟨4, 2⟩, ⟨3, -2⟩] = .ok [⟨3, 3, 1, 1⟩] := by decide
  cases hmods.symm.trans heval
  exact ⟨heval, hexact⟩

end LineModification

end Caret
