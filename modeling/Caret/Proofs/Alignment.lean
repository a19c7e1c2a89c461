import Mathlib.Algebra.Order.BigOperators.Group.List
import Mathlib.Algebra.Order.Ring.Nat
import Mathlib.Data.List.Chain
import Mathlib.Data.List.TakeWhile
import Caret.Proofs.Fault
import Caret.Line.Modification

/-!
# Folding line records

Modifications align two sequences of lines: in front of each modification and behind the last one
the lines are the same on both sides. Folding a record into the modifications since some time keeps
them aligned with the lines of that time.

* `Lines.Aligned`: the invariant of the fold.
* `LineModification.exists_focus`: where a record goes in.
* `LineModification.exists_steps_insert`, `LineModification.exists_steps_remove`: what lines put in
  and taken out do to the modifications.
* `Lines.Aligned.patches`: what is left of the fold in the end accounts for how the old lines became
  the new ones.
-/

namespace Caret

/-- The modification once lines in front of its own gave way to others. -/
def LineModification.moved (m : LineModification) (removed added : ℕ) : LineModification :=
  { m with newLine := m.newLine - removed + added }

/-- Lines by number, and how many there are. -/
structure Lines (α : Type) where
  line : ℕ → α
  count : ℕ

namespace Lines

variable {α : Type} {a b b' : Lines α} {o n o' n' : ℕ} {m : LineModification}
  {mods mods' : List LineModification}

/-- `gap` lines are the same from line `o` on and from line `n` on. -/
def Same (a b : Lines α) (o n gap : ℕ) : Prop := ∀ i < gap, a.line (o + i) = b.line (n + i)

/-- **Modifications that align two sequences of lines** from lines `o` and `n` on. -/
def Aligned (a b : Lines α) : ℕ → ℕ → List LineModification → Prop
  | o, n, [] => ∃ gap, a.count = o + gap ∧ b.count = n + gap ∧ ∀ i, a.line (o + i) = b.line (n + i)
  | o, n, m :: mods => ∃ gap, m.oldLine = o + gap ∧ m.newLine = n + gap ∧ Same a b o n gap ∧
      Aligned a b (m.oldLine + m.removed) (m.newLine + m.added) mods

/-- As `Aligned`, up to the lines `o'` and `n'` behind the last modification. -/
def Path (a b : Lines α) : ℕ → ℕ → List LineModification → ℕ → ℕ → Prop
  | o, n, [], o', n' => o = o' ∧ n = n'
  | o, n, m :: mods, o', n' => ∃ gap, m.oldLine = o + gap ∧ m.newLine = n + gap ∧
      Same a b o n gap ∧ Path a b (m.oldLine + m.removed) (m.newLine + m.added) mods o' n'

/-- Lines `line` to `line + removed` give way to `added` others. -/
structure Spliced (b b' : Lines α) (line removed added : ℕ) : Prop where
  before : ∀ i < line, b'.line i = b.line i
  after : ∀ i, b'.line (line + added + i) = b.line (line + removed + i)
  room : line + removed ≤ b.count
  count : b'.count + removed = b.count + added

theorem Same.mono {gap gap' : ℕ} (h : Same a b o n gap) (hle : gap' ≤ gap) : Same a b o n gap' :=
  fun i hi => h i (Nat.lt_of_lt_of_le hi hle)

theorem Same.drop {gap d : ℕ} (h : Same a b o n gap) : Same a b (o + d) (n + d) (gap - d) :=
  fun i hi => by
    rw [Nat.add_assoc, Nat.add_assoc]
    exact h (d + i) (by omega)

theorem Same.append {gap gap' : ℕ} (h : Same a b o n gap) (h' : Same a b (o + gap) (n + gap) gap') :
    Same a b o n (gap + gap') := fun i hi => by
  rcases Nat.lt_or_ge i gap with hlt | hge
  · exact h i hlt
  · have := h' (i - gap) (by omega)
    rwa [Nat.add_assoc, Nat.add_assoc, Nat.add_sub_cancel' hge] at this

theorem Path.append_iff {mods mods' : List LineModification} {o₂ n₂ : ℕ} :
    Path a b o n (mods ++ mods') o₂ n₂ ↔
      ∃ o' n', Path a b o n mods o' n' ∧ Path a b o' n' mods' o₂ n₂ := by
  induction mods generalizing o n with
  | nil =>
    simp only [List.nil_append, Path]
    exact ⟨fun h => ⟨o, n, ⟨rfl, rfl⟩, h⟩, fun ⟨_, _, ⟨ho, hn⟩, h⟩ => ho ▸ hn ▸ h⟩
  | cons m mods ih =>
    simp only [List.cons_append, Path, ih]
    constructor
    · rintro ⟨gap, h1, h2, h3, o', n', h4, h5⟩
      exact ⟨o', n', ⟨gap, h1, h2, h3, h4⟩, h5⟩
    · rintro ⟨o', n', ⟨gap, h1, h2, h3, h4⟩, h5⟩
      exact ⟨gap, h1, h2, h3, o', n', h4, h5⟩

theorem Aligned.append_iff {mods mods' : List LineModification} :
    Aligned a b o n (mods ++ mods') ↔
      ∃ o' n', Path a b o n mods o' n' ∧ Aligned a b o' n' mods' := by
  induction mods generalizing o n with
  | nil =>
    simp only [List.nil_append, Path]
    exact ⟨fun h => ⟨o, n, ⟨rfl, rfl⟩, h⟩, fun ⟨_, _, ⟨ho, hn⟩, h⟩ => ho ▸ hn ▸ h⟩
  | cons m mods ih =>
    simp only [List.cons_append, Aligned, Path, ih]
    constructor
    · rintro ⟨gap, h1, h2, h3, o', n', h4, h5⟩
      exact ⟨o', n', ⟨gap, h1, h2, h3, h4⟩, h5⟩
    · rintro ⟨o', n', ⟨gap, h1, h2, h3, h4⟩, h5⟩
      exact ⟨gap, h1, h2, h3, o', n', h4, h5⟩

/-- The lines behind the last modification are the same. -/
theorem Aligned.same (h : Aligned a b o n []) :
    ∃ gap, a.count = o + gap ∧ b.count = n + gap ∧ Same a b o n gap := by
  obtain ⟨gap, ho, hn, hs⟩ := h
  exact ⟨gap, ho, hn, fun i _ => hs i⟩

/-- The lines from which modifications align are there. -/
theorem Aligned.le_count (h : Aligned a b o n mods) : o ≤ a.count ∧ n ≤ b.count := by
  induction mods generalizing o n with
  | nil => obtain ⟨gap, ho, hn, -⟩ := h; omega
  | cons m mods ih => obtain ⟨gap, ho, hn, -, h⟩ := h; have := ih h; omega

theorem Aligned.le_newLine (h : Aligned a b o n mods) : ∀ m ∈ mods, n ≤ m.newLine := by
  induction mods generalizing o n with
  | nil => simp
  | cons m mods ih =>
    obtain ⟨gap, -, hn, -, h⟩ := h
    refine List.forall_mem_cons.2 ⟨by omega, fun m' hm' => ?_⟩
    have := ih h m' hm'
    omega

theorem Path.le (h : Path a b o n mods o' n') : o ≤ o' ∧ n ≤ n' := by
  induction mods generalizing o n with
  | nil => exact ⟨Nat.le_of_eq h.1, Nat.le_of_eq h.2⟩
  | cons m mods ih => obtain ⟨gap, ho, hn, -, h⟩ := h; have := ih h; omega

theorem Path.mem_le (h : Path a b o n mods o' n') : ∀ m ∈ mods, m.newLine + m.added ≤ n' := by
  induction mods generalizing o n with
  | nil => simp
  | cons m mods ih =>
    obtain ⟨-, -, -, -, h⟩ := h
    exact List.forall_mem_cons.2 ⟨h.le.2, ih h⟩

/-- How many lines modifications take out. -/
def removedIn (mods : List LineModification) : ℕ := (mods.map (·.removed)).sum

/-- How many lines modifications put in. -/
def addedIn (mods : List LineModification) : ℕ := (mods.map (·.added)).sum

@[simp] theorem removedIn_append : removedIn (mods ++ mods') = removedIn mods + removedIn mods' := by
  simp [removedIn]

@[simp] theorem addedIn_append : addedIn (mods ++ mods') = addedIn mods + addedIn mods' := by
  simp [addedIn]

@[simp] theorem removedIn_cons : removedIn (m :: mods) = m.removed + removedIn mods := by
  simp [removedIn]

@[simp] theorem addedIn_cons : addedIn (m :: mods) = m.added + addedIn mods := by
  simp [addedIn]

/-- The two sides are as far apart as the modifications put in and take out. -/
theorem Path.balance (h : Path a b o n mods o' n') :
    o' + n + addedIn mods = n' + o + removedIn mods := by
  induction mods generalizing o n with
  | nil => obtain ⟨rfl, rfl⟩ := h; simp [addedIn, removedIn, Nat.add_comm]
  | cons m mods ih =>
    obtain ⟨gap, ho, hn, -, h⟩ := h
    have := ih h
    rw [addedIn_cons, removedIn_cons]
    omega

/-- Alignment further on in the lines that are the same in front of the first modification. -/
theorem Aligned.skip (h : Aligned a b o n mods) {line : ℕ} (hn : n ≤ line) (hline : line ≤ b.count)
    (hmods : ∀ m ∈ mods, line ≤ m.newLine) :
    Same a b o n (line - n) ∧ Aligned a b (o + (line - n)) line mods := by
  cases mods with
  | nil =>
    obtain ⟨gap, ha, hb, hs⟩ := h
    refine ⟨fun i _ => hs i, gap - (line - n), by omega, by omega, fun i => ?_⟩
    have := hs (line - n + i)
    rwa [← Nat.add_assoc, ← Nat.add_assoc, Nat.add_sub_cancel' hn] at this
  | cons m mods =>
    obtain ⟨gap, ha, hb, hs, h⟩ := h
    have := hmods m List.mem_cons_self
    refine ⟨hs.mono (by omega), gap - (line - n), by omega, by omega, ?_, h⟩
    have := hs.drop (d := line - n)
    rwa [Nat.add_sub_cancel' hn] at this

/-- Alignment further up in lines that are the same. -/
theorem Aligned.extend {gap : ℕ} (h : Aligned a b (o + gap) (n + gap) mods) (hs : Same a b o n gap) :
    Aligned a b o n mods := by
  cases mods with
  | nil =>
    obtain ⟨gap', ha, hb, hs'⟩ := h
    refine ⟨gap + gap', by omega, by omega, fun i => ?_⟩
    exact hs.append (fun i _ => hs' i) i (Nat.lt_add_left gap i.lt_succ_self)
  | cons m mods =>
    obtain ⟨gap', ha, hb, hs', h⟩ := h
    exact ⟨gap + gap', by omega, by omega, hs.append hs', h⟩

/-- Modifications that end in front of a splice are not concerned by it. -/
theorem Path.splice {line removed added : ℕ} (h : Path a b o n mods o' n')
    (hb : Spliced b b' line removed added) (hle : n' ≤ line) : Path a b' o n mods o' n' := by
  induction mods generalizing o n with
  | nil => exact h
  | cons m mods ih =>
    obtain ⟨gap, ho, hn, hs, h⟩ := h
    have := h.le
    refine ⟨gap, ho, hn, ?_, ih h⟩
    intro i hi
    rw [hs i hi, hb.before _ (by omega)]

/-- Modifications behind a splice move along with the lines. -/
theorem Aligned.splice {line removed added : ℕ} (h : Aligned a b o n mods)
    (hb : Spliced b b' line removed added) (hle : line + removed ≤ n) :
    Aligned a b' o (n - removed + added) (mods.map (·.moved removed added)) := by
  -- the lines in front of each of them and behind the last one
  have hline : ∀ {n : ℕ} (i : ℕ), line + removed ≤ n →
      b'.line (n - removed + added + i) = b.line (n + i) := by
    intro n i hle
    have := hb.after (n - removed - line + i)
    rw [show n - removed + added + i = line + added + (n - removed - line + i) by omega, this]
    congr 1
    omega
  induction mods generalizing o n with
  | nil =>
    obtain ⟨gap, ho, hn, hs⟩ := h
    have := hb.count
    exact ⟨gap, ho, by omega, fun i => (hs i).trans (hline i hle).symm⟩
  | cons m mods ih =>
    obtain ⟨gap, ho, hn, hs, h⟩ := h
    refine ⟨gap, ho, by dsimp only [LineModification.moved]; omega,
      fun i hi => (hs i hi).trans (hline i hle).symm, ?_⟩
    have := ih h (by omega)
    rwa [show m.newLine + m.added - removed + added = m.newLine - removed + added + m.added by omega]
      at this

theorem Aligned.mem_le_count (h : Aligned a b o n mods) :
    ∀ m ∈ mods, m.oldLine + m.removed ≤ a.count ∧ m.newLine + m.added ≤ b.count := by
  induction mods generalizing o n with
  | nil => simp
  | cons m mods ih =>
    obtain ⟨-, -, -, -, h⟩ := h
    exact List.forall_mem_cons.2 ⟨h.le_count, ih h⟩

/-- Where the last modification of a path is. -/
theorem Path.getLast (h : Path a b (m.oldLine + m.removed) (m.newLine + m.added) mods o' n') :
    m.oldLine ≤ (mods.getLast?.getD m).oldLine ∧
      (mods.getLast?.getD m).oldLine + (mods.getLast?.getD m).removed = o' ∧
      (mods.getLast?.getD m).newLine + (mods.getLast?.getD m).added = n' := by
  rcases List.eq_nil_or_concat mods with rfl | ⟨init, last, rfl⟩
  · exact ⟨le_rfl, h⟩
  · rw [List.concat_eq_append] at h ⊢
    rw [Path.append_iff] at h
    obtain ⟨o, n, hinit, gap, ho, hn, -, h⟩ := h
    have := hinit.le
    rw [List.getLast?_concat]
    exact ⟨by dsimp only [Option.getD_some]; omega, h⟩

/-- Only modifications that take lines out leave no old lines in front of the end. -/
theorem Aligned.old_pos (h : Aligned a b o n mods) (hn : n = b.count) (hpos : 0 < a.count)
    (hnext : ∀ m ∈ mods.head?, n = m.newLine → 0 < o) : 0 < o := by
  cases mods with
  | nil => obtain ⟨gap, ho, hn', -⟩ := h; omega
  | cons m mods =>
    have hcount := h.mem_le_count m List.mem_cons_self
    obtain ⟨gap, -, hm, -⟩ := h
    exact hnext m rfl (by omega)

namespace Spliced

variable {line removed added : ℕ}

theorem symm (h : Spliced b b' line removed added) : Spliced b' b line added removed := by
  have hroom := h.room
  have hcount := h.count
  exact ⟨fun i hi => (h.before i hi).symm, fun i => (h.after i).symm, by omega, hcount.symm⟩

/-- Lines that give way to others go first, and the others come then. -/
theorem split (h : Spliced b b' line removed added) :
    ∃ c, Spliced b c line removed 0 ∧ Spliced c b' line 0 added := by
  have hroom := h.room
  have hcount := h.count
  -- the lines in between: those of `b` without the ones that go
  refine ⟨⟨fun i => if i < line then b.line i else b.line (removed + i), b.count - removed⟩,
    ⟨fun i hi => if_pos hi, ?_, hroom, by dsimp only; omega⟩,
    ⟨fun i hi => (h.before i hi).trans (if_pos hi).symm, ?_, by dsimp only; omega,
      by dsimp only; omega⟩⟩
  · intro i
    rw [show line + removed + i = removed + (line + 0 + i) by omega]
    exact if_neg (by omega)
  · intro i
    rw [h.after i, show line + removed + i = removed + (line + 0 + i) by omega]
    exact (if_neg (by omega)).symm

end Spliced

/-! ## The invariant of the fold -/

/-- Modifications only ever touch each other where the first one has taken lines out. -/
def Spaced (m m' : LineModification) : Prop := m.newLine + m.added = m'.newLine → 0 < m.removed

theorem isChain_moved {removed added : ℕ} (hle : ∀ m ∈ mods, removed ≤ m.newLine)
    (h : mods.IsChain Spaced) : (mods.map (·.moved removed added)).IsChain Spaced := by
  induction mods with
  | nil => exact h
  | cons m mods ih =>
    obtain ⟨hm, hmods⟩ := List.forall_mem_cons.1 hle
    obtain ⟨hnext, h⟩ := List.isChain_cons.1 h
    refine List.isChain_cons.2 ⟨fun m' hm' heq => ?_, ih hmods h⟩
    rw [List.head?_map, Option.mem_def, Option.map_eq_some_iff] at hm'
    obtain ⟨m₁, hm₁, rfl⟩ := hm'
    have := hmods m₁ (List.mem_of_mem_head? hm₁)
    refine hnext m₁ hm₁ ?_
    dsimp only [LineModification.moved] at heq
    omega

/-- There are not too many lines, and there are even fewer on either side, or only few of them are
put in and taken out. -/
structure Bounded (a b : Lines α) (mods : List LineModification) : Prop where
  old_lt : a.count < Count.bound
  new_lt : b.count < Count.bound
  few : a.count ≤ Count.signedBound ∧ b.count ≤ Count.signedBound ∨
    removedIn mods < Count.signedBound ∧ addedIn mods < Count.signedBound

theorem Bounded.of_le (ha : a.count ≤ Count.signedBound) (hb : b.count ≤ Count.signedBound) :
    Bounded a b mods := by
  have hadd := Count.signedBound_add_self
  have hpos : 0 < Count.signedBound := by decide
  exact ⟨by omega, by omega, .inl ⟨ha, hb⟩⟩

/-- Where modifications end, the two sides are not too far apart, unless all lines are on one of
them. -/
theorem Bounded.near (h : Bounded a b (mods ++ mods')) (hpath : Path a b 0 0 mods o n)
    (ho : o ≤ a.count) (hn : n ≤ b.count) (hold : 0 < n ∨ o < a.count) (hnew : 0 < o ∨ n < b.count) :
    o < n + Count.signedBound ∧ n < o + Count.signedBound := by
  have hbalance := hpath.balance
  rcases h.few with hfew | hfew
  · omega
  · rw [removedIn_append, addedIn_append] at hfew
    omega

/-- **The invariant of the fold.** The modifications align the lines of some earlier time with the
present ones. -/
structure Tracks (a b : Lines α) (mods : List LineModification) : Prop where
  aligned : Aligned a b 0 0 mods
  spaced : mods.IsChain Spaced
  old_pos : 0 < a.count

/-- Lines that have not changed yet. -/
theorem Tracks.nil (hpos : 0 < a.count) : Tracks a a [] :=
  ⟨⟨a.count, (Nat.zero_add _).symm, (Nat.zero_add _).symm, fun _ => rfl⟩, .nil, hpos⟩

/-- The lines that the modifications put in are ones that `fresh` holds of. -/
def Tight (fresh : α → Prop) (b : Lines α) (mods : List LineModification) : Prop :=
  ∀ m ∈ mods, ∀ i, m.newLine ≤ i → i < m.newLine + m.added → fresh (b.line i)

/-- Once `count` lines were put in at `line`, the modifications put in those as well, but nothing
else. -/
structure Gains (b b' : Lines α) (line count : ℕ) (mods mods' : List LineModification) : Prop where
  added_le : addedIn mods' ≤ addedIn mods + count
  tight : ∀ {fresh : α → Prop}, Tight fresh b mods → (∀ i < count, fresh (b'.line (line + i))) →
    Tight fresh b' mods'

end Lines

namespace LineModification

open Lines

variable {α : Type} {a b b' : Lines α} {m : LineModification} {mods : List LineModification}
  {line count : ℕ}

theorem newEnd_eq (h : m.newLine + m.added < Count.bound) : m.newEnd = .ok (m.newLine + m.added) :=
  Count.add_of_lt h

theorem oldEnd_eq (h : m.oldLine + m.removed < Count.bound) :
    m.oldEnd = .ok (m.oldLine + m.removed) :=
  Count.add_of_lt h

/-- Lines behind a modification move as far as it puts more lines in than it takes out. -/
theorem displacement_eq {o n : ℕ} (ho : m.oldLine + m.removed = o) (hn : m.newLine + m.added = n)
    (ho' : o < Count.bound) (hn' : n < Count.bound)
    (hnear : o < n + Count.signedBound ∧ n < o + Count.signedBound) :
    m.displacement = .ok ((n : ℤ) - o) := by
  subst ho hn
  unfold displacement
  rw [newEnd_eq hn', oldEnd_eq ho', Fault.ok_bind, Fault.ok_bind, Count.diff_eq hnear.2 hnear.1]

/-- Lines behind a modification lie as far behind it on the old side. -/
theorem oldLineOf_eq {o n : ℕ} (ho : m.oldLine + m.removed = o) (hn : m.newLine + m.added = n)
    (ho' : o < Count.bound) (hn' : n < Count.bound)
    (hnear : o < n + Count.signedBound ∧ n < o + Count.signedBound) (hline : n ≤ line)
    (hres : o + (line - n) < Count.bound) : m.oldLineOf line = .ok (o + (line - n)) := by
  unfold oldLineOf
  rw [displacement_eq ho hn ho' hn' hnear, Fault.ok_bind, Count.neg_of_lt (by omega), Fault.ok_bind]
  exact Count.shift_eq (by omega) hres

/-- All modifications, the one in focus among them. -/
def Focus.all (f : Focus) : List LineModification := f.before ++ f.current :: f.after

/-- A focus in modifications is on one of them, or on one that does nothing between two of them. -/
def Focus.In (f : Focus) (mods : List LineModification) : Prop :=
  f.all = mods ∨ f.before ++ f.after = mods ∧ f.current.removed = 0 ∧ f.current.added = 0

namespace Focus.In

variable {f : Focus}

theorem removedIn_eq (h : f.In mods) : removedIn f.all = removedIn mods := by
  rcases h with rfl | ⟨rfl, hremoved, -⟩
  · rfl
  · simp [Focus.all, hremoved]

theorem addedIn_eq (h : f.In mods) : addedIn f.all = addedIn mods := by
  rcases h with rfl | ⟨rfl, -, hadded⟩
  · rfl
  · simp [Focus.all, hadded]

theorem tight {fresh : α → Prop} (h : f.In mods) (ht : Tight fresh b mods) : Tight fresh b f.all := by
  rcases h with rfl | ⟨rfl, -, hadded⟩
  · exact ht
  · intro m hm i hi hlt
    rcases List.mem_append.1 hm with hm | hm
    · exact ht m (List.mem_append_left f.after hm) i hi hlt
    · rcases List.mem_cons.1 hm with rfl | hm
      · omega
      · exact ht m (List.mem_append_right f.before hm) i hi hlt

theorem bounded (h : f.In mods) (hb : Bounded a b mods) : Bounded a b f.all := by
  obtain ⟨hold, hnew, hfew⟩ := hb
  rw [← h.removedIn_eq, ← h.addedIn_eq] at hfew
  exact ⟨hold, hnew, hfew⟩

theorem gains {count : ℕ} {mods' : List LineModification} (h : f.In mods)
    (hg : Gains b b' line count f.all mods') : Gains b b' line count mods mods' := by
  refine ⟨?_, fun ht hfresh => hg.tight (h.tight ht) hfresh⟩
  have := hg.added_le
  rwa [h.addedIn_eq] at this

end Focus.In

/-- A focus at a line: it lies within the new lines of the modification in focus or right behind
them, and the others lie before or behind it. -/
structure Focus.At (a b : Lines α) (line : ℕ) (f : Focus) : Prop where
  front : ∃ o n gap, Path a b 0 0 f.before o n ∧ f.current.oldLine = o + gap ∧
    f.current.newLine = n + gap ∧ Same a b o n gap
  after : Aligned a b (f.current.oldLine + f.current.removed) (f.current.newLine + f.current.added)
    f.after
  le : f.current.newLine ≤ line
  ge : line ≤ f.current.newLine + f.current.added
  behind : ∀ m ∈ f.after, line < m.newLine
  spaced : f.all.IsChain Spaced

/-- What taking lines out comes to as long as all counts fit. -/
theorem Focus.removeLines_eq {f : Focus} {last : LineModification} {stop : ℕ}
    (hlast : (f.after.takeWhile (·.newLine < line + count)).getLast?.getD f.current = last)
    (hstop : stop = max (max (line + count) (f.current.newLine + f.current.added))
      (last.newLine + last.added))
    (hnear : last.oldLine + last.removed < last.newLine + last.added + Count.signedBound ∧
      last.newLine + last.added < last.oldLine + last.removed + Count.signedBound)
    (hnew : stop < Count.bound)
    (hold : last.oldLine + last.removed + (stop - (last.newLine + last.added)) < Count.bound)
    (hfirst : f.current.oldLine ≤ last.oldLine + last.removed) (hline : f.current.newLine ≤ line)
    (hrest : ∀ m ∈ f.after.dropWhile (·.newLine < line + count), count ≤ m.newLine) :
    LineModification.removeLines f line count = .ok ⟨f.before ++ { f.current with
      removed := last.oldLine + last.removed + (stop - (last.newLine + last.added)) - f.current.oldLine
      added := stop - f.current.newLine - count } ::
        (f.after.dropWhile (·.newLine < line + count)).map (·.moved count 0),
      (f.after.takeWhile (·.newLine < line + count)).length⟩ := by
  have hmoved : ∀ m ∈ f.after.dropWhile (·.newLine < line + count), (do
      return { m with newLine := ← Count.sub m.newLine count } : Except Fault LineModification) =
        .ok (m.moved count 0) := by
    intro m hm
    rw [Count.sub_of_le (hrest m hm)]
    rfl
  unfold LineModification.removeLines
  rw [Count.add_of_lt (by omega), Fault.ok_bind]
  dsimp only
  rw [hlast, newEnd_eq (by omega), Fault.ok_bind, newEnd_eq (by omega), Fault.ok_bind, ← hstop,
    oldLineOf_eq rfl rfl (by omega) (by omega) hnear (by omega) hold, Fault.ok_bind,
    Count.sub_of_le (by omega), Fault.ok_bind, Count.sub_of_le (by omega), Fault.ok_bind,
    Count.sub_of_le (by omega), Fault.ok_bind, Fault.mapM_eq_ok hmoved]
  rfl

/-- What the tests of a sorted list of modifications leave over lies behind. -/
theorem le_of_mem_dropWhile {o n : ℕ} {p : LineModification → Bool} {k : ℕ}
    (hp : ∀ m, p m = false → k ≤ m.newLine) (h : Aligned a b o n (mods.dropWhile p)) :
    ∀ m ∈ mods.dropWhile p, k ≤ m.newLine := by
  cases hd : mods.dropWhile p with
  | nil => simp
  | cons m rest =>
    rw [hd] at h
    obtain ⟨gap, -, -, -, h⟩ := h
    have hm : k ≤ m.newLine := hp m (by
      have := List.head?_dropWhile_not p mods
      rw [hd] at this
      simpa using this)
    refine List.forall_mem_cons.2 ⟨hm, fun m' hm' => ?_⟩
    have := h.le_newLine m' hm'
    omega

/-- A new modification, empty as yet, between others that do not reach to its line. -/
theorem Focus.At.fresh {o n : ℕ} {before after : List LineModification}
    (hpath : Path a b 0 0 before o n) (hafter : Aligned a b o n after) (hn : n ≤ line)
    (hline : line ≤ b.count) (hbehind : ∀ m ∈ after, line < m.newLine)
    (hspaced : (before ++ after).IsChain Spaced)
    (hshort : ∀ m ∈ before.getLast?, m.newLine + m.added < line) :
    Focus.At a b line ⟨before, ⟨o + (line - n), line, 0, 0⟩, after⟩ := by
  obtain ⟨hgap, hskip⟩ := hafter.skip hn hline fun m hm => (hbehind m hm).le
  have hline' : line = n + (line - n) := (Nat.add_sub_cancel' hn).symm
  refine ⟨⟨o, n, line - n, hpath, rfl, hline', hgap⟩, hskip, le_rfl, le_rfl, hbehind, ?_⟩
  -- it touches nothing, neither in front of it nor behind it
  obtain ⟨hbefore, hchain, -⟩ := List.isChain_append.1 hspaced
  refine List.isChain_append.2 ⟨hbefore, List.isChain_cons.2 ⟨?_, hchain⟩, ?_⟩
  · intro m hm htouch
    have := hbehind m (List.mem_of_mem_head? hm)
    dsimp only at htouch
    omega
  · intro m hm m' hm' htouch
    have := hshort m hm
    rw [List.head?_cons, Option.mem_some_iff] at hm'
    subst hm'
    dsimp only at htouch
    omega

/-- **Finding the focus.** -/
theorem exists_focus (h : Tracks a b mods) (hbounded : Bounded a b mods) (hline : line ≤ b.count) :
    ∃ f, focus mods line = .ok f ∧ f.At a b line ∧ f.In mods := by
  obtain ⟨haligned, hspaced, hpos⟩ := h
  have hsplit : mods.takeWhile (·.newLine ≤ line) ++ mods.dropWhile (·.newLine ≤ line) = mods :=
    List.takeWhile_append_dropWhile
  rw [← hsplit] at haligned hspaced hbounded
  obtain ⟨o, n, hpath, hafter⟩ := Aligned.append_iff.1 haligned
  have hbehind : ∀ m ∈ mods.dropWhile (·.newLine ≤ line), line < m.newLine :=
    le_of_mem_dropWhile (k := line + 1) (fun m hm => Nat.succ_le_of_lt (by simpa using hm)) hafter
  have hle : ∀ m ∈ mods.takeWhile (·.newLine ≤ line), m.newLine ≤ line := fun m hm => by
    simpa using List.mem_takeWhile_imp hm
  unfold focus
  dsimp only
  generalize mods.takeWhile (·.newLine ≤ line) = before at *
  generalize mods.dropWhile (·.newLine ≤ line) = after at *
  rcases List.eq_nil_or_concat before with rfl | ⟨init, last, rfl⟩
  · obtain ⟨rfl, rfl⟩ := hpath
    have hfront : Path a b 0 0 [] 0 0 := ⟨rfl, rfl⟩
    have hat := Focus.At.fresh hfront hafter (Nat.zero_le line) hline hbehind hspaced (by simp)
    rw [Nat.zero_add, Nat.sub_zero] at hat
    exact ⟨_, rfl, hat, .inr ⟨hsplit, rfl, rfl⟩⟩
  · rw [List.concat_eq_append] at *
    have hcount := hafter.le_count
    have hold := hbounded.old_lt
    have hnew := hbounded.new_lt
    obtain ⟨o₁, n₁, hinit, gap, hlastold, hlastnew, hsame, ho, hn⟩ := Path.append_iff.1 hpath
    rw [List.getLast?_concat, List.dropLast_concat]
    dsimp only
    rw [newEnd_eq (by omega), Fault.ok_bind, hn]
    by_cases hreach : line ≤ n
    · -- the last modification to start in front of the line reaches it
      rw [if_pos hreach]
      have hlast : last.newLine ≤ line :=
        hle last (List.mem_append_right init (List.mem_singleton_self last))
      rw [List.append_assoc] at hspaced hsplit
      exact ⟨_, rfl, ⟨⟨o₁, n₁, gap, hinit, hlastold, hlastnew, hsame⟩, ho ▸ hn ▸ hafter, hlast,
        hn ▸ hreach, hbehind, hspaced⟩, .inl hsplit⟩
    · rw [if_neg hreach]
      have hlt : n < line := Nat.lt_of_not_le hreach
      have hskipped := (hafter.skip hlt.le hline fun m hm => (hbehind m hm).le).2.le_count
      have hnear := hbounded.near hpath hcount.1 hcount.2 (by omega) (by omega)
      rw [oldLineOf_eq ho hn (by omega) (by omega) hnear hlt.le (by omega)]
      refine ⟨_, rfl, Focus.At.fresh hpath hafter hlt.le hline hbehind hspaced ?_,
        .inr ⟨hsplit, rfl, rfl⟩⟩
      intro m hm
      rw [List.getLast?_concat, Option.mem_some_iff] at hm
      subst hm
      exact hn ▸ hlt

namespace Focus.At

variable {f : Focus}

/-- **A splice at the focus.** The modification in focus takes over all up to the old line `o` and
the new line `n`, and those behind it move along. -/
theorem splice {removed added o n : ℕ} {current : LineModification} {rest : List LineModification}
    (h : f.At a b line) (hpos : 0 < a.count) (hb : Spliced b b' line removed added)
    (hrest : Aligned a b o n rest) (hn : line + removed ≤ n)
    (hold : current.oldLine = f.current.oldLine) (hnew : current.newLine = f.current.newLine)
    (hoend : current.oldLine + current.removed = o)
    (hnend : current.newLine + current.added = n - removed + added)
    (hspaced : rest.IsChain Spaced)
    (hnext : ∀ m ∈ rest.head?, n = m.newLine → 0 < current.removed) :
    Tracks a b' (f.before ++ current :: rest.map (·.moved removed added)) := by
  obtain ⟨o₁, n₁, gap, hpath, hcold, hcnew, hsame⟩ := h.front
  have hle := h.le
  have hbehind : ∀ m ∈ rest, n ≤ m.newLine := hrest.le_newLine
  refine ⟨Aligned.append_iff.2 ⟨o₁, n₁, hpath.splice hb (by omega), gap, hold.trans hcold,
    hnew.trans hcnew, ?_, ?_⟩, ?_, hpos⟩
  · intro i hi
    rw [hsame i hi, hb.before _ (by omega)]
  · rw [hoend, hnend]
    exact hrest.splice hb hn
  · -- in front of the focus nothing has moved, behind it all has moved alike
    obtain ⟨hbefore, -, hlast⟩ := List.isChain_append.1 h.spaced
    refine List.isChain_append.2 ⟨hbefore, List.isChain_cons.2 ⟨fun m hm heq => ?_, ?_⟩, ?_⟩
    · rw [List.head?_map, Option.mem_def, Option.map_eq_some_iff] at hm
      obtain ⟨m₁, hm₁, rfl⟩ := hm
      have := hbehind m₁ (List.mem_of_mem_head? hm₁)
      refine hnext m₁ hm₁ ?_
      dsimp only [moved] at heq
      omega
    · refine isChain_moved (fun m hm => ?_) hspaced
      have := hbehind m hm
      omega
    · intro m hm m' hm' heq
      rw [List.head?_cons, Option.mem_some_iff] at hm'
      subst hm'
      exact hlast m hm f.current rfl (heq.trans hnew)

/-- **What a splice at the focus puts in**: what the modification in focus does, and what those in
front of it and behind it did. -/
theorem gains {removed added : ℕ} {current : LineModification} {rest : List LineModification}
    (h : f.At a b line) (hb : Spliced b b' line removed added)
    (hrest : ∀ m ∈ rest, m ∈ f.after ∧ line + removed ≤ m.newLine)
    (hadded : current.added + addedIn rest ≤ f.current.added + addedIn f.after + added)
    (hcurrent : ∀ {fresh : α → Prop}, Tight fresh b f.all →
      (∀ i < added, fresh (b'.line (line + i))) →
        ∀ i, current.newLine ≤ i → i < current.newLine + current.added → fresh (b'.line i)) :
    Gains b b' line added f.all (f.before ++ current :: rest.map (·.moved removed added)) := by
  have hsum : addedIn (rest.map (·.moved removed added)) = addedIn rest := by
    unfold addedIn
    rw [List.map_map]
    rfl
  refine ⟨?_, fun {fresh} htight hfresh => ?_⟩
  · unfold Focus.all
    rw [addedIn_append, addedIn_append, addedIn_cons, addedIn_cons, hsum]
    omega
  · intro m hm i hi hlt
    rcases List.mem_append.1 hm with hm | hm
    · obtain ⟨o, n, gap, hpath, -, hcnew, -⟩ := h.front
      have hend := hpath.mem_le m hm
      have hle := h.le
      rw [hb.before i (by omega)]
      exact htight m (List.mem_append_left _ hm) i hi hlt
    · rcases List.mem_cons.1 hm with rfl | hm
      · exact hcurrent htight hfresh i hi hlt
      · obtain ⟨m₁, hm₁, rfl⟩ := List.mem_map.1 hm
        obtain ⟨hmem, hge⟩ := hrest m₁ hm₁
        dsimp only [moved] at hi hlt
        have hline := hb.after (i - line - added)
        rw [show line + added + (i - line - added) = i by omega] at hline
        rw [hline]
        exact htight m₁ (List.mem_append_right _ (List.mem_cons_of_mem _ hmem)) _ (by omega) (by omega)

/-- **Lines put in at the focus.** -/
theorem insertLines (h : f.At a b line) (hpos : 0 < a.count) (hnew : b'.count < Count.bound)
    (hb : Spliced b b' line 0 count) :
    ∃ s, LineModification.insertLines f count = .ok s ∧ Tracks a b' s.mods ∧
      Gains b b' line count f.all s.mods := by
  have hcount := hb.count
  have hle := h.le
  have hge := h.ge
  have hend := h.after.le_count
  have hafter : ∀ m ∈ f.after, (do
      return { m with newLine := ← Count.add m.newLine count } : Except Fault LineModification) =
        .ok (m.moved 0 count) := fun m hm => by
    have := h.after.mem_le_count m hm
    rw [Count.add_of_lt (by omega)]
    rfl
  unfold LineModification.insertLines
  rw [Count.add_of_lt (by omega), Fault.ok_bind, Fault.mapM_eq_ok hafter, Fault.ok_bind]
  refine ⟨_, rfl, h.splice hpos hb h.after hge rfl rfl rfl ?_ ?_ ?_, h.gains hb ?_ ?_ ?_⟩
  · dsimp only
    omega
  · exact (List.isChain_cons.1 (List.isChain_append.1 h.spaced).2.1).2
  · exact (List.isChain_cons.1 (List.isChain_append.1 h.spaced).2.1).1
  · exact fun m hm => ⟨hm, (h.behind m hm).le⟩
  · dsimp only
    omega
  · -- the modification in focus is cut in two by the lines put in
    intro fresh htight hfresh i hi hlt
    dsimp only at hi hlt
    have hcurrent : ∀ j, f.current.newLine ≤ j → j < f.current.newLine + f.current.added →
        fresh (b.line j) := htight f.current (List.mem_append_right _ List.mem_cons_self)
    rcases Nat.lt_or_ge i line with hfront | hback
    · rw [hb.before i hfront]
      exact hcurrent i hi (by omega)
    · rcases Nat.lt_or_ge i (line + count) with hmid | hback
      · have := hfresh (i - line) (by omega)
        rwa [Nat.add_sub_cancel' hback] at this
      · have hline := hb.after (i - line - count)
        rw [show line + count + (i - line - count) = i by omega] at hline
        rw [hline]
        exact hcurrent _ (by omega) (by omega)

/-- The modifications that start in front of `stop` end with `last`, and those behind go on from
there. -/
theorem exists_last (h : f.At a b line) (stop : ℕ) {last : LineModification}
    (hlast : (f.after.takeWhile (·.newLine < stop)).getLast?.getD f.current = last) :
    Path a b 0 0 (f.before ++ f.current :: f.after.takeWhile (·.newLine < stop))
        (last.oldLine + last.removed) (last.newLine + last.added) ∧
      Aligned a b (last.oldLine + last.removed) (last.newLine + last.added)
        (f.after.dropWhile (·.newLine < stop)) ∧
      (∀ m ∈ f.after.dropWhile (·.newLine < stop), stop ≤ m.newLine) ∧
      f.current.oldLine + f.current.removed ≤ last.oldLine + last.removed ∧
      f.current.newLine + f.current.added ≤ last.newLine + last.added ∧
      (f.after.dropWhile (·.newLine < stop)).IsChain Spaced ∧
      ∀ m ∈ (f.after.dropWhile (·.newLine < stop)).head?,
        last.newLine + last.added = m.newLine → f.current.oldLine < last.oldLine + last.removed := by
  have hspaced := (List.isChain_append.1 h.spaced).2.1
  have hafter := h.after
  rw [← List.takeWhile_append_dropWhile (l := f.after) (p := (·.newLine < stop))] at hspaced hafter
  obtain ⟨o, n, hinside, hrest⟩ := Aligned.append_iff.1 hafter
  have hstop : ∀ m ∈ f.after.dropWhile (·.newLine < stop), stop ≤ m.newLine :=
    le_of_mem_dropWhile (fun m hm => by simpa using hm) hrest
  have hle := hinside.le
  obtain ⟨o₁, n₁, gap, hpath, hcold, hcnew, hsame⟩ := h.front
  obtain ⟨hold, rfl, rfl⟩ := hlast ▸ hinside.getLast
  rw [← List.cons_append] at hspaced
  obtain ⟨-, hrestspaced, hnext⟩ := List.isChain_append.1 hspaced
  rw [List.getLast?_cons, hlast] at hnext
  refine ⟨Path.append_iff.2 ⟨o₁, n₁, hpath, gap, hcold, hcnew, hsame, hinside⟩, hrest, hstop, hle.1, hle.2, hrestspaced, ?_⟩
  intro m hm htouch
  have hremoved : 0 < last.removed := hnext last rfl m hm htouch
  omega

/-- `last` is the modification in focus itself or one that starts behind it and in front of `stop`. -/
theorem last_cases {stop : ℕ} {last : LineModification}
    (hlast : (f.after.takeWhile (·.newLine < stop)).getLast?.getD f.current = last) :
    last = f.current ∨ last ∈ f.after ∧ last.newLine < stop ∧
      last.added ≤ addedIn (f.after.takeWhile (·.newLine < stop)) := by
  rcases List.eq_nil_or_concat (f.after.takeWhile (·.newLine < stop)) with hnil | ⟨init, m, hm⟩
  · rw [hnil] at hlast
    exact .inl hlast.symm
  · rw [hm, List.concat_eq_append, List.getLast?_concat] at hlast
    subst hlast
    have hmem : m ∈ f.after.takeWhile (·.newLine < stop) := by
      rw [hm, List.concat_eq_append]
      exact List.mem_append_right init (List.mem_singleton_self m)
    refine .inr ⟨List.takeWhile_subset _ hmem, by simpa using List.mem_takeWhile_imp hmem, ?_⟩
    exact List.le_sum_of_mem (List.mem_map_of_mem hmem)

/-- **What taking lines out leaves of what was put in.** The modification in focus takes in those up to
`last`. In front of `line` it has lines of its own, and from there on it has lines of `last`. -/
theorem gains_of_removed (h : f.At a b line) (hb : Spliced b b' line count 0) (removed : ℕ) {stop : ℕ}
    {last : LineModification}
    (hlast : (f.after.takeWhile (·.newLine < line + count)).getLast?.getD f.current = last)
    (hstop : stop = max (max (line + count) (f.current.newLine + f.current.added))
      (last.newLine + last.added)) :
    Gains b b' line 0 f.all (f.before ++
      { f.current with removed, added := stop - f.current.newLine - count } ::
        (f.after.dropWhile (·.newLine < line + count)).map (·.moved count 0)) := by
  have hle := h.le
  have hge := h.ge
  have hcases := last_cases hlast
  obtain ⟨-, -, hbehind, -, hnewle, -, -⟩ := h.exists_last (line + count) hlast
  have hmem : ∀ m ∈ f.after.dropWhile (·.newLine < line + count), m ∈ f.after := fun m hm =>
    (List.dropWhile_suffix _).subset hm
  refine h.gains hb (fun m hm => ⟨hmem m hm, hbehind m hm⟩) ?_ ?_
  · have hsum : addedIn f.after = addedIn (f.after.takeWhile (·.newLine < line + count)) +
        addedIn (f.after.dropWhile (·.newLine < line + count)) := by
      rw [← addedIn_append, List.takeWhile_append_dropWhile]
    dsimp only
    rcases hcases with rfl | ⟨-, hstart, hadded⟩ <;> omega
  · intro fresh htight _ i hi hlt
    dsimp only at hi hlt
    rcases Nat.lt_or_ge i line with hfront | hback
    · rw [hb.before i hfront]
      exact htight f.current (List.mem_append_right _ List.mem_cons_self) i hi (by omega)
    · have hline := hb.after (i - line)
      rw [show line + 0 + (i - line) = i by omega,
        show line + count + (i - line) = i + count by omega] at hline
      rw [hline]
      rcases hcases with rfl | ⟨hlastmem, hstart, -⟩
      · exact htight _ (List.mem_append_right _ List.mem_cons_self) _ (by omega) (by omega)
      · exact htight last (List.mem_append_right _ (List.mem_cons_of_mem _ hlastmem)) _ (by omega)
          (by omega)

/-- **Lines taken out from the focus on.** -/
theorem removeLines (h : f.At a b line) (hold : 0 < a.count) (hbounded : Bounded a b f.all)
    (hb : Spliced b b' line count 0) (hpos : 0 < count) :
    ∃ s, LineModification.removeLines f line count = .ok s ∧ Tracks a b' s.mods ∧
      Gains b b' line 0 f.all s.mods := by
  have hroom := hb.room
  have hle := h.le
  have hge := h.ge
  have ha := hbounded.old_lt
  have hb' := hbounded.new_lt
  obtain ⟨last, hlast⟩ : ∃ last,
      (f.after.takeWhile (·.newLine < line + count)).getLast?.getD f.current = last := ⟨_, rfl⟩
  obtain ⟨hpath, hrest, hbehind, holdle, hnewle, hspaced, htouch⟩ := h.exists_last (line + count) hlast
  -- the new line up to which the modification in focus reaches
  obtain ⟨stop, hstop⟩ : ∃ stop, stop = max
      (max (line + count) (f.current.newLine + f.current.added)) (last.newLine + last.added) :=
    ⟨_, rfl⟩
  have hall : f.all = (f.before ++ f.current :: f.after.takeWhile (·.newLine < line + count)) ++
      f.after.dropWhile (·.newLine < line + count) := by
    rw [List.append_assoc, List.cons_append, List.takeWhile_append_dropWhile]
    rfl
  have hfront := hrest.le_newLine
  have hout := hrest.le_count
  obtain ⟨hstop₁, hstop₂⟩ : line + count ≤ stop ∧ last.newLine + last.added ≤ stop := by omega
  obtain ⟨-, hskip⟩ := hrest.skip hstop₂ (show stop ≤ b.count by omega) fun m hm => by
    have := hbehind m hm
    have := hfront m hm
    omega
  have hskipped := hskip.le_count
  -- neither side can be empty up to here and full on the other side
  have hfar : last.newLine + last.added = b.count → 0 < last.oldLine + last.removed := fun hend =>
    hrest.old_pos hend hold fun m hm hm' => Nat.zero_lt_of_lt (htouch m hm hm')
  have hnear := (hall ▸ hbounded).near hpath hout.1 hout.2 (by omega) (by omega)
  have hremoved := Focus.removeLines_eq hlast hstop hnear (by omega) (by omega) (by omega) (by omega)
    fun m hm => (Nat.le_add_left count line).trans (hbehind m hm)
  refine ⟨_, hremoved, h.splice hold hb hskip hstop₁ rfl rfl ?_ ?_ hspaced ?_,
    h.gains_of_removed hb _ hlast hstop⟩
  · dsimp only
    omega
  · dsimp only
    omega
  · -- the next one can only touch the end if `last` did, and `last` has taken lines out then
    intro m hm heq
    have hnew := hfront m (List.mem_of_mem_head? hm)
    dsimp only
    rcases Nat.eq_or_lt_of_le hstop₂ with hend | hlt
    · have := htouch m hm (hend.trans heq)
      omega
    · omega

end Focus.At

/-! ## Steps of the fold -/

/-- The modifications after a sequence of records. -/
def steps (mods : List LineModification) (records : List LineRecord) :
    Except Fault (List LineModification) :=
  records.foldlM (fun mods r => do return (← step mods r).mods) mods

theorem steps_append {mods' : List LineModification} {records records' : List LineRecord}
    (h : steps mods records = .ok mods') : steps mods (records ++ records') = steps mods' records' := by
  unfold steps at *
  rw [List.foldlM_append, h, Fault.ok_bind]

/-- **Lines put in keep the modifications aligned.** -/
theorem exists_steps_insert (h : Tracks a b mods) (hbounded : Bounded a b mods)
    (hnew : b'.count < Count.bound) (hb : Spliced b b' line 0 count) (hpos : 0 < count) :
    ∃ mods', steps mods [⟨line, count⟩] = .ok mods' ∧ Tracks a b' mods' ∧
      Gains b b' line count mods mods' := by
  have hline : line ≤ b.count := (Nat.le_add_right _ _).trans hb.room
  obtain ⟨f, hf, hat, hin⟩ := exists_focus h hbounded hline
  obtain ⟨s, hs, htracks, hgains⟩ := hat.insertLines h.old_pos hnew hb
  refine ⟨s.mods, ?_, htracks, hin.gains hgains⟩
  unfold steps step
  rw [List.foldlM_cons]
  dsimp only
  rw [if_neg (by omega), hf, Fault.ok_bind, if_pos (by omega), Int.natAbs_natCast, hs]
  rfl

/-- **Lines taken out keep the modifications aligned.** -/
theorem exists_steps_remove (h : Tracks a b mods) (hbounded : Bounded a b mods)
    (hb : Spliced b b' line count 0) (hpos : 0 < count) :
    ∃ mods', steps mods [⟨line, -count⟩] = .ok mods' ∧ Tracks a b' mods' ∧
      Gains b b' line 0 mods mods' := by
  have hline : line ≤ b.count := (Nat.le_add_right _ _).trans hb.room
  obtain ⟨f, hf, hat, hin⟩ := exists_focus h hbounded hline
  obtain ⟨s, hs, htracks, hgains⟩ := hat.removeLines h.old_pos (hin.bounded hbounded) hb hpos
  refine ⟨s.mods, ?_, htracks, hin.gains hgains⟩
  unfold steps step
  rw [List.foldlM_cons]
  dsimp only
  rw [if_neg (by omega), hf, Fault.ok_bind, if_neg (by omega), Int.natAbs_neg,
    Int.natAbs_natCast, hs]
  rfl

/-- **Lines that give way to others keep the modifications aligned.** -/
theorem exists_steps_replace {removed added : ℕ} (h : Tracks a b mods)
    (ha : a.count ≤ Count.signedBound) (hle : b.count ≤ Count.signedBound)
    (hle' : b'.count ≤ Count.signedBound) (hb : Spliced b b' line removed added)
    (hremoved : 0 < removed) (hadded : 0 < added) :
    ∃ mods', steps mods [⟨line, -removed⟩, ⟨line, added⟩] = .ok mods' ∧ Tracks a b' mods' := by
  obtain ⟨c, hout, hin⟩ := hb.split
  have hcount := hout.count
  obtain ⟨mods₁, h₁, htracks, -⟩ := exists_steps_remove h (.of_le ha hle) hout hremoved
  have hbounded : Bounded a b' mods₁ := .of_le ha hle'
  obtain ⟨mods', h', htracks', -⟩ :=
    exists_steps_insert htracks (.of_le ha (by omega)) hbounded.new_lt hin hadded
  exact ⟨mods', (steps_append h₁).trans h', htracks'⟩

end LineModification

namespace Lines

/-! ## What is left in the end -/

variable {α : Type} {a b : Lines α} {o n : ℕ} {mods : List LineModification}

theorem Aligned.filter (h : Aligned a b o n mods) : Aligned a b o n (mods.filter (!·.isEmpty)) := by
  induction mods generalizing o n with
  | nil => exact h
  | cons m mods ih =>
    obtain ⟨gap, ho, hn, hs, h⟩ := h
    rw [List.filter_cons]
    split
    · exact ⟨gap, ho, hn, hs, ih h⟩
    · -- the lines in front of an empty modification and behind it are the same in one go
      rename_i hempty
      simp only [LineModification.isEmpty, Bool.not_eq_true', Bool.not_eq_false, Bool.and_eq_true,
        beq_iff_eq] at hempty
      have hrest := ih h
      rw [hempty.1, hempty.2, Nat.add_zero, Nat.add_zero, ho, hn] at hrest
      exact hrest.extend hs

/-- Lines one after another. -/
def toList (a : Lines α) : List α := (List.range a.count).map a.line

theorem toList_length (a : Lines α) : a.toList.length = a.count := by
  rw [toList, List.length_map, List.length_range]

theorem getElem?_toList {i : ℕ} (h : i < a.count) : a.toList[i]? = some (a.line i) := by
  rw [toList, List.getElem?_map, List.getElem?_range h, Option.map_some]

theorem Same.extract {gap : ℕ} (h : Same a b o n gap) (ho : o + gap ≤ a.count) (hn : n + gap ≤ b.count) :
    a.toList.extract o (o + gap) = b.toList.extract n (n + gap) := by
  apply List.ext_getElem?
  intro i
  simp only [List.extract_eq_take_drop, Nat.add_sub_cancel_left, List.getElem?_take, List.getElem?_drop]
  split
  · rename_i hi
    rw [getElem?_toList (by omega), getElem?_toList (by omega), h i hi]
  · rfl

/-- The old lines with those that each modification takes out replaced by the new lines that it puts
in, from the old line `o` on. -/
def patch (old new : List α) : ℕ → List LineModification → List α
  | o, [] => old.drop o
  | o, m :: mods => old.extract o m.oldLine ++ new.extract m.newLine (m.newLine + m.added) ++
      patch old new (m.oldLine + m.removed) mods

theorem extract_append_drop (l : List α) {i j : ℕ} (h : i ≤ j) : l.extract i j ++ l.drop j = l.drop i := by
  have hdrop : l.drop j = (l.drop i).drop (j - i) := by rw [List.drop_drop, Nat.add_sub_cancel' h]
  rw [hdrop, List.extract_eq_take_drop, List.take_append_drop]

/-- **Modifications that align old lines with new ones turn the old ones into the new ones.** -/
theorem Aligned.patch_eq (h : Aligned a b o n mods) :
    patch a.toList b.toList o mods = b.toList.drop n := by
  induction mods generalizing o n with
  | nil =>
    obtain ⟨gap, ho, hn, hs⟩ := h.same
    have := hs.extract ho.ge hn.ge
    rw [← ho, ← hn, ← toList_length a, ← toList_length b] at this
    rwa [patch, List.drop_eq_extract, List.drop_eq_extract]
  | cons m mods ih =>
    have hcount := h.mem_le_count m List.mem_cons_self
    obtain ⟨gap, ho, hn, hs, h⟩ := h
    rw [patch, ih h, ho, hs.extract (by omega) (by omega), ← hn, List.append_assoc,
      extract_append_drop _ (by omega), extract_append_drop _ (by omega)]

/-- **Modifications that account for how old lines became new ones.** None is empty, they are in order
with as many old lines as new lines between them, and putting the new lines of each in the place of
its old ones turns all the old lines into all the new ones. -/
structure Patches (old new : List α) (mods : List LineModification) : Prop where
  nonempty : ∀ m ∈ mods, 0 < m.removed ∨ 0 < m.added
  ordered : mods.IsChain fun m m' =>
    m.oldLine + m.removed ≤ m'.oldLine ∧ m.newLine + m.added ≤ m'.newLine ∧
      m'.oldLine - (m.oldLine + m.removed) = m'.newLine - (m.newLine + m.added)
  front : ∀ m ∈ mods.head?, m.oldLine = m.newLine
  inside : ∀ m ∈ mods, m.oldLine + m.removed ≤ old.length ∧ m.newLine + m.added ≤ new.length
  patch : patch old new 0 mods = new

theorem Aligned.ordered (h : Aligned a b o n mods) : mods.IsChain fun m m' =>
    m.oldLine + m.removed ≤ m'.oldLine ∧ m.newLine + m.added ≤ m'.newLine ∧
      m'.oldLine - (m.oldLine + m.removed) = m'.newLine - (m.newLine + m.added) := by
  induction mods generalizing o n with
  | nil => exact .nil
  | cons m mods ih =>
    obtain ⟨-, -, -, -, h⟩ := h
    refine List.isChain_cons.2 ⟨fun m' hm' => ?_, ih h⟩
    cases mods with
    | nil => simp at hm'
    | cons m₁ mods =>
      obtain ⟨gap, ho, hn, -⟩ := h
      rw [List.head?_cons, Option.mem_some_iff] at hm'
      subst hm'
      omega

theorem Aligned.patches (h : Aligned a b 0 0 mods) :
    Patches a.toList b.toList (mods.filter (!·.isEmpty)) where
  nonempty m hm := by
    have hm := (List.mem_filter.1 hm).2
    simp only [LineModification.isEmpty, Bool.not_eq_true', Bool.and_eq_false_iff,
      beq_eq_false_iff_ne] at hm
    omega
  ordered := h.filter.ordered
  front m hm := by
    have h := h.filter
    cases hmods : mods.filter (!·.isEmpty) with
    | nil => simp [hmods] at hm
    | cons m₁ rest =>
      rw [hmods] at h hm
      obtain ⟨gap, ho, hn, -⟩ := h
      rw [List.head?_cons, Option.mem_some_iff] at hm
      subst hm
      omega
  inside m hm := by
    rw [toList_length, toList_length]
    exact h.filter.mem_le_count m hm
  patch := h.filter.patch_eq

end Lines

end Caret
