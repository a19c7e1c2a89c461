import Caret.Proofs.EditedRanges

/-!
# Text that was put in

A character that was put in since a timestamp and is still there is inside of a range of the search,
behind its start and before its end. Of the selections that the ranges become in the end, one holds it
as well, unless it is the last character of the text: as the end of the text is not the position of a
character, the end of a range there goes back by two.

* `PutIn`, `Stays`: a character that is put in by a change of a log, and one that stays.
* `Stays.carries`: moving positions across the steps of a run takes a character that stays along.
* `Edited.holds_of_putIn`: a character put in by a run is inside of a range that the run adds.
* `Reached.covers_putIn`: which characters are selected.
-/

namespace Caret

/-! ## Characters along the log -/

/-- Character `i` of the text before a change is character `j` of the text after it. In front of the
change characters keep their number, and behind it their number counted from the end. -/
def Change.Keeps (change : Change) (s t : Text) (i j : ℕ) : Prop :=
  s.position i < change.start ∧ j = i ∨ change.reach ≤ s.position i ∧ j + s.length = i + t.length

/-- Character `i` of a text is still there after the changes of a log, as character `k`. -/
def Stays : Text → List Change → Text → ℕ → ℕ → Prop
  | s, [], t, i, k => s = t ∧ i = k
  | s, change :: log, t, i, k => ∃ u j, change.Takes s u ∧ u.size < Text.capacity ∧
      change.Keeps s u i j ∧ Stays u log t j k

/-- Character `k` of the text that a log leads to was put in by one of its changes, and has stayed
since. -/
def PutIn : Text → List Change → Text → ℕ → Prop
  | _, [], _, _ => False
  | s, change :: log, t, k => ∃ u, change.Takes s u ∧ u.size < Text.capacity ∧
      (PutIn u log t k ∨ change.kind = .insert ∧ ∃ i, change.start ≤ u.position i ∧
        u.position i < change.stop ∧ Stays u log t i k)

/-- Positions are moved in such a way that a character goes along: what is behind its start stays
behind its start. -/
def Text.Carries (move : Coord → Except Fault Coord) (s t : Text) (i k : ℕ) : Prop :=
  move (s.position i) = .ok (t.position k) ∧ ∀ i', i < i' → i' ≤ s.length →
    ∃ k', k < k' ∧ k' ≤ t.length ∧ move (s.position i') = .ok (t.position k')

section

variable {s t u before mid after : Text} {log log' : List Change} {change : Change} {i j k : ℕ}

theorem Text.lt_length_of_position_lt {c : Coord} (h : t.position i < c) (hc : t.Valid c) :
    i < t.length := by
  by_contra hle
  rw [Text.position_of_le (not_lt.1 hle)] at h
  exact absurd hc.le_extent (not_le.2 h)

/-- Text that was put in goes from one position to another. -/
theorem Change.Takes.valid_of_insert (h : change.Takes s t) (hkind : change.kind = .insert) :
    t.Valid change.start ∧ t.Valid change.stop := by
  cases h with
  | insert before mid after hmid =>
    refine ⟨?_, Text.valid_extent_append (before ++ mid) after⟩
    rw [List.append_assoc]
    exact Text.valid_extent_append before (mid ++ after)
  | erase => cases hkind

theorem keeps_insert (hi : i ≤ (before ++ after).length)
    (h : (⟨.insert, before.extent, (before ++ mid).extent⟩ : Change).Keeps (before ++ after)
      (before ++ mid ++ after) i j) :
    i < before.length ∧ j = i ∨ before.length ≤ i ∧ j = i + mid.length := by
  have hstart : before.extent = (before ++ after).position before.length :=
    (Text.position_append before after).symm
  have hlen : before.length ≤ (before ++ after).length := by simp
  rcases h with ⟨hlt, rfl⟩ | ⟨hle, hj⟩
  · dsimp only at hlt
    rw [hstart, Text.position_lt_iff hi hlen] at hlt
    exact .inl ⟨hlt, rfl⟩
  · unfold Change.reach at hle
    dsimp only at hle
    rw [hstart, Text.position_le_iff hlen hi] at hle
    simp only [List.length_append] at hj
    exact .inr ⟨hle, by omega⟩

theorem keeps_erase (hi : i ≤ (before ++ mid ++ after).length)
    (h : (⟨.erase, before.extent, (before ++ mid).extent⟩ : Change).Keeps (before ++ mid ++ after)
      (before ++ after) i j) :
    i < before.length ∧ j = i ∨ before.length + mid.length ≤ i ∧ j + mid.length = i := by
  have hstart : before.extent = (before ++ mid ++ after).position before.length := by
    rw [List.append_assoc, Text.position_append]
  have hstop : (before ++ mid).extent = (before ++ mid ++ after).position (before ++ mid).length :=
    (Text.position_append _ _).symm
  have hlen : (before ++ mid).length ≤ (before ++ mid ++ after).length := by simp
  rcases h with ⟨hlt, rfl⟩ | ⟨hle, hj⟩
  · dsimp only at hlt
    rw [hstart, Text.position_lt_iff hi (by simp)] at hlt
    exact .inl ⟨hlt, rfl⟩
  · unfold Change.reach at hle
    dsimp only at hle
    rw [hstop, Text.position_le_iff hlen hi, List.length_append] at hle
    simp only [List.length_append] at hj
    exact .inr ⟨hle, by omega⟩

theorem Stays.trail (h : Stays s log t i k) : Trail s log t := by
  induction log generalizing s i with
  | nil => exact h.1
  | cons change log ih =>
    obtain ⟨u, j, hu, hsize, -, h⟩ := h
    exact ⟨u, hu, hsize, ih h⟩

theorem Stays.append_iff :
    Stays s (log ++ log') t i k ↔ ∃ u j, Stays s log u i j ∧ Stays u log' t j k := by
  induction log generalizing s i with
  | nil =>
    constructor
    · intro h
      exact ⟨s, i, ⟨rfl, rfl⟩, h⟩
    · rintro ⟨u, j, ⟨rfl, rfl⟩, h⟩
      exact h
  | cons change log ih =>
    constructor
    · rintro ⟨v, l, hv, hsize, hkeeps, h⟩
      obtain ⟨u, j, h1, h2⟩ := ih.1 h
      exact ⟨u, j, ⟨v, l, hv, hsize, hkeeps, h1⟩, h2⟩
    · rintro ⟨u, j, ⟨v, l, hv, hsize, hkeeps, h1⟩, h2⟩
      exact ⟨v, l, hv, hsize, hkeeps, ih.2 ⟨u, j, h1, h2⟩⟩

/-- What is put in by a stretch of the log is put in by its second half, or by its first half and
stays. -/
theorem PutIn.of_append (h : PutIn s (log ++ log') t k) :
    ∃ u, Trail s log u ∧ (PutIn u log' t k ∨ ∃ j, PutIn s log u j ∧ Stays u log' t j k) := by
  induction log generalizing s with
  | nil => exact ⟨s, rfl, .inl h⟩
  | cons change log ih =>
    obtain ⟨v, hv, hsize, h | ⟨hkind, i, hstart, hstop, h⟩⟩ := h
    · obtain ⟨u, hu, h | ⟨j, hput, hstays⟩⟩ := ih h
      · exact ⟨u, ⟨v, hv, hsize, hu⟩, .inl h⟩
      · exact ⟨u, ⟨v, hv, hsize, hu⟩, .inr ⟨j, ⟨v, hv, hsize, .inl hput⟩, hstays⟩⟩
    · obtain ⟨u, j, h1, h2⟩ := Stays.append_iff.1 h
      exact ⟨u, ⟨v, hv, hsize, h1.trail⟩,
        .inr ⟨j, ⟨v, hv, hsize, .inr ⟨hkind, i, hstart, hstop, h1⟩⟩, h2⟩⟩

/-- The change that put a character in. -/
theorem PutIn.exists_insert (h : PutIn s log t k) :
    ∃ earlier change later u v i, log = earlier ++ change :: later ∧ change.Takes u v ∧
      v.size < Text.capacity ∧ change.kind = .insert ∧ change.start ≤ v.position i ∧
      v.position i < change.stop ∧ Stays v later t i k := by
  induction log generalizing s with
  | nil => exact h.elim
  | cons change log ih =>
    obtain ⟨u, hu, hsize, h | ⟨hkind, i, hstart, hstop, h⟩⟩ := h
    · obtain ⟨earlier, change', later, v, w, i, rfl, hrest⟩ := ih h
      exact ⟨change :: earlier, change', later, v, w, i, rfl, hrest⟩
    · exact ⟨[], change, log, s, u, i, rfl, hu, hsize, hkind, hstart, hstop, h⟩

/-! ## Characters that go along -/

theorem Text.Carries.lt_length {move : Coord → Except Fault Coord} (h : Carries move s t i k)
    (hi : i < s.length) : k < t.length := by
  obtain ⟨k', hlt, hle, -⟩ := h.2 s.length hi le_rfl
  exact hlt.trans_le hle

/-- Across one change. -/
theorem Change.Takes.carries (h : change.Takes s t) (hs : s.size < Text.capacity)
    (ht : t.size < Text.capacity) (hk : change.Keeps s t i k) (hi : i < s.length) :
    Text.Carries change.move s t i k := by
  cases h with
  | insert before mid after hmid =>
    have hkeeps := keeps_insert hi.le hk
    have hmove : ∀ i ≤ (before ++ after).length, _ := fun i hi => Text.move_insert ht hi
    refine ⟨?_, fun i' hlt hle => ⟨_, ?_, ?_, hmove i' hle⟩⟩
    · rw [hmove i hi.le]
      congr 2
      split <;> omega
    · split <;> omega
    · simp only [List.length_append] at hle ⊢
      split <;> omega
  | erase before mid after hmid =>
    have hkeeps := keeps_erase hi.le hk
    have hmove : ∀ i ≤ (before ++ mid ++ after).length, _ := fun i hi => Text.move_erase hs hi
    refine ⟨?_, fun i' hlt hle => ⟨_, ?_, ?_, hmove i' hle⟩⟩
    · rw [hmove i hi.le]
      congr 2
      have hpos := List.length_pos_of_ne_nil hmid
      split <;> (try split) <;> omega
    · split <;> (try split) <;> omega
    · simp only [List.length_append] at hle ⊢
      split <;> (try split) <;> omega

/-- Across an insert and the erase right up to it, though what is moved at once passes them the other
way round. -/
theorem Stays.carries_pair {a b : Change} (hup : b.ErasesUpTo a) (h : Stays s [a, b] t i k)
    (hs : s.size < Text.capacity) (hi : i < s.length) :
    Text.Carries (Coord.acrossStep · [a, b]) s t i k := by
  obtain ⟨u, j, hu, hsize, hkeep, v, l, hv, -, hkeep', rfl, rfl⟩ := h
  obtain ⟨hinsert, herase, hstop⟩ := hup
  cases hu with
  | erase => cases hinsert
  | insert front new after hnew =>
    generalize hfv : front ++ new ++ after = u at hv hkeep hkeep' hsize
    cases hv with
    | insert => cases herase
    | erase before mid behind hmid =>
      -- the erase ends where the insert begins, so that all of the text put in is behind it
      rw [List.append_assoc front] at hfv
      obtain ⟨rfl, rfl⟩ := Text.eq_of_extent_eq hfv.symm hstop
      rw [← List.append_assoc] at hkeep
      have hfirst := keeps_insert hi.le hkeep
      have hlast := keeps_erase (i := j) (by
        simp only [List.length_append] at hi hfirst ⊢
        omega) hkeep'
      have hstep : ∀ i ≤ (before ++ mid ++ after).length, _ := fun i hi =>
        Text.acrossStep_pair hs hsize hi
      simp only [List.append_assoc before new] at hstep
      have hpos := List.length_pos_of_ne_nil hmid
      simp only [List.length_append] at hfirst hlast
      refine ⟨?_, fun i' hlt hle => ⟨_, ?_, ?_, hstep i' hle⟩⟩
      · refine (hstep i hi.le).trans ?_
        congr 2
        split <;> (try split) <;> omega
      · split <;> (try split) <;> omega
      · simp only [List.length_append] at hle ⊢
        split <;> (try split) <;> omega

/-- **Across the steps of a replay.** -/
theorem Stays.carries {steps : List (List Change)} (hsteps : ∀ step ∈ steps, IsStep step)
    (h : Stays s steps.flatten t i k) (hs : s.size < Text.capacity) (hi : i < s.length) :
    Text.Carries (Coord.acrossSteps · steps) s t i k := by
  induction steps generalizing s i with
  | nil =>
    obtain ⟨rfl, rfl⟩ := h
    exact ⟨rfl, fun i' hlt hle => ⟨i', hlt, hle, rfl⟩⟩
  | cons step steps ih =>
    rw [List.flatten_cons, Stays.append_iff] at h
    obtain ⟨u, j, hstep, hrest⟩ := h
    obtain ⟨hfirst, hsteps⟩ := List.forall_mem_cons.1 hsteps
    have hcarries : Text.Carries (Coord.acrossStep · step) s u i j := by
      cases hfirst with
      | single a =>
        obtain ⟨v, l, hv, hsize, hkeep, rfl, rfl⟩ := hstep
        simp only [Coord.acrossStep_single]
        exact hv.carries hs hsize hkeep hi
      | pair hup => exact hstep.carries_pair hup hs hi
    obtain ⟨hthen, hbehind⟩ := ih hsteps hrest (hstep.trail.size_lt hs) (hcarries.lt_length hi)
    obtain ⟨hmove, hahead⟩ := hcarries
    constructor
    · show (s.position i).acrossSteps (step :: steps) = _
      rw [Coord.acrossSteps_cons hmove]
      exact hthen
    · intro i' hlt hle
      obtain ⟨j', hlt', hle', hmove'⟩ := hahead i' hlt hle
      obtain ⟨k', hk', hkle, hthen'⟩ := hbehind j' hlt' hle'
      refine ⟨k', hk', hkle, ?_⟩
      show (s.position i').acrossSteps (step :: steps) = _
      rw [Coord.acrossSteps_cons hmove']
      exact hthen'

end

namespace Edited

open Hunk

variable {s t : Text} {run : Run} {ranges added : List Change} {i k : ℕ}

/-- One of the ranges holds the character at a coordinate: it starts at or before it and ends behind
it. -/
def Holds (ranges : List Selection) (c : Coord) : Prop := ∃ r ∈ ranges, r.low ≤ c ∧ c < r.high

theorem Holds.of_inside {ranges ranges' : List Selection} {c : Coord} (h : Holds ranges c)
    (hin : Inside ranges ranges') : Holds ranges' c := by
  obtain ⟨r, hr, hlow, hhigh⟩ := h
  obtain ⟨e, he, hstart, hstop⟩ := hin r hr
  exact ⟨e, he, hstart.trans hlow, hhigh.trans_le hstop⟩

/-- **A character that stays** is inside of the ranges moved across the run, if it was inside of them
before. -/
theorem Holds.map {ranges : List Selection} {f : Coord → Coord} (h : Holds ranges (s.position i))
    (hranges : ∀ r ∈ ranges, Upright s r) (hf : Image s t f)
    (hacross : ∀ {c}, s.Valid c → c.acrossSteps (Run.steps run.changes) = .ok (f c))
    (hstays : Stays s run.changes t i k) (hs : s.size < Text.capacity) :
    Holds (ranges.map (Tracked.mapEnds f)) (t.position k) := by
  obtain ⟨r, hr, hlow, hhigh⟩ := h
  have hvalid := (hranges r hr).valid
  have hi := Text.lt_length_of_position_lt hhigh hvalid.high
  rw [← Run.flatten_steps run.changes] at hstays
  obtain ⟨hmove, hbehind⟩ := hstays.carries (fun _ => Run.isStep_of_mem) hs hi
  have himage : f (s.position i) = t.position k := by
    dsimp only at hmove
    rw [hacross (Text.valid_position hi.le), Except.ok.injEq] at hmove
    exact hmove
  have hle : f r.low ≤ f r.high := hf.mono r.low_le_high
  refine ⟨_, List.mem_map_of_mem hr, ?_, ?_⟩
  · have hfirst : (Tracked.mapEnds f r).low = f r.low := Selection.withEnds_low r hle
    rw [hfirst, ← himage]
    exact hf.mono hlow
  · have hlast : (Tracked.mapEnds f r).high = f r.high := Selection.withEnds_high r hle
    obtain ⟨i', hi', heq⟩ := Text.valid_iff.1 hvalid.high
    rw [heq, Text.position_lt_iff hi.le hi'] at hhigh
    obtain ⟨k', hk', hkle, hmove'⟩ := hbehind i' hhigh hi'
    dsimp only at hmove'
    rw [hacross (Text.valid_position hi'), Except.ok.injEq] at hmove'
    rw [hlast, heq, hmove']
    exact Text.position_lt hk' hkle

/-! ## Characters put in by a run -/

section

variable {a b rest : Text} {hunks : List Hunk} {change : Change} {earlier changes : List Change}

/-- What lies in front of a coordinate with all of its changes does so as a whole. -/
theorem extent_oldText_le {x : Coord} (hx : a.extent ≤ x)
    (h : ∀ c ∈ Hunk.log .backward a hunks, c.stop ≤ x) : (a ++ oldText hunks).extent ≤ x := by
  induction hunks generalizing a with
  | nil => rwa [oldText_nil, List.append_nil]
  | cons h' hunks ih =>
    rw [log_cons, side_backward] at h
    obtain ⟨hfirst, h⟩ := List.forall_mem_cons.1 h
    have hold : (a ++ h'.old).extent ≤ x := by
      obtain ⟨gap, kind, content, filled⟩ := h'
      cases kind with
      | insert => exact (Text.extent_le_append (a ++ gap) content).trans hfirst
      | erase =>
        rw [old, ← List.append_assoc]
        exact hfirst
    rw [oldText_cons, ← List.append_assoc]
    exact ih hold h

/-- A change behind hunks is expressed through all of them. -/
theorem exists_express (hw : Within a b hunks rest)
    (h : expressAll ⟨b.extent, a.extent⟩ (Hunk.log .backward a hunks ++ change :: earlier) =
      .ok added) :
    ∃ e ∈ added, (⟨(b ++ newText hunks).extent, (a ++ oldText hunks).extent⟩ : Tracker).express
      change = .ok e := by
  induction hunks generalizing a b added with
  | nil =>
    rw [Hunk.log, List.nil_append, expressAll, Fault.bind_eq_ok] at h
    obtain ⟨e, he, h⟩ := h
    rw [Fault.bind_eq_ok] at h
    obtain ⟨t, -, h⟩ := h
    rw [Fault.bind_eq_ok] at h
    obtain ⟨later, -, h⟩ := h
    rw [Fault.pure_eq_ok, Except.ok.injEq] at h
    rw [newText_nil, oldText_nil, List.append_nil, List.append_nil]
    exact ⟨e, h ▸ List.mem_cons_self, he⟩
  | cons h' hunks ih =>
    rw [log_cons, side_backward, List.cons_append, expressAll, express_viewed hw, Fault.ok_bind,
      feed_viewed hw, Fault.ok_bind, Fault.bind_eq_ok] at h
    obtain ⟨later, hlater, h⟩ := h
    rw [Fault.pure_eq_ok, Except.ok.injEq] at h
    obtain ⟨e, he, hexpress⟩ := ih hw.tail hlater
    rw [newText_cons, oldText_cons, ← List.append_assoc, ← List.append_assoc]
    exact ⟨e, h ▸ List.mem_cons_of_mem _ he, hexpress⟩

theorem start_le_frontier (h : change.start ≤ change.stop) : change.start ≤ change.frontier := by
  unfold Change.frontier
  split
  · exact h
  · exact le_rfl

/-- Not only the next change of a forward run is behind its first one. -/
theorem frontier_lt_start (hf : Run.Forward (change :: changes))
    (hle : ∀ c ∈ changes, c.start ≤ c.stop) : ∀ c ∈ changes, change.frontier < c.start := by
  induction changes generalizing change with
  | nil => simp
  | cons c changes ih =>
    obtain ⟨hhead, hf⟩ := List.isChain_cons.1 hf
    obtain ⟨hc, hle⟩ := List.forall_mem_cons.1 hle
    have hlt : change.frontier < c.start := hhead c rfl
    refine List.forall_mem_cons.2 ⟨hlt, fun d hd => ?_⟩
    exact (hlt.trans_le (start_le_frontier hc)).trans (ih hf hle d hd)

/-- Not only the next change of a backward run is in front of its first one. -/
theorem stop_le_start (hb : Run.Backward (change :: changes))
    (hle : ∀ c ∈ changes, c.start ≤ c.stop) : ∀ c ∈ changes, c.stop ≤ change.start := by
  induction changes generalizing change with
  | nil => simp
  | cons c changes ih =>
    obtain ⟨hhead, hb⟩ := List.isChain_cons.1 hb
    obtain ⟨hc, hle⟩ := List.forall_mem_cons.1 hle
    have hfront : c.stop ≤ change.start := hhead c rfl
    refine List.forall_mem_cons.2 ⟨hfront, fun d hd => ?_⟩
    exact (ih hb hle d hd).trans (hc.trans hfront)

end

/-- A character in front of all changes stays where it is. -/
theorem across_of_lt {c : Coord} {changes : List Change} (h : ∀ change ∈ changes, c < change.start) :
    c.across changes = .ok c := by
  induction changes with
  | nil => rfl
  | cons change changes ih =>
    obtain ⟨hlt, h⟩ := List.forall_mem_cons.1 h
    have hmove : change.move c = .ok c := by
      unfold Change.move Coord.acrossInsert Coord.acrossErase
      split <;> exact if_pos hlt
    rw [Coord.across_cons hmove, ih h]

/-- The range of an insert from one position to another. -/
theorem holds_insert {t : Text} {changes : List Change} {p q k : ℕ}
    (h : ⟨.insert, t.position p, t.position q⟩ ∈ changes) (hpk : p ≤ k) (hkq : k < q)
    (hq : q ≤ t.length) : Holds (changes.map range) (t.position k) := by
  have hlt : t.position p < t.position q := Text.position_lt (hpk.trans_lt hkq) hq
  refine ⟨_, List.mem_map_of_mem h, ?_, ?_⟩
  · rw [range, Selection.low, min_eq_left hlt.le, Text.position_le_iff (by omega) (by omega)]
    exact hpk
  · rw [range, Selection.high, max_eq_right hlt.le]
    exact Text.position_lt hkq hq

/-- In a forward run nothing that comes later moves the text put in. -/
theorem holds_forward {s t : Text} {earlier later : List Change} {change : Change}
    (hf : Run.Forward (earlier ++ change :: later)) (hstays : Stays s later t i k)
    (hs : s.size < Text.capacity) (hi : i < s.length) (hkind : change.kind = .insert)
    (hstart : change.start ≤ s.position i) (hstop : s.position i < change.stop) :
    Holds ((earlier ++ change :: later).map range) (t.position k) := by
  have hle : ∀ c ∈ later, c.start ≤ c.stop := fun c hc => hstays.trail.start_le_stop hc
  have hfrontier : change.frontier = change.stop := by
    unfold Change.frontier
    rw [hkind]
  have hbehind := frontier_lt_start hf.right_of_append hle
  rw [hfrontier] at hbehind
  have hself := across_of_lt fun c hc => hstop.trans (hbehind c hc)
  -- followed change by change, the character is where it ends up, and also where it was
  have hflatten : (later.map fun c => [c]).flatten = later := by
    rw [← List.flatMap_def, List.flatMap_singleton']
  rw [← hflatten] at hstays
  obtain ⟨hmove, -⟩ := hstays.carries (List.forall_mem_map.2 fun c _ => .single c) hs hi
  dsimp only at hmove
  rw [Coord.acrossSteps_map, hself, Except.ok.injEq] at hmove
  have hlt : change.start ≤ change.stop := hstart.trans hstop.le
  refine ⟨range change, List.mem_map_of_mem (by simp), ?_, ?_⟩
  · rw [range, hkind, ← hmove]
    exact (min_le_left _ _).trans hstart
  · rw [range, hkind, ← hmove]
    exact hstop.trans_le (le_max_right _ _)

/-- An insert behind hunks, expressed through all of them. -/
theorem express_insert {rest : Text} {hunks : List Hunk} {p q : ℕ} (hw : Within [] [] hunks rest)
    (hp : (oldText hunks).length ≤ p) (hpq : p ≤ q) :
    (⟨(newText hunks).extent, (oldText hunks).extent⟩ : Tracker).express
        ⟨.insert, (oldText hunks ++ rest).position p, (oldText hunks ++ rest).position q⟩ =
      .ok ⟨.insert, (newText hunks ++ rest).position (land hunks p),
        (newText hunks ++ rest).position (land hunks q)⟩ := by
  obtain ⟨hold, hnew⟩ := hw
  rw [List.nil_append] at hold hnew
  obtain ⟨hold, hrest⟩ := Text.size_append_lt hold
  obtain ⟨hnew, -⟩ := Text.size_append_lt hnew
  have hstart := Tracker.toCurrent_position hold hnew hrest hp
  have hstop := Tracker.toCurrent_position hold hnew hrest (hp.trans hpq)
  rw [Tracker.express, hstart, Fault.ok_bind, hstop, Fault.ok_bind, Fault.pure_eq_ok, land_of_le hp,
    land_of_le (hp.trans hpq)]

/-- In a backward run all that comes later is in front of the text put in, and the insert expressed
through it moves like this text. -/
theorem holds_backward {r s t : Text} {earlier later : List Change} {change : Change}
    (hb : Run.Backward (earlier ++ change :: later))
    (hadded : expressAll .start (earlier ++ change :: later).reverse = .ok added)
    (htakes : change.Takes r s) (hstays : Stays s later t i k) (hs : s.size < Text.capacity)
    (hi : i < s.length) (hkind : change.kind = .insert)
    (hstart : change.start ≤ s.position i) (hstop : s.position i < change.stop) :
    Holds (added.map range) (t.position k) := by
  -- the changes that come later are a run of their own, in front of this one
  have hlater : Run.Ordered ⟨.backward, later⟩ := (List.isChain_cons.1 hb.right_of_append).2
  obtain ⟨hunks, rest, rfl, rfl, hlog, hacross⟩ := Run.exists_hunks hlater hstays.trail hs
  replace hlog : later.reverse = Hunk.log .backward [] hunks := hlog
  have hw : Within [] [] hunks rest := ⟨hs, hstays.trail.size_lt hs⟩
  have hextent : (oldText hunks).extent ≤ change.start := by
    have hfront : ∀ c ∈ Hunk.log .backward [] hunks, c.stop ≤ change.start := by
      intro c hc
      rw [← hlog, List.mem_reverse] at hc
      exact stop_le_start hb.right_of_append (fun c hc => hstays.trail.start_le_stop hc) c hc
    have hle := extent_oldText_le (Coord.zero_le change.start) hfront
    rwa [List.nil_append] at hle
  rw [List.reverse_append, List.reverse_cons, hlog, List.append_assoc,
    List.singleton_append] at hadded
  obtain ⟨e, he, hexpress⟩ := exists_express hw hadded
  rw [List.nil_append, List.nil_append] at hexpress
  -- all in numbers: the insert goes from `p` to `q`, and the character between them is `i`
  obtain ⟨hvalid, hvalid'⟩ := htakes.valid_of_insert hkind
  obtain ⟨kind, start, stop⟩ := change
  dsimp only at hkind hextent hstart hstop hvalid hvalid'
  subst hkind
  obtain ⟨p, hp, rfl⟩ := Text.valid_iff.1 hvalid
  obtain ⟨q, hq, rfl⟩ := Text.valid_iff.1 hvalid'
  rw [Text.position_le_iff hp hi.le] at hstart
  rw [Text.position_lt_iff hi.le hq] at hstop
  rw [← Text.position_append (oldText hunks) rest, Text.position_le_iff (by simp) hp] at hextent
  rw [express_insert hw hextent (hstart.trans hstop.le), Except.ok.injEq] at hexpress
  -- the run takes it to where it takes the positions behind all of its hunks
  have hflatten : (Run.steps later).flatten = later := Run.flatten_steps later
  rw [← hflatten] at hstays
  obtain ⟨hmove, -⟩ := hstays.carries (fun _ => Run.isStep_of_mem) hs hi
  have hland := hacross i hi.le
  dsimp only at hmove
  rw [hmove, Except.ok.injEq] at hland
  rw [← hexpress] at he
  rw [land_of_le hextent, land_of_le (by omega)] at he
  rw [hland, land_of_le (by omega)]
  refine holds_insert he (by omega) (by omega) ?_
  simp only [List.length_append] at hq ⊢
  omega

/-- **A character put in by a run** is inside of a range that the run adds. -/
theorem holds_of_putIn {s t : Text} {run : Run} (hr : run.Ordered) (ha : Adds run t added)
    (h : PutIn s run.changes t k) : Holds (added.map range) (t.position k) := by
  obtain ⟨earlier, change, later, u, v, i, hlog, htakes, hsize, hkind, hstart, hstop, hstays⟩ :=
    h.exists_insert
  have hi : i < v.length := Text.lt_length_of_position_lt hstop (htakes.valid_of_insert hkind).2
  have hadded := ha.settled
  obtain ⟨direction, changes⟩ := run
  dsimp only at hlog
  subst hlog
  cases direction with
  | forward =>
    obtain rfl := Except.ok.inj hadded
    exact holds_forward hr hstays hsize hi hkind hstart hstop
  | backward => exact holds_backward hr hadded htakes hstays hsize hi hkind hstart hstop

/-! ## The whole search -/

section

variable {s t : Text} {log : List Change} {ranges : List Selection}

/-- A character that stays is inside of the ranges found in the end, if it was inside of those found
so far. -/
theorem Holds.foldlM_extend (h : Holds ranges (s.position i)) (hfound : Found s ranges)
    (hstays : Stays s log t i k) (hs : s.size < Text.capacity) :
    ∃ ranges', (splitRuns log).foldlM extend ranges = .ok ranges' ∧
      Holds ranges' (t.position k) := by
  induction log using splitRuns.induct generalizing s ranges i with
  | case1 =>
    obtain ⟨rfl, rfl⟩ := hstays
    rw [splitRuns]
    exact ⟨ranges, rfl, h⟩
  | case2 a rest ih =>
    have hr := Run.first_ordered (a :: rest)
    rw [← List.take_append_drop (Run.firstLength (a :: rest)) (a :: rest), Stays.append_iff,
      ← Run.first_changes] at hstays
    obtain ⟨u, j, hfirst, hrest⟩ := hstays
    obtain ⟨f, hf, hacross⟩ := Run.exists_movesBy hr hfirst.trail hs
    obtain ⟨added, ha⟩ := exists_adds hr hfirst.trail hs
    obtain ⟨next, hnext, hfound', hinside, -⟩ := hfound.exists_extend hf ha
    have hholds := (h.map hfound.upright hf.image hacross hfirst hs).of_inside hinside
    obtain ⟨ranges', hfold, hholds'⟩ := ih hholds hfound' hrest (hfirst.trail.size_lt hs)
    refine ⟨ranges', ?_, hholds'⟩
    rw [splitRuns, List.foldlM_cons, hnext, Fault.ok_bind, hfold]

/-- A character that was put in is inside of the ranges found in the end. -/
theorem holds_foldlM_extend (hfound : Found s ranges) (h : PutIn s log t k)
    (hs : s.size < Text.capacity) :
    ∃ ranges', (splitRuns log).foldlM extend ranges = .ok ranges' ∧
      Holds ranges' (t.position k) := by
  induction log using splitRuns.induct generalizing s ranges with
  | case1 => exact h.elim
  | case2 a rest ih =>
    have hr := Run.first_ordered (a :: rest)
    rw [← List.take_append_drop (Run.firstLength (a :: rest)) (a :: rest), ← Run.first_changes] at h
    obtain ⟨u, htrail, h⟩ := h.of_append
    obtain ⟨f, hf, -⟩ := Run.exists_movesBy hr htrail hs
    obtain ⟨added, ha⟩ := exists_adds hr htrail hs
    obtain ⟨next, hnext, hfound', -, hinside⟩ := hfound.exists_extend hf ha
    have hu := htrail.size_lt hs
    rw [splitRuns, List.foldlM_cons, hnext, Fault.ok_bind]
    rcases h with hput | ⟨j, hput, hstays⟩
    · exact ih hfound' hput hu
    · exact ((holds_of_putIn hr ha hput).of_inside hinside).foldlM_extend hfound' hstays hu

end

/-! ## Selected characters -/

/-- One of the selections covers the character at a coordinate. -/
def Covers (selected : List Selection) (c : Coord) : Prop := ∃ s ∈ selected, s.low ≤ c ∧ c ≤ s.high

section

variable {t : Text} {ranges merged selected : List Selection} {k : ℕ}

/-- What is selected for ranges, in numbers. -/
theorem Selected.covers_iff (hs : Selected t merged selected) (hk : k ≤ t.length) :
    Covers selected (t.position k) ↔ ∃ r ∈ merged, ∃ i j, i ≤ j ∧ j ≤ t.length ∧
      r.low = t.position i ∧ r.high = t.position j ∧
      min i (t.length - 1) ≤ k ∧ k ≤ lastNumber t.length i j := by
  constructor
  · rintro ⟨s, hmem, hlow, hhigh⟩
    obtain ⟨r, hr, i, j, hij, hj, hrlow, hrhigh, hslow, hshigh, -⟩ := hs.exists_range s hmem
    rw [hslow, Text.position_le_iff (by omega) hk] at hlow
    rw [hshigh, Text.position_le_iff hk (lastNumber_le.trans hj)] at hhigh
    exact ⟨r, hr, i, j, hij, hj, hrlow, hrhigh, hlow, hhigh⟩
  · rintro ⟨r, hr, i, j, hij, hj, hrlow, hrhigh, hlow, hhigh⟩
    obtain ⟨s, hmem, i', j', hij', hj', hrlow', hrhigh', hslow, hshigh, -⟩ := hs.exists_selection r hr
    obtain rfl : i = i' :=
      (Text.position_inj (hij.trans hj) (hij'.trans hj')).1 (hrlow.symm.trans hrlow')
    obtain rfl : j = j' := (Text.position_inj hj hj').1 (hrhigh.symm.trans hrhigh')
    refine ⟨s, hmem, ?_, ?_⟩
    · rwa [hslow, Text.position_le_iff (by omega) hk]
    · rwa [hshigh, Text.position_le_iff hk (lastNumber_le.trans hj)]

/-- A range that holds a character, in numbers. -/
theorem Holds.exists_range (h : Holds merged (t.position k)) (hs : Selected t merged selected)
    (hk : k ≤ t.length) :
    ∃ r ∈ merged, ∃ i j, i ≤ k ∧ k < j ∧ j ≤ t.length ∧ r.low = t.position i ∧
      r.high = t.position j := by
  obtain ⟨r, hr, hlow, hhigh⟩ := h
  obtain ⟨s, hmem, i, j, hij, hj, hrlow, hrhigh, -⟩ := hs.exists_selection r hr
  rw [hrlow, Text.position_le_iff (hij.trans hj) hk] at hlow
  rw [hrhigh, Text.position_lt_iff hk hj] at hhigh
  exact ⟨r, hr, i, j, hlow, hhigh, hj, hrlow, hrhigh⟩

/-- All characters of a range but the last one of the text are selected. -/
theorem Holds.covers (h : Holds merged (t.position k)) (hs : Selected t merged selected)
    (hk : k + 1 < t.length) : Covers selected (t.position k) := by
  obtain ⟨r, hr, i, j, hik, hkj, hj, hlow, hhigh⟩ := h.exists_range hs (by omega)
  have hlast : k ≤ lastNumber t.length i j := by
    unfold lastNumber
    split <;> omega
  rw [hs.covers_iff (by omega)]
  exact ⟨r, hr, i, j, by omega, hj, hlow, hhigh, by omega, hlast⟩

/-- With a range that reaches up to the end of the text, what is selected is selected for this range,
or for one in front of it, which it does not touch. -/
theorem Selected.covers_cases (hs : Selected t merged selected) (hm : Joined t ranges merged)
    {r : Selection} {i : ℕ} (hr : r ∈ merged) (hi : i ≤ t.length) (hlow : r.low = t.position i)
    (hhigh : r.high = t.position t.length) (hk : k ≤ t.length)
    (hcovers : Covers selected (t.position k)) :
    min i (t.length - 1) ≤ k ∧ k ≤ lastNumber t.length i t.length ∨ k + 1 < i := by
  obtain ⟨r', hr', i', j', hij', hj', hlow', hhigh', hmin, hlast⟩ := (hs.covers_iff hk).1 hcovers
  rcases eq_or_rel_of_pairwise hm.spaced hr hr' with rfl | hsp | hsp
  · obtain rfl : i = i' :=
      (Text.position_inj hi (hij'.trans hj')).1 (hlow.symm.trans hlow')
    obtain rfl : t.length = j' := (Text.position_inj le_rfl hj').1 (hhigh.symm.trans hhigh')
    exact .inl ⟨hmin, hlast⟩
  · -- nothing lies behind a range at the end
    have hlt := hsp.succ_lt le_rfl (hij'.trans hj') hhigh hlow'
    omega
  · have hlt := hsp.succ_lt hj' hi hhigh' hlow
    have hle : lastNumber t.length i' j' ≤ j' := lastNumber_le
    exact .inr (by omega)

/-- **The last character of the text** is selected just when the one before it is not. -/
theorem Holds.covers_iff (h : Holds merged (t.position k)) (hm : Joined t ranges merged)
    (hs : Selected t merged selected) (hk : k + 1 = t.length) :
    Covers selected (t.position k) ↔ ∀ l, l + 1 = k → ¬Covers selected (t.position l) := by
  obtain ⟨r, hr, i, j, hik, hkj, hj, hlow, hhigh⟩ := h.exists_range hs (by omega)
  obtain rfl : j = t.length := by omega
  have hi : i ≤ t.length := by omega
  have hself : ∀ l ≤ t.length, min i (t.length - 1) ≤ l → l ≤ lastNumber t.length i t.length →
      Covers selected (t.position l) := fun l hl hmin hlast =>
    (hs.covers_iff hl).2 ⟨r, hr, i, t.length, hi, le_rfl, hlow, hhigh, hmin, hlast⟩
  have hcases : ∀ l ≤ t.length, Covers selected (t.position l) →
      min i (t.length - 1) ≤ l ∧ l ≤ lastNumber t.length i t.length ∨ l + 1 < i := fun l hl =>
    hs.covers_cases hm hr hi hlow hhigh hl
  rcases Nat.eq_or_lt_of_le hik with rfl | hlt
  · -- the range is the last character
    have hlast : lastNumber t.length i t.length = i := by
      unfold lastNumber
      split <;> omega
    refine iff_of_true (hself i (by omega) (by omega) hlast.ge) fun l hl hcovers => ?_
    have := hcases l (by omega) hcovers
    omega
  · -- the selection of the range ends with the character before the last one
    have hlast : lastNumber t.length i t.length = k - 1 := by
      unfold lastNumber
      split <;> omega
    refine iff_of_false (fun hcovers => ?_) fun hnot => ?_
    · have := hcases k (by omega) hcovers
      omega
    · exact hnot (k - 1) (by omega) (hself (k - 1) (by omega) (by omega) hlast.ge)

end

end Edited

open Edited in
/-- **Text that was put in is selected**, for every buffer that edits, undo and redo lead to and every
timestamp that is not later than now, character by character: those that were put in since the timestamp
and are still there are all covered by the selections, save for the last one of the text, which is
covered just when the one before it is not. -/
theorem Reached.covers_putIn {origin : Text} {d : Draft} {timestamp k : ℕ} (h : Reached origin d)
    (hn : timestamp ≤ d.buffer.timestamp)
    (hput : PutIn (d.textAt origin timestamp) (d.buffer.log.drop timestamp) d.buffer.text k) :
    ∃ selected, d.buffer.editedRanges timestamp = .ok selected ∧
      (k + 1 < d.buffer.text.length → Covers selected (d.buffer.text.position k)) ∧
      (k + 1 = d.buffer.text.length → (Covers selected (d.buffer.text.position k) ↔
        ∀ l, l + 1 = k → ¬Covers selected (d.buffer.text.position l))) := by
  have hc := h.chronicle
  have hsmall := hc.small timestamp hn
  obtain ⟨ranges, hfold, hfound, -⟩ :=
    (Found.nil _).exists_foldlM_extend (hc.trail_since hn) hsmall
  obtain ⟨ranges', hfold', hholds⟩ := holds_foldlM_extend (Found.nil _) hput hsmall
  obtain rfl : ranges = ranges' := Except.ok.inj (hfold.symm.trans hfold')
  obtain ⟨merged, selected, hedited, hjoined, hselected⟩ :=
    hfound.exists_selected hc.size_lt (Buffer.logSince_eq hn) hfold
  have hmerged := hholds.of_inside hjoined.inside
  exact ⟨selected, hedited, hmerged.covers hselected, hmerged.covers_iff hjoined hselected⟩

/-- The text that undo brings back was put in, and its first character is selected. -/
theorem Reached.covers_putIn_sample :
    PutIn ['a', 'b'] Reached.sample.buffer.log ['a', 'x', '\n', 'b'] 0 ∧
      ∃ selected, Reached.sample.buffer.editedRanges 0 = .ok selected ∧
        Edited.Covers selected ⟨0, 0⟩ := by
  have hput : PutIn ['a', 'b'] Reached.sample.buffer.log ['a', 'x', '\n', 'b'] 0 := by
    refine ⟨_, .insert ['a'] ['x', '\n'] ['b'] (by decide), by decide, .inl ?_⟩
    refine ⟨_, .erase [] ['a', 'x', '\n'] ['b'] (by decide), by decide, .inl ?_⟩
    refine ⟨_, .insert [] ['a', 'x', '\n'] ['b'] (by decide), by decide, .inr ?_⟩
    exact ⟨rfl, 0, by decide, by decide, rfl, rfl⟩
  have htime : 0 ≤ Reached.sample.buffer.timestamp := by decide
  obtain ⟨selected, hselected, hcovers, -⟩ := Reached.covers_putIn Reached.of_script htime hput
  exact ⟨hput, selected, hselected, hcovers (by decide)⟩

/-- A text put in at the end of the buffer: of its three characters the last one is not selected. -/
theorem Reached.not_covers_putIn :
    ∃ d, Draft.run { buffer := Buffer.ofText 0 [] {} } [.insert ⟨0, 0⟩ ['a', 'b', 'c']] = .ok d ∧
      Reached [] d ∧ PutIn [] d.buffer.log d.buffer.text 2 ∧
      ∃ selected, d.buffer.editedRanges 0 = .ok selected ∧
        ¬Edited.Covers selected (d.buffer.text.position 2) := by
  refine ⟨_, rfl, ⟨0, {}, [.insert ⟨0, 0⟩ ['a', 'b', 'c']], by decide,
    by simp [Command.KeepsRecording], rfl⟩, ?_, ?_⟩
  · refine ⟨_, .insert [] ['a', 'b', 'c'] [] (by decide), by decide, .inr ?_⟩
    exact ⟨rfl, 2, by decide, by decide, rfl, rfl⟩
  · refine ⟨[{ anchor := ⟨0, 0⟩, cursor := ⟨0, 1⟩ }], by decide +kernel, ?_⟩
    rintro ⟨s, hs, -, hle⟩
    obtain rfl := List.mem_singleton.1 hs
    revert hle
    decide

end Caret
