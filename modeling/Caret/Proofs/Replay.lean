import Mathlib.Data.List.Chain
import Caret.Proofs.Trail
import Caret.Change.Run

/-!
# The steps of a replay

To replay a run at once is as good as to move positions across its changes one by one, save for an
insert and an erase right up to its place. A backward run is replayed from its end, so that of these
two the erase comes first: what it takes out collapses onto the place where the insert then puts its
text, and is pushed behind it. Such a pair is a step of its own.

* `Run.steps`, `replay`: the steps in which a run, and a stretch of the log, are replayed.
* `Coord.acrossSteps`: a coordinate moved across steps.
* `replay_of_apart`: without such pairs every change is a step.
* `Text.acrossStep_pair`: where a pair puts the positions of a text.
* `Change.Replaces`: such a pair and the texts around it.
* `IsStep`, `flatten_replay`: what steps there are, and that together they are the log.
-/

namespace Caret

/-- An erase right up to the place of an insert. -/
def Change.ErasesUpTo (b a : Change) : Prop := a.kind = .insert ∧ b.kind = .erase ∧ b.stop = a.start

instance (b a : Change) : Decidable (b.ErasesUpTo a) :=
  inferInstanceAs (Decidable (a.kind = .insert ∧ b.kind = .erase ∧ b.stop = a.start))

/-- The steps in which the changes of a run are replayed. -/
def Run.steps : List Change → List (List Change)
  | [] => []
  | [a] => [[a]]
  | a :: b :: rest =>
    if b.ErasesUpTo a then [a, b] :: steps rest else [a] :: steps (b :: rest)

/-- The steps in which a stretch of the log is replayed, run by run. -/
def replay (log : List Change) : List (List Change) :=
  (splitRuns log).flatMap fun run => Run.steps run.changes

namespace Coord

/-- A coordinate moved across a step. Of an insert and an erase right up to its place the erase comes
first. Only what lies behind the start of the erase gets to see the insert. -/
def acrossStep (c : Coord) : List Change → Except Fault Coord
  | [a, b] =>
    if c ≤ b.start then .ok c
    else do c.across [b, ⟨.insert, b.start, ← b.move a.stop⟩]
  | changes => c.across changes

/-- A coordinate moved across each step in turn. -/
def acrossSteps (c : Coord) (steps : List (List Change)) : Except Fault Coord :=
  steps.foldlM acrossStep c

variable {c d : Coord} {step : List Change} {steps steps' : List (List Change)}

theorem acrossSteps_cons (h : c.acrossStep step = .ok d) :
    c.acrossSteps (step :: steps) = d.acrossSteps steps := by
  unfold acrossSteps
  rw [List.foldlM_cons, h, Fault.ok_bind]

theorem acrossSteps_append (h : c.acrossSteps steps = .ok d) :
    c.acrossSteps (steps ++ steps') = d.acrossSteps steps' := by
  unfold acrossSteps at h ⊢
  rw [List.foldlM_append, h, Fault.ok_bind]

theorem acrossStep_single (c : Coord) (change : Change) :
    c.acrossStep [change] = change.move c := by
  show c.across [change] = change.move c
  unfold across
  rw [List.foldlM_cons]
  cases change.move c <;> rfl

/-- Steps of one change each. -/
theorem acrossSteps_map (c : Coord) (log : List Change) :
    c.acrossSteps (log.map fun change => [change]) = c.across log := by
  have hstep : (fun c change => acrossStep c [change]) = fun c (change : Change) => change.move c := by
    funext c change
    exact acrossStep_single c change
  unfold acrossSteps across
  rw [List.foldlM_map, hstep]

end Coord

namespace Run

variable {a b : Change} {changes rest : List Change}

theorem steps_pair (h : b.ErasesUpTo a) : steps (a :: b :: rest) = [a, b] :: steps rest := by
  rw [steps, if_pos h]

theorem steps_single (h : ∀ b ∈ changes.head?, ¬b.ErasesUpTo a) :
    steps (a :: changes) = [a] :: steps changes := by
  cases changes with
  | nil => rfl
  | cons b rest => rw [steps, if_neg (h b rfl)]

theorem steps_of_apart (h : changes.IsChain fun a b => ¬b.ErasesUpTo a) :
    steps changes = changes.map fun change => [change] := by
  induction changes with
  | nil => rfl
  | cons a changes ih =>
    obtain ⟨hnext, h⟩ := List.isChain_cons.1 h
    rw [steps_single hnext, ih h, List.map_cons]

end Run

theorem replay_cons (a : Change) (rest : List Change) :
    replay (a :: rest) = Run.steps ((a :: rest).take (Run.firstLength (a :: rest))) ++
      replay ((a :: rest).drop (Run.firstLength (a :: rest))) := by
  unfold replay
  rw [splitRuns, List.flatMap_cons, Run.first_changes]

/-- **Without an erase right up to the insert before it** every change is a step of its own. -/
theorem replay_of_apart {log : List Change} (h : log.IsChain fun a b => ¬b.ErasesUpTo a) :
    replay log = log.map fun change => [change] := by
  induction log using splitRuns.induct with
  | case1 =>
    unfold replay
    rw [splitRuns]
    rfl
  | case2 a rest ih =>
    have hsplit := List.take_append_drop (Run.firstLength (a :: rest)) (a :: rest)
    have happ := h
    rw [← hsplit] at happ
    have hfirst := Run.steps_of_apart happ.left_of_append
    have hrest := ih happ.right_of_append
    rw [replay_cons, hfirst, hrest, ← List.map_append, hsplit]

/-- **Across a pair.** A position inside of the text taken out ends up behind the text put in, and so
does everything behind it. -/
theorem Text.acrossStep_pair {before mid new after : Text}
    (hs : (before ++ mid ++ after).size < capacity)
    (hu : (before ++ mid ++ (new ++ after)).size < capacity) {i : ℕ}
    (hi : i ≤ (before ++ mid ++ after).length) :
    ((before ++ mid ++ after).position i).acrossStep
        [⟨.insert, (before ++ mid).extent, (before ++ mid ++ new).extent⟩,
          ⟨.erase, before.extent, (before ++ mid).extent⟩] =
      .ok ((before ++ new ++ after).position
        (if i ≤ before.length then i else
          if i ≤ before.length + mid.length then before.length + new.length
          else i - mid.length + new.length)) := by
  have hlen : (before ++ mid ++ new).length ≤ (before ++ mid ++ (new ++ after)).length := by
    simp only [List.length_append]
    omega
  have ht : (before ++ new ++ after).size < capacity := by
    simp only [size_append] at hu ⊢
    omega
  have hstart : before.extent = (before ++ mid ++ after).position before.length := by
    rw [List.append_assoc, position_append]
  -- where the erase leaves the end of the text put in
  have hstop : (⟨.erase, before.extent, (before ++ mid).extent⟩ : Change).move
      (before ++ mid ++ new).extent = .ok (before ++ new).extent := by
    have hmove := move_erase hu hlen
    have hfrom : (before ++ mid ++ (new ++ after)).position (before ++ mid ++ new).length =
        (before ++ mid ++ new).extent := by
      rw [← List.append_assoc (before ++ mid), position_append]
    have hto : (before ++ (new ++ after)).position (before ++ new).length = (before ++ new).extent := by
      rw [← List.append_assoc, position_append]
    have hindex : (if (before ++ mid ++ new).length < before.length then (before ++ mid ++ new).length
        else if (before ++ mid ++ new).length ≤ before.length + mid.length then before.length
        else (before ++ mid ++ new).length - mid.length) = (before ++ new).length := by
      simp only [List.length_append]
      split <;> (try split) <;> omega
    rw [hfrom, hindex, hto] at hmove
    exact hmove
  unfold Coord.acrossStep
  dsimp only
  by_cases hle : i ≤ before.length
  · have hfront : (before ++ mid ++ after).position i ≤ before.extent := by
      rw [hstart, position_le_iff hi (by simp)]
      exact hle
    rw [if_pos hfront, if_pos hle, List.append_assoc, position_append_left _ hle, List.append_assoc,
      position_append_left _ hle]
  · have hbehind : ¬(before ++ mid ++ after).position i ≤ before.extent := by
      rw [hstart, position_le_iff hi (by simp)]
      exact hle
    have herase := move_erase hs hi
    generalize hj : (if i < before.length then i else
      if i ≤ before.length + mid.length then before.length else i - mid.length) = j at herase
    have hjle : j ≤ (before ++ after).length := by
      simp only [List.length_append] at hi ⊢
      rw [← hj]
      split <;> (try split) <;> omega
    have hinsert := move_insert ht hjle
    have hindex : (if j < before.length then j else j + new.length) =
        if i ≤ before.length + mid.length then before.length + new.length
        else i - mid.length + new.length := by
      rw [← hj]
      split <;> split <;> (try split) <;> omega
    rw [if_neg hbehind, if_neg hle, hstop, Fault.ok_bind, Coord.across_cons herase,
      Coord.across_cons hinsert, hindex]
    rfl

/-! ## Pairs and steps between texts -/

/-- **An insert and the erase right up to it**, the text before the first and the one after the
second. -/
inductive Change.Replaces : Change → Change → Text → Text → Prop
  | intro (before mid new after : Text) (hmid : mid ≠ []) (hnew : new ≠ [])
      (hsize : (before ++ mid ++ (new ++ after)).size < Text.capacity) :
    Replaces ⟨.insert, (before ++ mid).extent, (before ++ mid ++ new).extent⟩
      ⟨.erase, before.extent, (before ++ mid).extent⟩
      (before ++ mid ++ after) (before ++ (new ++ after))

variable {a b : Change} {s t : Text} {log : List Change}

theorem Trail.exists_replaces (h : Trail s (a :: b :: log) t) (hup : b.ErasesUpTo a) :
    ∃ u, a.Replaces b s u ∧ Trail u log t := by
  obtain ⟨hinsert, herase, hstop⟩ := hup
  obtain ⟨v, hv, hsize, w, hw, -, h⟩ := h
  cases hv with
  | erase => cases hinsert
  | insert front new after hnew =>
    generalize hfv : front ++ new ++ after = v at hw hsize
    cases hw with
    | insert => cases herase
    | erase before mid behind hmid =>
      -- the erase ends where the insert begins, so that all of the text put in is behind it
      rw [List.append_assoc front] at hfv
      obtain ⟨rfl, rfl⟩ := Text.eq_of_extent_eq hfv.symm hstop
      exact ⟨_, .intro before mid new after hmid hnew hsize, h⟩

namespace Change.Replaces

theorem size_lt (h : a.Replaces b s t) : t.size < Text.capacity := by
  obtain ⟨before, mid, new, after, hmid, hnew, hsize⟩ := h
  simp only [Text.size_append] at hsize ⊢
  omega

theorem exists_acrossStep (h : a.Replaces b s t) (hs : s.size < Text.capacity) {i : ℕ}
    (hi : i ≤ s.length) : ∃ j ≤ t.length, (s.position i).acrossStep [a, b] = .ok (t.position j) := by
  obtain ⟨before, mid, new, after, hmid, hnew, hsize⟩ := h
  have hstep := Text.acrossStep_pair hs hsize hi
  rw [List.append_assoc before new] at hstep
  refine ⟨_, ?_, hstep⟩
  simp only [List.length_append] at hi ⊢
  split <;> (try split) <;> omega

/-- **Outside of the text taken out** it does not matter whether the pair is a single step. -/
theorem acrossStep_eq (h : a.Replaces b s t) (hs : s.size < Text.capacity) {i : ℕ}
    (hi : i ≤ s.length) (hout : s.position i ≤ b.start ∨ b.stop ≤ s.position i) :
    (s.position i).acrossStep [a, b] = (s.position i).across [a, b] := by
  obtain ⟨before, mid, new, after, hmid, hnew, hsize⟩ := h
  have hpos : 0 < mid.length := List.length_pos_iff.2 hmid
  have hpos' : 0 < new.length := List.length_pos_iff.2 hnew
  have hstart : before.extent = (before ++ mid ++ after).position before.length := by
    rw [List.append_assoc, Text.position_append]
  have hstop : (before ++ mid).extent =
      (before ++ mid ++ after).position (before ++ mid).length := (Text.position_append _ _).symm
  have houtside : i ≤ before.length ∨ before.length + mid.length ≤ i := by
    rcases hout with hle | hle
    · rw [hstart, Text.position_le_iff hi (by simp)] at hle
      exact .inl hle
    · rw [hstop, Text.position_le_iff (by simp) hi, List.length_append] at hle
      exact .inr hle
  have hstep := Text.acrossStep_pair hs hsize hi
  -- the two changes one by one
  rw [← List.append_assoc (before ++ mid)] at hsize
  have hinsert := Text.move_insert hsize hi
  generalize hj : (if i < (before ++ mid).length then i else i + new.length) = j at hinsert
  have hjle : j ≤ (before ++ mid ++ (new ++ after)).length := by
    simp only [List.length_append] at hi hj ⊢
    split at hj <;> omega
  rw [List.append_assoc (before ++ mid)] at hsize hinsert
  have herase := Text.move_erase hsize hjle
  have hindex : (if j < before.length then j else
      if j ≤ before.length + mid.length then before.length else j - mid.length) =
      if i ≤ before.length then i else
        if i ≤ before.length + mid.length then before.length + new.length
        else i - mid.length + new.length := by
    rw [List.length_append] at hj
    rcases houtside with hle | hle
    · have hji : j = i := by
        rw [← hj]
        exact if_pos (by omega)
      rw [hji, if_pos hle]
      split
      · rfl
      · rw [if_pos (by omega)]
        omega
    · have hji : j = i + new.length := by
        rw [← hj]
        exact if_neg (by omega)
      rw [hji, if_neg (by omega), if_neg (by omega), if_neg (by omega)]
      split <;> omega
  rw [hstep, Coord.across_cons hinsert, Coord.across_cons herase, hindex,
    ← List.append_assoc before new]
  rfl

end Change.Replaces

/-- A step of a replay: a change, or an insert and the erase right up to it. -/
inductive IsStep : List Change → Prop
  | single (a : Change) : IsStep [a]
  | pair {a b : Change} (h : b.ErasesUpTo a) : IsStep [a, b]

variable {changes step : List Change} {c : Coord}

theorem Run.isStep_of_mem (h : step ∈ steps changes) : IsStep step := by
  induction changes using Run.steps.induct with
  | case1 => cases h
  | case2 a =>
    rw [List.mem_singleton.1 h]
    exact .single a
  | case3 a b rest hup ih =>
    rw [steps_pair hup] at h
    rcases List.mem_cons.1 h with rfl | h
    · exact .pair hup
    · exact ih h
  | case4 a b rest hup ih =>
    rw [steps, if_neg hup] at h
    rcases List.mem_cons.1 h with rfl | h
    · exact .single a
    · exact ih h

theorem isStep_of_mem_replay (h : step ∈ replay log) : IsStep step := by
  obtain ⟨run, -, h⟩ := List.mem_flatMap.1 h
  exact Run.isStep_of_mem h

theorem Run.flatten_steps (changes : List Change) : (steps changes).flatten = changes := by
  induction changes using Run.steps.induct with
  | case1 => rfl
  | case2 a => rfl
  | case3 a b rest hup ih => rw [steps_pair hup, List.flatten_cons, ih]; rfl
  | case4 a b rest hup ih => rw [steps, if_neg hup, List.flatten_cons, ih]; rfl

/-- The steps put together are the log. -/
theorem flatten_replay (log : List Change) : (replay log).flatten = log := by
  have hruns := flatMap_splitRuns log
  unfold replay
  rw [List.flatten_eq_flatMap, List.flatMap_assoc]
  simp only [List.flatMap_id, Run.flatten_steps]
  exact hruns

/-- **One step of a replay.** Positions become positions. -/
theorem IsStep.exists_acrossStep (h : IsStep step) (ht : Trail s (step ++ log) t)
    (hs : s.size < Text.capacity) (hc : s.Valid c) :
    ∃ u d, Trail u log t ∧ u.size < Text.capacity ∧ u.Valid d ∧ c.acrossStep step = .ok d := by
  obtain ⟨i, hi, rfl⟩ := Text.valid_iff.1 hc
  cases h with
  | single a =>
    obtain ⟨u, hu, hub, ht⟩ := ht
    obtain ⟨f, -, hf, hmove⟩ := hu.exists_move hs hub
    have hstep := (Coord.acrossStep_single _ _).trans (hmove i hi)
    exact ⟨u, _, ht, hub, Text.valid_position (hf i hi), hstep⟩
  | pair hup =>
    obtain ⟨u, hu, ht⟩ := ht.exists_replaces hup
    obtain ⟨j, hj, hstep⟩ := hu.exists_acrossStep hs hi
    exact ⟨u, _, ht, hu.size_lt, Text.valid_position hj, hstep⟩

end Caret
