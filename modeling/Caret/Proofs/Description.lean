import Mathlib.Data.List.Rotate
import Caret.Proofs.Update
import Caret.Selection.Description

/-!
# Selections in words

A description says where a selection is, so that writing a list down and reading it again leads to the
selections it had. The main selection comes first in what is written; sorting puts it back into its
place.

* `Selection.ofDescription_written`: one selection written and read.
* `Selections.normalize_eq_of_perm`: selections that lie apart are put back into their places.
* `SelectionList.ofDescriptions_describe`: a list written, and read at any later time.
-/

namespace Caret

namespace Description

/-- The digits of a count. -/
def digits (n : ℕ) : List Char := Nat.toDigits 10 n

variable {n : ℕ} {c : Char}

theorem isDigit_of_mem_digits (h : c ∈ digits n) : c.isDigit = true :=
  Nat.isDigit_of_mem_toDigits (by decide) (by decide) h

/-- Nothing but a digit is among the digits. -/
theorem not_mem_digits (h : c.isDigit = false) : c ∉ digits n := by
  intro hmem
  rw [isDigit_of_mem_digits hmem] at h
  exact absurd h (by decide)

theorem isBlank_of_isDigit (h : c.isDigit = true) : isBlank c = false := by
  have hrange : 48 ≤ c.toNat ∧ c.toNat ≤ 57 := by
    unfold Char.isDigit at h
    rw [Bool.and_eq_true, decide_eq_true_iff, decide_eq_true_iff] at h
    exact h
  unfold isBlank
  simp
  omega

/-- What is left of white space in front of something else. -/
theorem dropWhile_isBlank_append {front mid back : List Char} (hfront : ∀ c ∈ front, isBlank c = true)
    (hmid : ∀ c ∈ mid, isBlank c = false) (hne : mid ≠ []) :
    (front ++ mid ++ back).dropWhile isBlank = mid ++ back := by
  obtain ⟨c, mid, rfl⟩ := List.exists_cons_of_ne_nil hne
  have hc : isBlank c = false := hmid c List.mem_cons_self
  rw [List.append_assoc, List.dropWhile_append_of_pos hfront, List.cons_append,
    List.dropWhile_cons_of_neg (by simp [hc])]

/-- White space around something without any is taken away. -/
theorem trim_append {front mid back : List Char} (hfront : ∀ c ∈ front, isBlank c = true)
    (hback : ∀ c ∈ back, isBlank c = true) (hmid : ∀ c ∈ mid, isBlank c = false) (hne : mid ≠ []) :
    trim (front ++ mid ++ back) = mid := by
  have hback' : ∀ c ∈ back.reverse, isBlank c = true := fun c hc => hback c (List.mem_reverse.1 hc)
  have hmid' : ∀ c ∈ mid.reverse, isBlank c = false := fun c hc => hmid c (List.mem_reverse.1 hc)
  have hdrop : (back.reverse ++ mid.reverse ++ []).dropWhile isBlank = mid.reverse ++ [] :=
    dropWhile_isBlank_append hback' hmid' (by simpa using hne)
  rw [List.append_nil, List.append_nil] at hdrop
  unfold trim
  rw [dropWhile_isBlank_append hfront hmid hne, List.reverse_append, hdrop, List.reverse_reverse]

theorem trim_digits (n : ℕ) : trim (digits n) = digits n := by
  have hblank : ∀ c ∈ digits n, isBlank c = false := fun c hc => isBlank_of_isDigit (isDigit_of_mem_digits hc)
  have htrim : trim ([] ++ digits n ++ []) = digits n :=
    trim_append (by simp) (by simp) hblank Nat.toDigits_ne_nil
  rwa [List.nil_append, List.append_nil] at htrim

theorem splitFirst_append {separator : Char} {before after : List Char} (h : separator ∉ before) :
    splitFirst separator (before ++ separator :: after) = some (before, after) := by
  induction before with
  | nil => exact if_pos rfl
  | cons c before ih =>
    obtain ⟨hc, h⟩ := not_or.1 (mt List.mem_cons.2 h)
    rw [List.cons_append, splitFirst, if_neg (Ne.symm hc), ih h]
    rfl

theorem value_digits (n : ℕ) : value (digits n) = n := by
  have hfold := Nat.ofDigitChars_ten_toDigits (n := n)
  rw [Nat.ofDigitChars_eq_foldl] at hfold
  exact hfold

/-- **A count written and read.** -/
theorem count?_digits (h : n < Count.bound) : count? (digits n) = some n := by
  have hne : digits n ≠ [] := Nat.toDigits_ne_nil
  have hall : (digits n).all Char.isDigit = true := List.all_eq_true.2 fun c => isDigit_of_mem_digits
  have hplus : '+' ∉ digits n := not_mem_digits (by decide)
  unfold count?
  dsimp only
  split
  · rename_i rest heq
    rw [heq] at hplus
    exact absurd List.mem_cons_self hplus
  · rw [value_digits, if_pos ⟨hne, hall, h⟩]

/-- A coordinate as it is written, lines and columns counted from one. -/
def written (c : Coord) : List Char := digits (c.line + 1) ++ '.' :: digits (c.column + 1)

/-- **A coordinate written and read.** -/
theorem coord_written (description : String) {c : Coord} (hline : c.line + 1 < Count.bound)
    (hcolumn : c.column + 1 < Count.bound) : coord description (written c) = .ok c := by
  have hdot : '.' ∉ digits (c.line + 1) := not_mem_digits (by decide)
  have hsplit : splitFirst '.' (digits (c.line + 1) ++ '.' :: digits (c.column + 1)) =
      some (digits (c.line + 1), digits (c.column + 1)) := splitFirst_append hdot
  unfold coord written
  simp only [hsplit, trim_digits, count?_digits hline, count?_digits hcolumn]
  rw [if_neg (by omega)]
  rfl

end Description

namespace Selection

open Description

/-- The two ends fit into a description. -/
def Writable (s : Selection) : Prop :=
  (s.anchor.line + 1 < Count.bound ∧ s.anchor.column + 1 < Count.bound) ∧
    s.cursor.line + 1 < Count.bound ∧ s.cursor.column + 1 < Count.bound

theorem ValidIn.writable {s : Selection} {t : Text} (h : s.ValidIn t)
    (ht : t.size < Text.capacity) : s.Writable := by
  have hbound : ∀ {c : Coord}, t.Valid c → c.line + 1 < Count.bound ∧ c.column + 1 < Count.bound := by
    intro c hc
    obtain ⟨hline, hcolumn⟩ := hc.signed ht
    have := Count.signedBound_add_self
    unfold Count.signedBound at *
    omega
  exact ⟨hbound h.1, hbound h.2⟩

/-- The description of a selection. -/
def written (s : Selection) : List Char :=
  Description.written s.anchor ++ ',' :: Description.written s.cursor

theorem describe_eq {s : Selection} (h : s.Writable) : s.describe = .ok (String.ofList s.written) := by
  obtain ⟨⟨hal, hac⟩, hcl, hcc⟩ := h
  rw [describe, Count.add_of_lt hal, Fault.ok_bind, Count.add_of_lt hac, Fault.ok_bind,
    Count.add_of_lt hcl, Fault.ok_bind, Count.add_of_lt hcc, Fault.ok_bind, Fault.pure_eq_ok,
    Except.ok.injEq, ← String.toList_inj]
  simp [written, Description.written, digits]
  rfl

theorem not_mem_written {c : Char} (hdigit : c.isDigit = false) (hdot : c ≠ '.') (coord : Coord) :
    c ∉ Description.written coord := by
  unfold Description.written
  rw [List.mem_append, List.mem_cons]
  rintro (h | h | h)
  · exact not_mem_digits hdigit h
  · exact hdot h
  · exact not_mem_digits hdigit h

/-- **A selection written and read.** What is not written, captures and the column it aims for, is not
there. -/
theorem ofDescription_written {s : Selection} (h : s.Writable) :
    ofDescription (String.ofList s.written) = .ok { anchor := s.anchor, cursor := s.cursor } := by
  have hsplit : splitFirst ',' s.written =
      some (Description.written s.anchor, Description.written s.cursor) :=
    splitFirst_append (not_mem_written (by decide) (by decide) s.anchor)
  unfold ofDescription
  simp only [String.toList_ofList, hsplit, coord_written _ h.1.1 h.1.2, coord_written _ h.2.1 h.2.2]
  rfl

theorem space_not_mem_written (s : Selection) : ' ' ∉ s.written := by
  unfold written
  rw [List.mem_append, List.mem_cons]
  rintro (h | h | h)
  · exact not_mem_written (by decide) (by decide) _ h
  · exact absurd h (by decide)
  · exact not_mem_written (by decide) (by decide) _ h

end Selection

/-! ## Lists of descriptions -/

/-- A text cut at its spaces. -/
def Description.pieces (text : String) : List String :=
  (text.toList.splitOn ' ').map String.ofList

namespace Selections

variable {g : Selections}

theorem rotateLeft_eq {items : List Selection} {main : ℕ} (h : main < items.length) :
    items.rotateLeft main = items.drop main ++ items.take main := by
  unfold List.rotateLeft
  dsimp only
  split
  · obtain rfl : main = 0 := by omega
    simp
  · rw [Nat.mod_eq_of_lt h]

theorem rotateLeft_perm {items : List Selection} {main : ℕ} (h : main < items.length) :
    (items.rotateLeft main).Perm items := by
  rw [rotateLeft_eq h]
  exact List.perm_append_comm.trans (.of_eq (List.take_append_drop main items))

/-- **Selections that lie apart, in any order**, are sorted into their places, and the main one is main
where it comes to stand. -/
theorem normalize_eq_of_perm {g' : Selections} (hperm : g'.items.Perm g.items)
    (h : g.items.Pairwise fun a b => a.high < b.low) (hmain : g.main < g.items.length)
    (hsame : g'.items[g'.main]? = some g.items[g.main]) : g'.normalize = g := by
  have hsorted : g'.sort.items = g.items := by
    have hlow : g.items.Pairwise fun a b => a.low ≤ b.low :=
      h.imp fun {a _} hlt => a.low_le_high.trans hlt.le
    refine (g'.sort_perm.trans hperm).eq_of_pairwise ?_ g'.sort_sorted hlow
    -- no two of them start at the same coordinate
    intro a b ha hb hab hba
    have ha' := hperm.mem_iff.1 (g'.sort_perm.mem_iff.1 ha)
    rcases eq_or_rel_of_pairwise h ha' hb with heq | hlt | hlt
    · exact heq
    · exact absurd (hlt.trans_le hba) (not_lt.2 a.low_le_high)
    · exact absurd (hlt.trans_le hab) (not_lt.2 b.low_le_high)
  have hitems : g'.normalize.items = g.items := by
    rw [normalize, items_mergeOverlapping (by rwa [hsorted]), hsorted]
  have hholds : g'.MainHolds g.items[g.main].extent := ⟨_, hsame, le_rfl, le_rfl⟩
  obtain ⟨s, hs, hin⟩ := hholds.normalize
  rw [hitems] at hs
  have hs' : g.extents[g'.normalize.main]? = some s.extent := by
    rw [extents, List.getElem?_map, hs]
    rfl
  have hg : g.extents[g.main]? = some g.items[g.main].extent := by
    rw [extents, List.getElem?_map, List.getElem?_eq_getElem hmain]
    rfl
  have hindex := Span.Apart.index_eq (List.pairwise_map.2 h) hs' hg
    ⟨hin.1, g.items[g.main].low_le_high.trans hin.2⟩ ⟨le_rfl, g.items[g.main].low_le_high⟩
  calc g'.normalize = ⟨g'.normalize.items, g'.normalize.main⟩ := rfl
    _ = g := by rw [hitems, hindex]

/-- Settled selections in any rotation, of which the first one is main. -/
theorem normalize_rotateLeft (h : g.items.Pairwise fun a b => a.high < b.low)
    (hmain : g.main < g.items.length) : normalize ⟨g.items.rotateLeft g.main, 0⟩ = g := by
  refine normalize_eq_of_perm (rotateLeft_perm hmain) h hmain ?_
  dsimp only
  rw [rotateLeft_eq hmain, List.drop_eq_getElem_cons hmain]
  rfl

theorem normalize_eq_self (h : g.items.Pairwise fun a b => a.high < b.low)
    (hmain : g.main < g.items.length) : g.normalize = g :=
  normalize_eq_of_perm (.refl _) h hmain (List.getElem?_eq_getElem hmain)

end Selections

namespace SelectionList

open Description

/-- The selection with nothing but its ends. -/
def bare (s : Selection) : Selection := { anchor := s.anchor, cursor := s.cursor }

/-- **A list written**, cut at its spaces and read piece by piece. -/
theorem exists_describe {l : SelectionList} (hmain : l.group.main < l.group.items.length)
    (h : ∀ s ∈ l.group.items, s.Writable) :
    ∃ text, l.describe = .ok text ∧ (pieces text).mapM Selection.ofDescription =
      .ok ((l.group.items.rotateLeft l.group.main).map bare) := by
  have hperm := Selections.rotateLeft_perm hmain
  generalize hitems : l.group.items.rotateLeft l.group.main = items at hperm
  have hwritable : ∀ s ∈ items, s.Writable := fun s hs => h s (hperm.mem_iff.1 hs)
  have hne : items ≠ [] := by
    rintro rfl
    rw [← hperm.length_eq] at hmain
    exact absurd hmain (Nat.not_lt_zero _)
  have hdescribe := Fault.mapM_eq_ok fun s hs => Selection.describe_eq (hwritable s hs)
  refine ⟨_, by rw [describe, hitems, hdescribe, Fault.ok_bind, Fault.pure_eq_ok], ?_⟩
  have hpieces : pieces (" ".intercalate (items.map fun s => String.ofList s.written)) =
      items.map fun s => String.ofList s.written := by
    have hspace : ∀ cs ∈ items.map Selection.written, ' ' ∉ cs := by
      intro cs hcs
      obtain ⟨s, -, rfl⟩ := List.mem_map.1 hcs
      exact s.space_not_mem_written
    have hchars : (items.map fun s => String.ofList s.written).map String.toList =
        items.map Selection.written := by
      simp only [List.map_map, Function.comp_def, String.toList_ofList]
    have hsplit := List.splitOn_intercalate ' ' hspace (by simpa using hne)
    rw [pieces, String.toList_intercalate, hchars, show " ".toList = [' '] from rfl, hsplit,
      List.map_map]
    rfl
  rw [hpieces, List.mapM_map]
  exact Fault.mapM_eq_ok fun s hs => Selection.ofDescription_written (hwritable s hs)

/-- The selections that descriptions stand for, sorted and merged. -/
theorem ofDescriptionsThen_eq {b : Buffer} {descriptions : List String} {timestamp main : ℕ}
    {items : List Selection} (htime : timestamp ≤ b.timestamp)
    (hitems : descriptions.mapM Selection.ofDescription = .ok items) (hmain : main < items.length) :
    ofDescriptionsThen b descriptions timestamp main =
      .ok ⟨Selections.normalize ⟨items, main⟩, b.id, timestamp⟩ := by
  have hcheck : (Selections.normalize ⟨items, main⟩).main <
      (Selections.normalize ⟨items, main⟩).items.length :=
    (Selections.mainHolds_self (g := ⟨items, main⟩) hmain).normalize.main_lt
  have hne : (Selections.normalize ⟨items, main⟩).items ≠ [] :=
    List.ne_nil_of_length_pos (Nat.zero_lt_of_lt hcheck)
  have hempty : items.isEmpty = false := by
    cases items with
    | nil => exact absurd hmain (Nat.not_lt_zero _)
    | cons s items => rfl
  have hlist : ofTimestamp b (Selections.normalize ⟨items, main⟩).items timestamp =
      .ok ⟨⟨(Selections.normalize ⟨items, main⟩).items,
        (Selections.normalize ⟨items, main⟩).items.length - 1⟩, b.id, timestamp⟩ := by
    rw [ofTimestamp, Fault.unless_of hne, Fault.ok_bind, Fault.unless_of htime, Fault.ok_bind,
      Fault.pure_eq_ok]
  rw [ofDescriptionsThen, if_neg (not_lt.2 htime), hitems]
  simp only [hempty, hmain, hlist, Selections.setMain, Fault.unless_of hcheck, Fault.ok_bind,
    Fault.pure_eq_ok, Failure.ofFault]
  rfl

theorem map_bare_extents (items : List Selection) :
    (items.map bare).map Selection.extent = items.map Selection.extent := List.map_map

theorem isEqv_map_bare (items : List Selection) :
    (items.map bare).isEqv items Selection.agrees = true := by
  induction items with
  | nil => rfl
  | cons s items ih =>
    have hself : (bare s).agrees s = true := by
      rw [Selection.agrees, Bool.and_eq_true, beq_iff_eq, beq_iff_eq]
      exact ⟨rfl, rfl⟩
    rw [List.map_cons, List.isEqv, hself, ih]
    rfl

/-- What a list that was written down leads to when it is read. -/
theorem exists_ofDescriptionsThen {b : Buffer} {l : SelectionList} {t : Text}
    (htime : l.timestamp ≤ b.timestamp) (hcheck : l.group.main < l.group.items.length)
    (hsettled : l.group.Settled t) (ht : t.size < Text.capacity) :
    ∃ text, l.describe = .ok text ∧ ofDescriptionsThen b (pieces text) l.timestamp 0 =
      .ok ⟨⟨l.group.items.map bare, l.group.main⟩, b.id, l.timestamp⟩ := by
  obtain ⟨text, hdescribe, hitems⟩ := exists_describe hcheck fun s hs =>
    (hsettled.valid s hs).writable ht
  have hlength : 0 < ((l.group.items.rotateLeft l.group.main).map bare).length := by
    rw [List.length_map, (Selections.rotateLeft_perm hcheck).length_eq]
    exact Nat.zero_lt_of_lt hcheck
  have hrotate : (l.group.items.rotateLeft l.group.main).map bare =
      (l.group.items.map bare).rotateLeft l.group.main := by
    rw [Selections.rotateLeft_eq hcheck, Selections.rotateLeft_eq (by simpa using hcheck),
      List.map_append, List.map_drop, List.map_take]
  have hnormalize := Selections.normalize_rotateLeft (g := ⟨l.group.items.map bare, l.group.main⟩)
    (List.pairwise_map.2 hsettled.pairwise_lt) (by simpa using hcheck)
  refine ⟨text, hdescribe, ?_⟩
  rw [ofDescriptionsThen_eq htime hitems hlength, hrotate, hnormalize]

/-- **A list written and read again.** The selections of a list are at positions of the text at its
timestamp, and lie apart. Written down, cut at the spaces and read at this timestamp it is the same
list, with the same main selection. Read at a later time, it has the same extents and the same main
selection as the list itself after catching up with merging. -/
theorem ofDescriptions_describe {origin : Text} {d : Draft} (h : Reached origin d)
    (list : SelectionList) (hbuffer : list.buffer = d.buffer.id)
    (htime : list.timestamp ≤ d.buffer.timestamp) (hcheck : list.group.check = .ok ())
    (hsettled : list.group.Settled (d.textAt origin list.timestamp)) :
    ∃ text restored updated, list.describe = .ok text ∧
      ofDescriptions d.buffer (pieces text) list.timestamp 0 = .ok restored ∧
      list.update d.buffer true = .ok updated ∧
      restored.group.extents = updated.group.extents ∧
      restored.group.main = updated.group.main ∧
      (list.timestamp = d.buffer.timestamp →
        restored.agrees list = true ∧ restored.group.main = list.group.main) := by
  have hc := h.chronicle
  have hmain := Selections.check_eq_ok_iff.1 hcheck
  obtain ⟨text, hdescribe, hthen⟩ :=
    exists_ofDescriptionsThen htime hmain hsettled (hc.small _ htime)
  have hvalid : ∀ s ∈ list.group.items.map bare, s.ValidIn (d.textAt origin list.timestamp) := by
    intro s hs
    obtain ⟨r, hr, rfl⟩ := List.mem_map.1 hs
    exact hsettled.valid r hr
  have hread : ofDescriptions d.buffer (pieces text) list.timestamp 0 =
      Failure.ofFault (refresh ⟨⟨list.group.items.map bare, list.group.main⟩, d.buffer.id,
        list.timestamp⟩ d.buffer) := by
    rw [ofDescriptions, hthen, Fault.ok_bind]
  rcases Nat.eq_or_lt_of_le htime with heq | hlt
  · -- nothing happened: clamping leaves positions where they are
    rw [heq, hc.last] at hvalid
    rw [refresh, if_neg (by dsimp only; omega), mapGroup, Selections.clamp_of_validIn hvalid] at hread
    refine ⟨text, _, list, hdescribe, hread, update_of_current hbuffer heq true,
      map_bare_extents _, rfl, fun _ => ⟨?_, rfl⟩⟩
    rw [agrees, Bool.and_eq_true, beq_iff_eq]
    exact ⟨hbuffer.symm, isEqv_map_bare _⟩
  · obtain ⟨image, hmove, -⟩ := h.exists_moveBy htime
    have hbare : SelectionList.buffer
        ⟨⟨list.group.items.map bare, list.group.main⟩, d.buffer.id, list.timestamp⟩ = d.buffer.id := rfl
    obtain ⟨group, hupdate, hfollows⟩ := update_true_eq hbare hlt hmove hvalid
    obtain ⟨group', hupdate', hfollows'⟩ := update_true_eq hbuffer hlt hmove hsettled.valid
    obtain ⟨hextents, hmain'⟩ := hfollows.unique hfollows' hmove.image.mono
      (map_bare_extents _) rfl (by simpa using hmain)
    rw [refresh, if_pos hlt, show updateMerging _ d.buffer = _ from hupdate] at hread
    exact ⟨text, _, _, hdescribe, hread, hupdate', hextents, hmain', fun heq => absurd heq hlt.ne⟩

/-- Two selections written down before the edits of the small run, and read after them. -/
theorem ofDescriptions_describe_sample :
    ∃ text restored updated,
      SelectionList.describe ⟨⟨[⟨⟨0, 0⟩, ⟨0, 0⟩, none, []⟩, ⟨⟨0, 2⟩, ⟨0, 1⟩, some 4, []⟩], 1⟩, 0, 0⟩ =
        .ok text ∧
      ofDescriptions Reached.sample.buffer (pieces text) 0 0 = .ok restored ∧
      SelectionList.update ⟨⟨[⟨⟨0, 0⟩, ⟨0, 0⟩, none, []⟩, ⟨⟨0, 2⟩, ⟨0, 1⟩, some 4, []⟩], 1⟩, 0, 0⟩
        Reached.sample.buffer true = .ok updated ∧
      restored.group.extents = updated.group.extents ∧
      restored.group.main = updated.group.main := by
  obtain ⟨text, restored, updated, htext, hrestored, hupdated, hextents, hmain, -⟩ :=
    ofDescriptions_describe Reached.of_script
      ⟨⟨[⟨⟨0, 0⟩, ⟨0, 0⟩, none, []⟩, ⟨⟨0, 2⟩, ⟨0, 1⟩, some 4, []⟩], 1⟩, 0, 0⟩ rfl (by decide)
      (by decide) ⟨by simp only [Selection.ValidIn]; decide, by unfold Span.Apart; decide⟩
  exact ⟨text, restored, updated, htext, hrestored, hupdated, hextents, hmain⟩

end SelectionList

end Caret
