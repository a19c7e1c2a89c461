import Mathlib.Data.List.TakeWhile
import Caret.Proofs.Description

/-!
# The language of descriptions

A description is two coordinates with a comma between them, each of them a line and a column with a
dot between these. Numbers count from one, may have a plus sign, leading zeros and white space around
them, and fit into 64 bits. Reading accepts just this, and undoes writing.

* `Description.Numeral`, `Description.Names`, `Selection.Denotes`: the language and what it means.
* `Description.count?_trim_eq_some_iff`: numbers.
* `Description.coord_cases`: coordinates, and how they are refused.
* `Selection.ofDescription_language`: descriptions.
-/

namespace Caret

namespace Description

variable {n : ℕ} {separator : Char} {cs part before after : List Char}
  {description : String} {c : Coord}

/-! ## Numbers -/

/-- A number that fits into 64 bits, in decimal digits, with a plus sign in front of them if one
likes. -/
def Figures (cs : List Char) (n : ℕ) : Prop :=
  ∃ sign digits, cs = sign ++ digits ∧ (sign = [] ∨ sign = ['+']) ∧ digits ≠ [] ∧
    (∀ c ∈ digits, c.isDigit = true) ∧ Nat.ofDigitChars 10 digits 0 = n ∧ n < Count.bound

/-- **A number as it may be written**, with white space around it. -/
def Numeral (cs : List Char) (n : ℕ) : Prop :=
  ∃ front mid back, cs = front ++ mid ++ back ∧ (∀ c ∈ front, isBlank c = true) ∧
    (∀ c ∈ back, isBlank c = true) ∧ Figures mid n

theorem Figures.ne_nil (h : Figures cs n) : cs ≠ [] := by
  obtain ⟨sign, digits, rfl, -, hne, -⟩ := h
  exact List.append_ne_nil_of_right_ne_nil sign hne

theorem Figures.not_isBlank (h : Figures cs n) : ∀ c ∈ cs, Description.isBlank c = false := by
  obtain ⟨sign, digits, rfl, hsign, -, hall, -⟩ := h
  intro c hc
  rcases List.mem_append.1 hc with hc | hc
  · rcases hsign with rfl | rfl
    · exact absurd hc List.not_mem_nil
    · rw [List.mem_singleton.1 hc]
      decide
  · exact isBlank_of_isDigit (hall c hc)

theorem Numeral.lt_bound (h : Numeral cs n) : n < Count.bound := by
  obtain ⟨_, _, _, _, _, _, _, _, _, _, _, _, _, hbound⟩ := h
  exact hbound

/-- What is taken away is white space. -/
theorem exists_trim (cs : List Char) : ∃ front back, cs = front ++ trim cs ++ back ∧
    (∀ c ∈ front, isBlank c = true) ∧ ∀ c ∈ back, isBlank c = true := by
  have hall : ∀ l : List Char, ∀ c ∈ l.takeWhile isBlank, isBlank c = true :=
    fun l c => List.mem_takeWhile_imp
  refine ⟨cs.takeWhile isBlank, ((cs.dropWhile isBlank).reverse.takeWhile isBlank).reverse, ?_,
    hall cs, fun c hc => hall _ c (List.mem_reverse.1 hc)⟩
  unfold trim
  rw [List.append_assoc, ← List.reverse_append, List.takeWhile_append_dropWhile, List.reverse_reverse,
    List.takeWhile_append_dropWhile]

/-- **A count** is read where digits are, with or without a sign. -/
theorem count?_eq_some_iff : count? cs = some n ↔ Figures cs n := by
  have hread : ∀ digits : List Char,
      (if digits ≠ [] ∧ digits.all Char.isDigit ∧ value digits < Count.bound then some (value digits)
        else none) = some n ↔
      digits ≠ [] ∧ (∀ c ∈ digits, c.isDigit = true) ∧ Nat.ofDigitChars 10 digits 0 = n ∧
        n < Count.bound := by
    intro digits
    rw [Nat.ofDigitChars_eq_foldl, ← value, ite_eq_iff, List.all_eq_true]
    grind
  unfold count?
  dsimp only
  rw [hread]
  split
  · rename_i rest
    constructor
    · rintro ⟨hne, hall, hvalue⟩
      exact ⟨['+'], rest, rfl, .inr rfl, hne, hall, hvalue⟩
    · rintro ⟨sign, digits, hcs, rfl | rfl, hne, hall, hvalue⟩
      · -- a sign is not a digit
        rw [List.nil_append] at hcs
        have hdigit := hall '+' (hcs ▸ List.mem_cons_self)
        exact absurd hdigit (by decide)
      · cases hcs
        exact ⟨hne, hall, hvalue⟩
  · rename_i hplus
    constructor
    · rintro ⟨hne, hall, hvalue⟩
      exact ⟨[], cs, rfl, .inl rfl, hne, hall, hvalue⟩
    · rintro ⟨sign, digits, rfl, rfl | rfl, hne, hall, hvalue⟩
      · exact ⟨hne, hall, hvalue⟩
      · exact absurd rfl (hplus digits)

/-- **A number is read** between white space. -/
theorem count?_trim_eq_some_iff : count? (trim cs) = some n ↔ Numeral cs n := by
  rw [count?_eq_some_iff]
  constructor
  · intro h
    obtain ⟨front, back, hcs, hfront, hback⟩ := exists_trim cs
    exact ⟨front, trim cs, back, hcs, hfront, hback, h⟩
  · rintro ⟨front, mid, back, rfl, hfront, hback, hmid⟩
    rwa [trim_append hfront hback hmid.not_isBlank hmid.ne_nil]

/-! ## Coordinates -/

/-- A text is cut at the first occurrence of a separator. -/
theorem splitFirst_eq_some_iff : splitFirst separator cs = some (before, after) ↔
    cs = before ++ separator :: after ∧ separator ∉ before := by
  refine ⟨fun h => ?_, fun ⟨hcs, hbefore⟩ => hcs ▸ splitFirst_append hbefore⟩
  induction cs generalizing before with
  | nil => cases h
  | cons c cs ih =>
    unfold splitFirst at h
    by_cases hc : c = separator
    · rw [if_pos hc] at h
      cases h
      exact ⟨by rw [hc, List.nil_append], List.not_mem_nil⟩
    · rw [if_neg hc, Option.map_eq_some_iff] at h
      obtain ⟨⟨b, a⟩, hsplit, heq⟩ := h
      cases heq
      obtain ⟨rfl, hb⟩ := ih hsplit
      exact ⟨rfl, List.not_mem_cons_of_ne_of_not_mem (Ne.symm hc) hb⟩

/-- **A coordinate as it may be written**: its line and its column, counted from one, around the first
dot. -/
def Names (part : List Char) (c : Coord) : Prop :=
  ∃ line column, part = line ++ '.' :: column ∧ '.' ∉ line ∧ Numeral line (c.line + 1) ∧
    Numeral column (c.column + 1)

theorem coord_of_names (description : String) (h : Names part c) : coord description part = .ok c := by
  obtain ⟨line, column, hpart, hdot, hline, hcolumn⟩ := h
  have hsplit := splitFirst_eq_some_iff.2 ⟨hpart, hdot⟩
  unfold coord
  simp only [hsplit, count?_trim_eq_some_iff.2 hline, count?_trim_eq_some_iff.2 hcolumn]
  rw [if_neg (by omega)]
  rfl

/-- **A coordinate is read** where one is written, or refused with one of two errors. -/
theorem coord_cases (description : String) (part : List Char) :
    (∃ c, Names part c ∧ coord description part = .ok c) ∨
      coord description part = .error (malformed description) ∨
        coord description part = .error (notPositive description) := by
  unfold coord
  cases hsplit : splitFirst '.' part with
  | none => exact .inr (.inl rfl)
  | some parts =>
    obtain ⟨line, column⟩ := parts
    obtain ⟨hpart, hdot⟩ := splitFirst_eq_some_iff.1 hsplit
    dsimp only
    cases hline : count? (trim line) with
    | none => exact .inr (.inl rfl)
    | some l =>
      dsimp only
      cases hcolumn : count? (trim column) with
      | none => exact .inr (.inl rfl)
      | some k =>
        dsimp only
        by_cases hzero : l = 0 ∨ k = 0
        · rw [if_pos hzero]
          exact .inr (.inr rfl)
        · rw [if_neg hzero]
          obtain ⟨hl, hk⟩ := not_or.1 hzero
          have hl' : l - 1 + 1 = l := Nat.succ_pred hl
          have hk' : k - 1 + 1 = k := Nat.succ_pred hk
          refine .inl ⟨⟨l - 1, k - 1⟩, ⟨line, column, hpart, hdot, ?_, ?_⟩, rfl⟩
          · rw [hl']
            exact count?_trim_eq_some_iff.1 hline
          · rw [hk']
            exact count?_trim_eq_some_iff.1 hcolumn

theorem Names.lt_bound (h : Names part c) : c.line + 1 < Count.bound ∧ c.column + 1 < Count.bound := by
  obtain ⟨_, _, _, _, hline, hcolumn⟩ := h
  exact ⟨hline.lt_bound, hcolumn.lt_bound⟩

end Description

/-! ## Selections -/

namespace Selection

open Description

variable {d : String} {s : Selection}

/-- **What a description stands for**: the selection from the coordinate in front of the first comma
to the one behind it, without captures or a column that it aims for. -/
structure Denotes (d : String) (s : Selection) : Prop where
  ends : ∃ anchor cursor, d.toList = anchor ++ ',' :: cursor ∧ ',' ∉ anchor ∧ Names anchor s.anchor ∧
    Names cursor s.cursor
  target : s.target = none
  captures : s.captures = []

/-- A selection is read that can be written. -/
theorem Denotes.writable (h : Denotes d s) : s.Writable := by
  obtain ⟨anchor, cursor, -, -, hanchor, hcursor⟩ := h.ends
  exact ⟨hanchor.lt_bound, hcursor.lt_bound⟩

theorem ofDescription_of_denotes (h : Denotes d s) : ofDescription d = .ok s := by
  obtain ⟨anchor, cursor, hd, hcomma, hanchor, hcursor⟩ := h.ends
  have hsplit := splitFirst_eq_some_iff.2 ⟨hd, hcomma⟩
  have htarget := h.target
  have hcaptures := h.captures
  unfold ofDescription
  simp only [hsplit, coord_of_names d hanchor, coord_of_names d hcursor, Fault.ok_bind, Fault.pure_eq_ok]
  cases s
  subst htarget hcaptures
  rfl

/-- **A description is read**, or refused with one of two errors. -/
theorem ofDescription_cases (d : String) :
    (∃ s, Denotes d s ∧ ofDescription d = .ok s) ∨ ofDescription d = .error (malformed d) ∨
      ofDescription d = .error (notPositive d) := by
  unfold ofDescription
  cases hsplit : splitFirst ',' d.toList with
  | none => exact .inr (.inl rfl)
  | some parts =>
    obtain ⟨anchor, cursor⟩ := parts
    obtain ⟨hd, hcomma⟩ := splitFirst_eq_some_iff.1 hsplit
    dsimp only
    rcases coord_cases d anchor with ⟨a, ha, hread⟩ | hread | hread
    · rw [hread, Fault.ok_bind]
      rcases coord_cases d cursor with ⟨c, hc, hread'⟩ | hread' | hread'
      · rw [hread', Fault.ok_bind]
        exact .inl ⟨{ anchor := a, cursor := c }, ⟨⟨anchor, cursor, hd, hcomma, ha, hc⟩, rfl, rfl⟩, rfl⟩
      · rw [hread']
        exact .inr (.inl rfl)
      · rw [hread']
        exact .inr (.inr rfl)
    · rw [hread]
      exact .inr (.inl rfl)
    · rw [hread]
      exact .inr (.inr rfl)

theorem ofDescription_eq_ok_iff : ofDescription d = .ok s ↔ Denotes d s := by
  refine ⟨fun h => ?_, ofDescription_of_denotes⟩
  rcases ofDescription_cases d with ⟨s', hs', hread⟩ | hread | hread
  · rw [hread, Except.ok.injEq] at h
    rwa [← h]
  · rw [hread] at h
    cases h
  · rw [hread] at h
    cases h

/-- **The language of descriptions.** A description is read exactly if it is of the language, as the
selection that it stands for, and refused as an invalid one otherwise. A selection whose numbers fit
is read from what is written for it, and what is read from any description is also read from the
description written for that. -/
theorem ofDescription_language :
    (∀ d s, ofDescription d = .ok s ↔ Denotes d s) ∧
      (∀ d, (¬∃ s, Denotes d s) → ∃ reason, ofDescription d = .error (.invalidSelection reason)) ∧
      (∀ s, s.Writable → ∃ d s', s.describe = .ok d ∧ ofDescription d = .ok s' ∧ s'.agrees s = true) ∧
      ∀ d s, ofDescription d = .ok s → ∃ d', s.describe = .ok d' ∧ ofDescription d' = .ok s := by
  refine ⟨fun d s => ofDescription_eq_ok_iff, ?_, ?_, ?_⟩
  · intro d hnone
    rcases ofDescription_cases d with ⟨s, hs, -⟩ | hread | hread
    · exact absurd ⟨s, hs⟩ hnone
    · exact ⟨_, hread⟩
    · exact ⟨_, hread⟩
  · intro s hs
    refine ⟨_, _, describe_eq hs, ofDescription_written hs, ?_⟩
    rw [agrees, Bool.and_eq_true, beq_iff_eq, beq_iff_eq]
    exact ⟨rfl, rfl⟩
  · intro d s hread
    have hdenotes := ofDescription_eq_ok_iff.1 hread
    have hwritable := hdenotes.writable
    have htarget := hdenotes.target
    have hcaptures := hdenotes.captures
    refine ⟨_, describe_eq hwritable, ?_⟩
    rw [ofDescription_written hwritable]
    cases s
    subst htarget hcaptures
    rfl

/-- White space, a sign and a leading zero, and a line that is not there. -/
theorem ofDescription_language_sample :
    Denotes " +1.05,3.1" { anchor := ⟨0, 4⟩, cursor := ⟨2, 0⟩ } ∧
      (∃ reason, ofDescription "0.1,1.1" = .error (.invalidSelection reason)) ∧
      (∃ d s', describe { anchor := ⟨0, 4⟩, cursor := ⟨2, 0⟩ } = .ok d ∧ ofDescription d = .ok s' ∧
        s'.agrees { anchor := ⟨0, 4⟩, cursor := ⟨2, 0⟩ } = true) ∧
      ∃ d, describe { anchor := ⟨0, 4⟩, cursor := ⟨2, 0⟩ } = .ok d ∧
        ofDescription d = .ok { anchor := ⟨0, 4⟩, cursor := ⟨2, 0⟩ } := by
  obtain ⟨hlanguage, hinvalid, hwritten, hagain⟩ := ofDescription_language
  have hread : ofDescription " +1.05,3.1" = .ok { anchor := ⟨0, 4⟩, cursor := ⟨2, 0⟩ } := by decide
  have hnone : ¬∃ s, Denotes "0.1,1.1" s := by
    rintro ⟨s, hs⟩
    have hzero : ofDescription "0.1,1.1" = .error (notPositive "0.1,1.1") := by decide
    rw [(hlanguage _ _).2 hs] at hzero
    cases hzero
  exact ⟨(hlanguage _ _).1 hread, hinvalid _ hnone, hwritten _ (by unfold Writable; decide), hagain _ _ hread⟩

end Selection

end Caret
