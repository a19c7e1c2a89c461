import Caret.Proofs.Run

/-!
# Coordinates that are not positions

Coordinates past the end of a line, past the last line or inside of a character are no positions of a
text, but they are positions of another text that has all positions of the first one and more. A log
that leads on from the one text leads on from the other as well, so that all that holds of positions
holds of any coordinates, as long as the other texts are within capacity.

* `Text.Refines`: a text with all positions of another.
* `Text.exists_refines`: any coordinates are positions of a text somewhat larger.
* `Change.Takes.exists_refines`, `Chronicle.exists_refines`: changes of the other text.
-/

namespace Caret

/-- The lines and columns of coordinates, added up. -/
def Coord.total : List Coord → ℕ
  | [] => 0
  | c :: rest => c.line + c.column + Coord.total rest

namespace Text

/-- Every position of `s` is a position of `p`. -/
structure Refines (p s : Text) : Prop where
  valid : ∀ {c}, s.Valid c → p.Valid c

variable {p q s t x before mid after : Text} {c : Coord} {ch : Char}

namespace Refines

theorem refl (s : Text) : s.Refines s := ⟨fun h => h⟩

theorem trans (h : p.Refines q) (h' : q.Refines s) : p.Refines s := ⟨fun hc => h.valid (h'.valid hc)⟩

/-- The border between two parts of a text, in a text with more positions. -/
theorem exists_split (h : p.Refines (before ++ after)) :
    ∃ before' after', p = before' ++ after' ∧ before'.extent = before.extent := by
  obtain ⟨before', after', rfl, hextent⟩ :=
    valid_iff_extent.1 (h.valid (valid_extent_append before after))
  exact ⟨before', after', rfl, hextent.symm⟩

/-- The two parts of a text, in a text with more positions. -/
theorem exists_append (h : p.Refines (before ++ after)) :
    ∃ before' after', p = before' ++ after' ∧ before'.extent = before.extent ∧
      before'.Refines before ∧ after'.Refines after := by
  obtain ⟨before', after', rfl, hextent⟩ := h.exists_split
  refine ⟨before', after', rfl, hextent, ⟨fun {c} hc => ?_⟩, ⟨fun {c} hc => ?_⟩⟩
  · obtain ⟨front, back, rfl, rfl⟩ := valid_iff_extent.1 hc
    rw [List.append_assoc] at h
    obtain ⟨front', back', hsplit, hfront⟩ := h.exists_split
    have hle : front'.extent ≤ before'.extent := by
      rw [hfront, hextent]
      exact extent_le_append front back
    obtain ⟨rest, rfl, -⟩ := exists_append_of_extent_le hsplit.symm hle
    rw [← hfront]
    exact valid_extent_append front' rest
  · obtain ⟨front, back, rfl, rfl⟩ := valid_iff_extent.1 hc
    rw [← List.append_assoc] at h
    obtain ⟨front', back', hsplit, hfront⟩ := h.exists_split
    have hle : before'.extent ≤ front'.extent := by
      rw [hfront, hextent]
      exact extent_le_append before front
    obtain ⟨rest, rfl, hrest⟩ := exists_append_of_extent_le hsplit hle
    rw [extent_append, extent_append, hextent] at hfront
    rw [hrest, ← add_left_cancel hfront]
    exact valid_extent_append rest back'

theorem append {before' after' : Text} (hb : before'.Refines before)
    (he : before'.extent = before.extent) (ha : after'.Refines after) :
    (before' ++ after').Refines (before ++ after) := by
  refine ⟨fun {c} hc => ?_⟩
  obtain ⟨front, back, hsplit, rfl⟩ := valid_iff_extent.1 hc
  rcases le_total front.extent before.extent with hle | hle
  · obtain ⟨rest, rfl, -⟩ := exists_append_of_extent_le hsplit.symm hle
    obtain ⟨front', back', rfl, hfront⟩ := hb.exists_split
    rw [← hfront, List.append_assoc]
    exact valid_extent_append front' _
  · obtain ⟨rest, rfl, rfl⟩ := exists_append_of_extent_le hsplit hle
    obtain ⟨front', back', rfl, hfront⟩ := ha.exists_split
    rw [extent_append, ← hfront, ← he, ← extent_append, ← List.append_assoc]
    exact valid_extent_append _ back'

/-- A single character, and any text of its extent. -/
theorem of_extent_eq (h : x.extent = Coord.ofChar ch) : x.Refines [ch] := by
  refine ⟨fun {c} hc => ?_⟩
  obtain ⟨front, back, hsplit, rfl⟩ := valid_iff_extent.1 hc
  cases front with
  | nil => exact valid_zero x
  | cons d front =>
    obtain ⟨rfl, hnil⟩ := List.cons.inj hsplit
    obtain ⟨rfl, rfl⟩ := List.append_eq_nil_iff.1 hnil.symm
    have hx := valid_extent_append x []
    rw [List.append_nil, h] at hx
    rwa [extent_cons, extent_nil, add_zero]

/-- More positions take more bytes. -/
theorem size_le (h : p.Refines s) : s.size ≤ p.size := by
  induction s generalizing p with
  | nil => exact Nat.zero_le _
  | cons ch s ih =>
    rw [← List.singleton_append] at h
    obtain ⟨first, rest, rfl, hfirst, -, hrest⟩ := exists_append h
    have hchar : ch.utf8Size ≤ first.size := by
      have hle := extent_le_size first
      rw [hfirst, extent_cons, extent_nil, add_zero] at hle
      unfold Coord.ofChar at hle
      split at hle
      · rename_i hnewline
        rw [hnewline]
        exact hle
      · simpa using hle
    rw [size_cons, size_append]
    exact Nat.add_le_add hchar (ih hrest)

end Refines

/-! ## Making a coordinate a position -/

/-- Some spaces. -/
def spaces (n : ℕ) : Text := List.replicate n ' '

theorem extent_spaces (n : ℕ) : (spaces n).extent = ⟨0, n⟩ := by
  induction n with
  | zero => rfl
  | succ n ih =>
    rw [spaces, List.replicate_succ, extent_cons, Coord.ofChar_add (by decide), ← spaces, ih,
      if_pos rfl, Nat.add_comm]
    rfl

theorem size_spaces (n : ℕ) : (spaces n).size = n := by
  induction n with
  | zero => rfl
  | succ n ih =>
    rw [spaces, List.replicate_succ, size_cons, ← spaces, ih, Nat.add_comm]
    rfl

theorem extent_newlines (n : ℕ) : extent (List.replicate n '\n') = ⟨n, 0⟩ := by
  induction n with
  | zero => rfl
  | succ n ih => rw [List.replicate_succ, extent_newline, ih]

theorem size_newlines (n : ℕ) : size (List.replicate n '\n') = n := by
  induction n with
  | zero => rfl
  | succ n ih =>
    rw [List.replicate_succ, size_cons, ih, Nat.add_comm]
    rfl

/-- A coordinate in front of the end of a character, in a text of the extent of this character. -/
theorem exists_extent_eq_ofChar (h : c < Coord.ofChar ch) :
    ∃ x : Text, x.extent = Coord.ofChar ch ∧ x.Valid c ∧ x.size ≤ ch.utf8Size + c.column := by
  obtain ⟨line, column⟩ := c
  by_cases hch : ch = '\n'
  · subst hch
    obtain rfl : line = 0 := by
      rcases h with h | ⟨h, hlt⟩
      · exact Nat.lt_one_iff.1 h
      · exact absurd hlt (Nat.not_lt_zero _)
    refine ⟨spaces column ++ ['\n'], ?_, ?_, ?_⟩
    · rw [extent_append, extent_spaces, extent_cons, extent_nil, add_zero]
      rfl
    · have hvalid := valid_extent_append (spaces column) ['\n']
      rwa [extent_spaces] at hvalid
    · rw [size_append, size_spaces, Nat.add_comm]
      exact le_rfl
  · rw [Coord.ofChar, if_neg hch] at h ⊢
    obtain ⟨rfl, hlt⟩ : line = 0 ∧ column < ch.utf8Size := by
      rcases h with h | h
      · exact absurd h (Nat.not_lt_zero _)
      · exact h
    refine ⟨spaces ch.utf8Size, extent_spaces _, ?_, ?_⟩
    · have hsplit : spaces ch.utf8Size = spaces column ++ spaces (ch.utf8Size - column) := by
        rw [spaces, spaces, spaces, List.replicate_append_replicate, Nat.add_sub_cancel' hlt.le]
      have hvalid := valid_extent_append (spaces column) (spaces (ch.utf8Size - column))
      rwa [extent_spaces, ← hsplit] at hvalid
    · rw [size_spaces]
      exact Nat.le_add_right _ _

/-- A coordinate behind a character, seen from the end of this character. -/
theorem exists_eq_ofChar_add (h : Coord.ofChar ch ≤ c) :
    ∃ d, c = Coord.ofChar ch + d ∧ d.line + d.column ≤ c.line + c.column := by
  obtain ⟨line, column⟩ := c
  by_cases hch : ch = '\n'
  · subst hch
    obtain ⟨line, rfl⟩ : ∃ l, line = l + 1 := by
      refine Nat.exists_eq_succ_of_ne_zero ?_
      rintro rfl
      rcases h with h | ⟨h, -⟩
      · exact absurd h (Nat.not_lt_zero _)
      · exact absurd h Nat.one_ne_zero
    refine ⟨⟨line, column⟩, (Coord.newline_add ⟨line, column⟩).symm, ?_⟩
    dsimp only
    omega
  · rw [Coord.ofChar, if_neg hch] at h
    cases line with
    | zero =>
      have hle : ch.utf8Size ≤ column := by
        rcases h with h | ⟨-, h⟩
        · exact absurd h (Nat.not_lt_zero _)
        · exact h
      refine ⟨⟨0, column - ch.utf8Size⟩, ?_, Nat.add_le_add_left (Nat.sub_le _ _) 0⟩
      rw [Coord.ofChar_add hch, if_pos rfl, Nat.add_sub_cancel' hle]
    | succ line =>
      refine ⟨⟨line + 1, column⟩, ?_, le_rfl⟩
      rw [Coord.ofChar_add hch, if_neg (Nat.succ_ne_zero line)]

/-- **Any coordinate is a position** of a text with more positions, which has more lines only if there
is no line of this number. -/
theorem exists_refines (s : Text) (c : Coord) :
    ∃ p : Text, p.Refines s ∧ p.Valid c ∧ p.size ≤ s.size + (c.line + c.column) ∧
      (c.line ≤ s.extent.line → p.extent.line = s.extent.line) := by
  induction s generalizing c with
  | nil =>
    have hextent : extent (List.replicate c.line '\n' ++ spaces c.column) = c := by
      rw [extent_append, extent_newlines, extent_spaces, Coord.add_def, if_pos rfl, Nat.zero_add]
    refine ⟨List.replicate c.line '\n' ++ spaces c.column, ⟨fun {d} hd => ?_⟩, ?_, ?_, ?_⟩
    · obtain ⟨front, back, hsplit, rfl⟩ := valid_iff_extent.1 hd
      rw [(List.append_eq_nil_iff.1 hsplit.symm).1]
      exact valid_zero _
    · have hvalid := valid_extent_append (List.replicate c.line '\n' ++ spaces c.column) []
      rwa [List.append_nil, hextent] at hvalid
    · rw [size_append, size_newlines, size_spaces, size_nil, Nat.zero_add]
    · intro hline
      rw [hextent]
      exact Nat.le_zero.1 hline
  | cons ch s ih =>
    rcases lt_or_ge c (Coord.ofChar ch) with hlt | hge
    · -- the character gives way to others that end where it ends
      obtain ⟨x, hx, hvalid, hsize⟩ := exists_extent_eq_ofChar hlt
      refine ⟨x ++ s, ?_, ?_, ?_, fun _ => ?_⟩
      · have hchar : x.extent = extent [ch] := by rw [hx, extent_cons, extent_nil, add_zero]
        have happend := Refines.append (.of_extent_eq hx) hchar (.refl s)
        exact happend
      · obtain ⟨front, back, rfl, rfl⟩ := valid_iff_extent.1 hvalid
        rw [List.append_assoc]
        exact valid_extent_append front _
      · rw [size_append, size_cons]
        omega
      · rw [extent_append, hx, extent_cons]
    · obtain ⟨d, rfl, hle⟩ := exists_eq_ofChar_add hge
      obtain ⟨p, hrefines, hvalid, hsize, hlines⟩ := ih d
      have happend := Refines.append (.refl [ch]) rfl hrefines
      refine ⟨ch :: p, happend, ?_, ?_, ?_⟩
      · obtain ⟨front, back, rfl, rfl⟩ := valid_iff_extent.1 hvalid
        rw [← extent_cons]
        exact valid_extent_append (ch :: front) back
      · rw [size_cons, size_cons]
        omega
      · intro hline
        rw [extent_cons, Coord.add_line, Coord.add_line] at hline
        rw [extent_cons, extent_cons, Coord.add_line, Coord.add_line,
          hlines (Nat.le_of_add_le_add_left hline)]

/-- Any coordinates are positions of a text with more positions. -/
theorem exists_refines_all (s : Text) (cs : List Coord) :
    ∃ p : Text, p.Refines s ∧ (∀ c ∈ cs, p.Valid c) ∧
      p.size ≤ s.size + Coord.total cs ∧
      ((∀ c ∈ cs, c.line ≤ s.extent.line) → p.extent.line = s.extent.line) := by
  induction cs with
  | nil => exact ⟨s, .refl s, by simp, le_rfl, fun _ => rfl⟩
  | cons c cs ih =>
    obtain ⟨q, hrefines, hvalid, hsize, hlines⟩ := ih
    obtain ⟨p, hrefines', hvalid', hsize', hlines'⟩ := q.exists_refines c
    refine ⟨p, hrefines'.trans hrefines, List.forall_mem_cons.2 ⟨hvalid', fun d hd =>
      hrefines'.valid (hvalid d hd)⟩, ?_, ?_⟩
    · rw [Coord.total]
      omega
    · intro hline
      obtain ⟨hc, hcs⟩ := List.forall_mem_cons.1 hline
      have hq := hlines hcs
      rw [hlines' (hq ▸ hc), hq]

end Text

/-! ## Changes of the larger text -/

/-- **One change.** A text with more positions changes in the same way. It gains no more than the
other one does, and as many lines. -/
theorem Change.Takes.exists_refines {change : Change} {s t p : Text} (h : change.Takes s t)
    (hp : p.Refines s) :
    ∃ q, change.Takes p q ∧ q.Refines t ∧ q.size + s.size ≤ p.size + t.size ∧
      q.extent.line + s.extent.line = p.extent.line + t.extent.line := by
  cases h with
  | insert before mid after hmid =>
    obtain ⟨before', after', rfl, hextent, hb, ha⟩ := hp.exists_append
    have hstop : (before' ++ mid).extent = (before ++ mid).extent := by
      rw [Text.extent_append, Text.extent_append, hextent]
    refine ⟨before' ++ mid ++ after', ?_, (hb.append hextent (.refl mid)).append hstop ha, ?_, ?_⟩
    · have htakes := Takes.insert before' mid after' hmid
      rwa [hextent, hstop] at htakes
    · simp only [Text.size_append]
      omega
    · simp only [Text.extent_append, hextent, Coord.add_line]
      omega
  | erase before mid after hmid =>
    obtain ⟨front, after', rfl, hextent, hf, ha⟩ := hp.exists_append
    obtain ⟨before', mid', rfl, hextent', hb, hm⟩ := hf.exists_append
    have hmid' : mid' ≠ [] := by
      rintro rfl
      have hlt := Text.extent_lt_append before hmid
      rw [← hextent, List.append_nil, hextent'] at hlt
      exact absurd hlt (lt_irrefl _)
    refine ⟨before' ++ after', ?_, hb.append hextent' ha, ?_, ?_⟩
    · have htakes := Takes.erase before' mid' after' hmid'
      rwa [hextent, hextent'] at htakes
    · have hsize := hm.size_le
      simp only [Text.size_append]
      omega
    · rw [Text.extent_append (before' ++ mid'), hextent]
      simp only [Text.extent_append, hextent', Coord.add_line]
      omega

/-- **A stretch of the log.** -/
theorem Chronicle.exists_refines {origin : Text} {d : Draft} (h : Chronicle origin d) {n m : ℕ}
    (hnm : n ≤ m) (hm : m ≤ d.buffer.timestamp) {p : Text} (hp : p.Refines (d.textAt origin n))
    {extra : ℕ} (hsize : p.size ≤ (d.textAt origin n).size + extra)
    (hsmall : ∀ k, n ≤ k → k ≤ m → (d.textAt origin k).size + extra < Text.capacity) :
    ∃ q, Trail p ((d.buffer.log.take m).drop n) q ∧ q.Refines (d.textAt origin m) ∧
      q.size ≤ (d.textAt origin m).size + extra ∧
      q.extent.line + (d.textAt origin n).extent.line =
        p.extent.line + (d.textAt origin m).extent.line := by
  induction m, hnm using Nat.le_induction with
  | base =>
    have hnil : (d.buffer.log.take n).drop n = [] := by
      rw [List.drop_eq_nil_iff, List.length_take]
      omega
    rw [hnil]
    exact ⟨p, rfl, hp, hsize, rfl⟩
  | succ m hnm ih =>
    have hm' : m < d.buffer.log.length := hm
    obtain ⟨q, htrail, hrefines, hq, hlines⟩ :=
      ih (Nat.le_of_succ_le hm) fun k hn hk => hsmall k hn (Nat.le_succ_of_le hk)
    obtain ⟨r, htakes, hrefines', hr, hlines'⟩ :=
      (h.step m _ (List.getElem?_eq_getElem hm')).exists_refines hrefines
    have hlast := hsmall (m + 1) (Nat.le_succ_of_le hnm) le_rfl
    have hsplit : (d.buffer.log.take (m + 1)).drop n =
        (d.buffer.log.take m).drop n ++ [d.buffer.log[m]] := by
      rw [List.take_succ_eq_append_getElem hm', List.drop_append_of_le_length]
      rw [List.length_take]
      omega
    refine ⟨r, ?_, hrefines', by omega, by omega⟩
    rw [hsplit, Trail.append_iff]
    exact ⟨q, htrail, r, htakes, by omega, rfl⟩

/-- From any moment to the present. -/
theorem Chronicle.exists_refines_since {origin : Text} {d : Draft} (h : Chronicle origin d) {n : ℕ}
    (hn : n ≤ d.buffer.timestamp) {p : Text} (hp : p.Refines (d.textAt origin n)) {extra : ℕ}
    (hsize : p.size ≤ (d.textAt origin n).size + extra)
    (hsmall : ∀ k, n ≤ k → k ≤ d.buffer.timestamp →
      (d.textAt origin k).size + extra < Text.capacity) :
    ∃ q, Trail p (d.buffer.log.drop n) q ∧ q.Refines d.buffer.text ∧
      q.extent.line + (d.textAt origin n).extent.line =
        p.extent.line + d.buffer.text.extent.line := by
  obtain ⟨q, htrail, hrefines, -, hlines⟩ := h.exists_refines hn le_rfl hp hsize hsmall
  rw [Buffer.timestamp, List.take_length] at htrail
  rw [h.last] at hrefines hlines
  exact ⟨q, htrail, hrefines, hlines⟩

end Caret
