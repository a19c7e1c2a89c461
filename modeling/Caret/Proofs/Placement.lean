import Caret.Proofs.EditM
import Caret.Proofs.Insertion
import Caret.Selection.Splice

/-!
# Places next to a selection

Where a text goes relative to a selection, in terms of pieces of the text. The place only depends on
the text from some point on, so it goes along when all of that text moves.

* `Text.nextCoord_extent`, `Text.lineEnd_extent`: the next character and the end of the line.
* `Selection.Carried`: a selection in text that stays, behind one beginning and behind another.
* `Placement.exists_resolve`, `Placement.resolve_carried`: the place for a selection, and where it is
  once the selection was carried along.
* `Script.insertNear_cases`, `Script.run_insertNear`: a text put in at that place.
-/

namespace Caret

/-! ## Next character, end of the line -/

namespace Text

variable {p r : Text}

/-- **One character on** from the end of a beginning. -/
theorem nextCoord_extent (h : (p ++ r).size < capacity) :
    (p ++ r).nextCoord p.extent = .ok (p ++ r.take 1).extent := by
  have hnext := nextCoord_position h (show p.length ≤ (p ++ r).length by simp)
  rw [position_append, position_append_right] at hnext
  rw [hnext, extent_append]
  rfl

/-- What is left of the first line. -/
def restOfLine (r : Text) : Text := r.takeWhile (· ≠ '\n')

theorem restOfLine_newline (r : Text) : restOfLine ('\n' :: r) = [] := by simp [restOfLine]

theorem restOfLine_cons {c : Char} (h : c ≠ '\n') (r : Text) :
    restOfLine (c :: r) = c :: r.restOfLine := by
  simp [restOfLine, h]

theorem restOfLine_append_drop (r : Text) : ∃ rest, r = r.restOfLine ++ rest :=
  ⟨_, List.takeWhile_append_dropWhile.symm⟩

theorem extent_restOfLine (r : Text) : r.restOfLine.extent = ⟨0, r.lineLength 0⟩ := by
  induction r with
  | nil => rfl
  | cons c r ih =>
    by_cases hc : c = '\n'
    · subst hc
      rw [restOfLine_newline, lineLength_newline_zero]
      rfl
    · rw [restOfLine_cons hc, extent_cons, ih, Coord.ofChar_add hc, lineLength_cons_zero hc, if_pos rfl]

/-- **The end of the line** on which a beginning ends. -/
theorem lineEnd_extent (p r : Text) :
    (⟨p.extent.line, (p ++ r).lineLength p.extent.line⟩ : Coord) = (p ++ r.restOfLine).extent := by
  have hline : ∀ p : Text, (p ++ r.restOfLine).extent.line = p.extent.line := fun p => by
    rw [extent_append, Coord.add_line, extent_restOfLine, Nat.add_zero]
  have hcolumn : (p ++ r).lineLength p.extent.line = (p ++ r.restOfLine).extent.column := by
    induction p with
    | nil => rw [List.nil_append, List.nil_append, extent_restOfLine]; rfl
    | cons c p ih =>
      rw [List.cons_append, List.cons_append]
      by_cases hc : c = '\n'
      · subst hc
        rw [extent_newline, extent_newline, lineLength_newline_succ, ih]
      · rw [extent_cons_line hc, extent_cons_column hc, hline]
        -- only on the first line does the character count
        cases hl : (extent p).line with
        | zero =>
          rw [hl] at ih
          rw [if_pos rfl, lineLength_cons_zero hc, ih]
        | succ l =>
          rw [hl] at ih
          rw [if_neg (Nat.succ_ne_zero l), lineLength_cons_succ hc, ih]
  rw [Coord.ext_iff]
  exact ⟨(hline p).symm, hcolumn⟩

end Text

/-! ## Selections carried along -/

namespace Selection

variable {a b q : Text} {s s' : Selection}

/-- A coordinate in text that stays, behind `a` and behind `b`. -/
def CarriedEnd (a b q : Text) (c c' : Coord) : Prop :=
  ∃ m r, q = m ++ r ∧ c = (a ++ m).extent ∧ c' = (b ++ m).extent

/-- **A selection in text that stays**, behind `a` and behind `b`. -/
structure Carried (a b q : Text) (s s' : Selection) : Prop where
  anchor : CarriedEnd a b q s.anchor s'.anchor
  cursor : CarriedEnd a b q s.cursor s'.cursor

/-- Coordinates are in the same order behind both. -/
theorem CarriedEnd.le_iff {c c' d d' : Coord} (hc : CarriedEnd a b q c c')
    (hd : CarriedEnd a b q d d') : c ≤ d ↔ c' ≤ d' := by
  obtain ⟨m, -, -, rfl, rfl⟩ := hc
  obtain ⟨m', -, -, rfl, rfl⟩ := hd
  simp only [Text.extent_append, Coord.add_le_add_iff]

theorem Carried.low_high (h : Carried a b q s s') :
    CarriedEnd a b q s.low s'.low ∧ CarriedEnd a b q s.high s'.high := by
  have hiff := h.anchor.le_iff h.cursor
  have hiff' := h.cursor.le_iff h.anchor
  unfold low high
  rcases le_total s.anchor s.cursor with hle | hle
  · rw [min_eq_left hle, max_eq_right hle, min_eq_left (hiff.1 hle), max_eq_right (hiff.1 hle)]
    exact ⟨h.anchor, h.cursor⟩
  · rw [min_eq_right hle, max_eq_left hle, min_eq_right (hiff'.1 hle), max_eq_left (hiff'.1 hle)]
    exact ⟨h.cursor, h.anchor⟩

theorem Carried.validIn (h : Carried a b q s s') : s'.ValidIn (b ++ q) := by
  have hend : ∀ {c c' : Coord}, CarriedEnd a b q c c' → (b ++ q).Valid c' := by
    rintro c c' ⟨m, r, rfl, -, rfl⟩
    rw [← List.append_assoc]
    exact Text.valid_extent_append (b ++ m) r
  exact ⟨hend h.anchor, hend h.cursor⟩

/-- **The text of a selection** goes along with it: what it covers, behind `A` and behind `B`. -/
theorem Carried.exists_text {A B r : Text} {s s' : Selection} (h : s.Carried A B r s')
    (hA : (A ++ r).size < Text.capacity) (hB : (B ++ r).size < Text.capacity) :
    ∃ n m r', r = n ++ m ++ r' ∧ s.low = (A ++ n).extent ∧ s'.low = (B ++ n).extent ∧
      (A ++ r).nextCoord s.high = .ok (A ++ n ++ m).extent ∧
      (B ++ r).nextCoord s'.high = .ok (B ++ n ++ m).extent := by
  obtain ⟨⟨n, r₁, hr₁, hlow, hlow'⟩, ⟨k, r₂, hr₂, hhigh, hhigh'⟩⟩ := h.low_high
  have hle : (A ++ n).extent ≤ (A ++ k).extent := hlow ▸ hhigh ▸ s.low_le_high
  rw [Text.extent_append, Text.extent_append, Coord.add_le_add_iff] at hle
  obtain ⟨k₂, rfl, -⟩ := Text.exists_append_of_extent_le (hr₁.symm.trans hr₂) hle
  have hnext : ∀ X : Text, (X ++ r).size < Text.capacity →
      (X ++ r).nextCoord (X ++ (n ++ k₂)).extent = .ok (X ++ n ++ (k₂ ++ r₂.take 1)).extent := by
    intro X hX
    rw [hr₂, ← List.append_assoc] at hX ⊢
    rw [Text.nextCoord_extent hX]
    simp only [List.append_assoc]
  refine ⟨n, k₂ ++ r₂.take 1, r₂.drop 1, ?_, hlow, hlow', hhigh ▸ hnext A hA, hhigh' ▸ hnext B hB⟩
  rw [hr₂]
  simp only [List.append_assoc, List.take_append_drop]

end Selection

/-! ## Places -/

namespace Placement

variable {placement : Placement} {a b q g r t : Text} {s s' : Selection} {c : Coord}

/-- **There is a place** for every selection at positions of a text. -/
theorem exists_resolve (placement : Placement) (hs : t.size < Text.capacity) (hv : s.ValidIn t) :
    ∃ c, placement.resolve t s = .ok c ∧ t.Valid c := by
  cases placement with
  | before => exact ⟨_, rfl, hv.low⟩
  | atCursor => exact ⟨_, rfl, hv.2⟩
  | behind =>
    obtain ⟨p, r, rfl, hhigh⟩ := Text.valid_iff_extent.1 hv.high
    refine ⟨_, (congrArg _ hhigh).trans (Text.nextCoord_extent hs), ?_⟩
    have hvalid := Text.valid_extent_append (p ++ r.take 1) (r.drop 1)
    rwa [List.append_assoc, List.take_append_drop] at hvalid
  | lineBegin => exact ⟨_, rfl, Text.valid_lineStart hv.low.1⟩
  | lineEnd =>
    obtain ⟨p, r, rfl, hhigh⟩ := Text.valid_iff_extent.1 hv.high
    refine ⟨_, rfl, ?_⟩
    rw [hhigh, Text.lineEnd_extent]
    obtain ⟨rest, hrest⟩ := r.restOfLine_append_drop
    have hvalid := Text.valid_extent_append (p ++ r.restOfLine) rest
    rwa [List.append_assoc, ← hrest] at hvalid

/-- **The place for a selection that was carried along** is as far behind the new beginning as it was
behind the old one. The beginning of a line stays the beginning of a line. -/
theorem resolve_carried (ha : (a ++ q).size < Text.capacity) (hb : (b ++ q).size < Text.capacity)
    (h : Selection.Carried a b q s s') (hres : placement.resolve (a ++ q) s = .ok (a ++ g).extent)
    (hbegin : placement = .lineBegin → g = [] → b.extent.column = 0) :
    placement.resolve (b ++ q) s' = .ok (b ++ g).extent := by
  obtain ⟨⟨lo, r₁, hq₁, hlow, hlow'⟩, ⟨hi, r₂, hq₂, hhigh, hhigh'⟩⟩ := h.low_high
  -- `a` and `b` play the same part in front of the same text
  have hcancel : ∀ {m : Text}, (a ++ m).extent = (a ++ g).extent → (b ++ m).extent = (b ++ g).extent := by
    intro m hm
    rw [Text.extent_append, Text.extent_append] at hm ⊢
    rw [add_left_cancel hm]
  cases placement with
  | before =>
    have hplace : (a ++ lo).extent = (a ++ g).extent := hlow.symm.trans (Except.ok.inj hres)
    exact congrArg Except.ok (hlow'.trans (hcancel hplace))
  | atCursor =>
    obtain ⟨m, -, -, hcursor, hcursor'⟩ := h.cursor
    have hplace : (a ++ m).extent = (a ++ g).extent := hcursor.symm.trans (Except.ok.inj hres)
    exact congrArg Except.ok (hcursor'.trans (hcancel hplace))
  | behind =>
    unfold resolve at hres ⊢
    dsimp only at hres ⊢
    rw [hq₂, ← List.append_assoc] at ha hb hres ⊢
    rw [hhigh, Text.nextCoord_extent ha, List.append_assoc] at hres
    rw [hhigh', Text.nextCoord_extent hb, List.append_assoc, hcancel (Except.ok.inj hres)]
  | lineBegin =>
    have hplace : (⟨(a ++ lo).extent.line, 0⟩ : Coord) = (a ++ g).extent :=
      hlow ▸ Except.ok.inj hres
    show Except.ok (⟨s'.low.line, 0⟩ : Coord) = _
    rw [hlow']
    refine congrArg Except.ok ?_
    rw [Coord.ext_iff] at hplace ⊢
    simp only [Text.extent_append, Coord.add_line, Coord.add_column] at hplace ⊢
    refine ⟨by omega, ?_⟩
    -- behind a newline nothing matters, and without one there is no text in front of the place
    by_cases hline : g.extent.line = 0
    · rw [if_pos hline] at hplace ⊢
      have hzero : g.extent = 0 := Coord.ext_iff.2 ⟨hline, by
        rw [Coord.zero_column]
        omega⟩
      have hnil : g = [] := by
        by_contra hne
        exact absurd hzero (Text.zero_lt_extent hne).ne'
      have := hbegin rfl hnil
      rw [hzero, Coord.zero_column]
      omega
    · rw [if_neg hline] at hplace ⊢
      exact hplace.2
  | lineEnd =>
    unfold resolve at hres ⊢
    dsimp only at hres ⊢
    rw [hq₂, ← List.append_assoc] at hres ⊢
    rw [hhigh, Text.lineEnd_extent, List.append_assoc] at hres
    rw [hhigh', Text.lineEnd_extent, List.append_assoc, hcancel (Except.ok.inj hres)]

end Placement

/-! ## Putting a text in -/

/-- A text put into a writable buffer at a position. -/
theorem EditM.resume_insert {d : Draft} {before after new : Text}
    (ht : d.buffer.text = before ++ after) (hw : d.buffer.options.flags.readOnly = false)
    (hs : (before ++ new ++ after).size < Text.capacity) (hnew : new ≠ []) :
    (EditM.insert before.extent new).resume d = (.ok ⟨before.extent, (before ++ new).extent⟩,
      (d.record ⟨.insert, before.extent, new⟩).advance (before ++ new ++ after)
        ⟨.insert, before.extent, (before ++ new).extent⟩) := by
  have hsize : (before ++ after).size < Text.capacity := by
    simp only [Text.size_append] at hs ⊢
    omega
  have hvalid : d.buffer.text.Valid before.extent := ht ▸ Text.valid_extent_append before after
  have hput := resume_putText (d := d.record ⟨.insert, before.extent, new⟩) new
    (by unfold Draft.record; split <;> exact ht) hsize
  rw [resume_insert_eq, Buffer.refusal_eq_none_iff.2 ⟨hw, hvalid, hvalid, le_rfl⟩]
  dsimp only
  rw [if_neg hnew, hput, if_pos hs]

/-- An empty text leaves no trace. -/
theorem EditM.resume_insert_nil {d : Draft} {start : Coord} (hw : d.buffer.options.flags.readOnly = false)
    (hv : d.buffer.text.Valid start) : (EditM.insert start []).resume d = (.ok ⟨start, start⟩, d) := by
  rw [resume_insert_eq, Buffer.refusal_eq_none_iff.2 ⟨hw, hv, hv, le_rfl⟩]
  rfl

namespace Script

variable {v : Visit} {placement : Placement} {before after new : Text} {anchor cursor start : Coord}

/-- With no text to put in nothing happens. -/
theorem run_insertNear_nil (hw : v.draft.buffer.options.flags.readOnly = false)
    (hres : placement.resolve v.draft.buffer.text v.selection = .ok start)
    (hv : v.draft.buffer.text.Valid start) : (insertNear placement []).run v = (.ok (), v) := by
  have hinsert := EditM.resume_insert_nil hw hv
  unfold EditM.resume at hinsert
  unfold insertNear
  simp only [run, hres, given, Visit.edit, hinsert, if_true]

/-- **All that putting a text in next to a selection can do.** It breaks a contract, or it leaves
everything as it was, or the text goes in at its place and the selection moves across it. -/
theorem insertNear_cases (v : Visit) (placement : Placement) (new : Text)
    (hs : v.draft.buffer.text.size < Text.capacity) :
    (∃ f v', (insertNear placement new).run v = (.error (.fault f), v')) ∨
    (∃ outcome, (insertNear placement new).run v = (outcome, v) ∧ (outcome = .ok () → new = [])) ∨
    ∃ before after anchor cursor, v.draft.buffer.text = before ++ after ∧ new ≠ [] ∧
      (before ++ new ++ after).size < Text.capacity ∧
      placement.resolve v.draft.buffer.text v.selection = .ok before.extent ∧
      v.selection.anchor.acrossInsert before.extent (before ++ new).extent = .ok anchor ∧
      v.selection.cursor.acrossInsert before.extent (before ++ new).extent = .ok cursor ∧
      (insertNear placement new).run v = (.ok (), { v with
        draft := (v.draft.record ⟨.insert, before.extent, new⟩).advance (before ++ new ++ after)
          ⟨.insert, before.extent, (before ++ new).extent⟩
        selection := { v.selection with
          anchor := (before ++ new ++ after).clamp anchor
          cursor := (before ++ new ++ after).clamp cursor } }) := by
  have hedit : ∀ {start outcome d'}, (EditM.insert start new).resume v.draft = (outcome, d') →
      StateT.run (ExceptT.run (EditM.insert start new)) v.draft = (outcome, d') := id
  unfold insertNear
  rw [run]
  cases hres : placement.resolve v.draft.buffer.text v.selection with
  | error f => exact .inl ⟨f, v, rfl⟩
  | ok start =>
    simp only [given, run, Visit.edit]
    rcases EditM.insert_cases v.draft start new hs with ⟨-, e, he⟩ | ⟨hnil, -, hd⟩ | ⟨d', hd⟩ |
      ⟨before, after, ht, rfl, hnew, hsize, hd⟩
    · rw [hedit he]
      exact .inr (.inl ⟨_, rfl, fun hok => by cases hok⟩)
    · rw [hedit hd]
      simp only [if_true, run]
      exact .inr (.inl ⟨_, rfl, fun _ => hnil⟩)
    · rw [hedit hd]
      exact .inl ⟨_, _, rfl⟩
    · have hne : before.extent ≠ (before ++ new).extent := (Text.extent_lt_append before hnew).ne
      have htext := (v.draft.record_advance ⟨.insert, before.extent, new⟩ (before ++ new ++ after)
        ⟨.insert, before.extent, (before ++ new).extent⟩).1
      rw [hedit hd]
      simp only [if_neg hne, run]
      cases hanchor : v.selection.anchor.acrossInsert before.extent (before ++ new).extent with
      | error f => exact .inl ⟨f, _, rfl⟩
      | ok anchor =>
        cases hcursor : v.selection.cursor.acrossInsert before.extent (before ++ new).extent with
        | error f => exact .inl ⟨f, _, rfl⟩
        | ok cursor =>
          refine .inr (.inr ⟨before, after, anchor, cursor, ht, hnew, hsize, rfl, hanchor, hcursor, ?_⟩)
          simp only [run, htext]

/-- If it succeeds with a text that is not empty, that text has gone in, and the selection across it. -/
theorem run_insertNear_ok {v' : Visit} (hnew : new ≠ []) (hs : v.draft.buffer.text.size < Text.capacity)
    (h : (insertNear placement new).run v = (.ok (), v')) :
    ∃ change anchor cursor, change.Takes v.draft.buffer.text v'.draft.buffer.text ∧
      change.kind = .insert ∧ v'.draft.buffer.text.size < Text.capacity ∧
      v'.draft.buffer.log = v.draft.buffer.log ++ [change] ∧
      placement.resolve v.draft.buffer.text v.selection = .ok change.start ∧
      change.move v.selection.anchor = .ok anchor ∧ change.move v.selection.cursor = .ok cursor ∧
      v'.selection = { v.selection with
        anchor := v'.draft.buffer.text.clamp anchor, cursor := v'.draft.buffer.text.clamp cursor } := by
  rcases insertNear_cases v placement new hs with ⟨f, v₁, hrun⟩ | ⟨outcome, hrun, hnil⟩ |
    ⟨before, after, anchor, cursor, ht, -, hsize, hplace, hanchor, hcursor, hrun⟩
  · cases h.symm.trans hrun
  · cases h.symm.trans hrun
    exact absurd (hnil rfl) hnew
  · cases h.symm.trans hrun
    obtain ⟨htext, hlog, -, -⟩ := v.draft.record_advance ⟨.insert, before.extent, new⟩
      (before ++ new ++ after) ⟨.insert, before.extent, (before ++ new).extent⟩
    refine ⟨⟨.insert, before.extent, (before ++ new).extent⟩, anchor, cursor, ?_, rfl, htext.symm ▸ hsize,
      hlog, hplace, hanchor, hcursor, by rw [htext]⟩
    rw [ht, htext]
    exact .insert before new after hnew

/-- **A text put in next to a selection**, whose ends move across it. -/
theorem run_insertNear (ht : v.draft.buffer.text = before ++ after)
    (hw : v.draft.buffer.options.flags.readOnly = false)
    (hs : (before ++ new ++ after).size < Text.capacity) (hnew : new ≠ [])
    (hres : placement.resolve v.draft.buffer.text v.selection = .ok before.extent)
    (hanchor : v.selection.anchor.acrossInsert before.extent (before ++ new).extent = .ok anchor)
    (hcursor : v.selection.cursor.acrossInsert before.extent (before ++ new).extent = .ok cursor)
    (hv : (before ++ new ++ after).Valid anchor) (hv' : (before ++ new ++ after).Valid cursor) :
    (insertNear placement new).run v = (.ok (), { v with
      draft := (v.draft.record ⟨.insert, before.extent, new⟩).advance (before ++ new ++ after)
        ⟨.insert, before.extent, (before ++ new).extent⟩
      selection := { v.selection with anchor, cursor } }) := by
  have hinsert := EditM.resume_insert ht hw hs hnew
  unfold EditM.resume at hinsert
  have hne : before.extent ≠ (before ++ new).extent := (Text.extent_lt_append before hnew).ne
  have htext := (v.draft.record_advance ⟨.insert, before.extent, new⟩ (before ++ new ++ after)
    ⟨.insert, before.extent, (before ++ new).extent⟩).1
  unfold insertNear
  simp only [run, hres, given, Visit.edit, hinsert, if_neg hne, hanchor, hcursor, htext,
    Text.clamp_of_valid hv, Text.clamp_of_valid hv']

end Script

end Caret
