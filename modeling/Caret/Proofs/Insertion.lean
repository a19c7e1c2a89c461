import Caret.Proofs.Character
import Caret.Proofs.Trail
import Caret.Proofs.Update

/-!
# Texts put in at several positions

Several texts can be put into another all at once, each at its position, or one after the other, each
where its position has come to be by then. Positions only ever move on across what is put in, and
they never meet.

* `Text.splice`: the text with others put in all at once.
* `Text.splice_concat`: one more text behind all others.
* `Insertion.changes`: the changes that put them in one after the other.
* `Trail.across_lt`: across texts put in, positions keep their strict order.
-/

namespace Caret

/-- A text to be put in, and the position at which it is. -/
structure Insertion where
  point : Coord
  text : Text
  deriving DecidableEq, Repr, Inhabited

/-- What is put in at a position, in the order of the list. -/
def Insertion.textAt (pieces : List Insertion) (c : Coord) : Text :=
  (pieces.filter (·.point = c)).flatMap (·.text)

/-- The changes that put texts in one after the other, each where its point has come to be by then. An
empty text leaves no trace. -/
def Insertion.changes (pieces : List Insertion) : Except Fault (List Change) :=
  pieces.foldlM (fun log piece =>
    if piece.text = [] then return log
    else do
      let start ← piece.point.across log
      return log ++ [⟨.insert, start, start + piece.text.extent⟩]) []

namespace Text

variable {p r t : Text} {c e : Coord} {pieces : List Insertion}

/-- A text that begins at `c`, with others put in at its positions. -/
def spliceFrom (pieces : List Insertion) : Coord → Text → Text
  | c, [] => Insertion.textAt pieces c
  | c, ch :: rest =>
    Insertion.textAt pieces c ++ ch :: spliceFrom pieces (c + Coord.ofChar ch) rest

/-- **A text with others put in all at once**: in front of each character and at the end come those
that belong there, in the order of the list. -/
def splice (t : Text) (pieces : List Insertion) : Text := t.spliceFrom pieces 0

/-- A text that begins at `c`, with others put in in front of each of its characters. -/
def front (pieces : List Insertion) : Coord → Text → Text
  | _, [] => []
  | c, ch :: rest => Insertion.textAt pieces c ++ ch :: front pieces (c + Coord.ofChar ch) rest

theorem spliceFrom_append (pieces : List Insertion) (c : Coord) (p r : Text) :
    (p ++ r).spliceFrom pieces c = p.front pieces c ++ r.spliceFrom pieces (c + p.extent) := by
  induction p generalizing c with
  | nil => rw [extent_nil, add_zero]; rfl
  | cons ch p ih =>
    rw [List.cons_append, spliceFrom, front, ih, extent_cons, ← add_assoc, List.append_assoc,
      List.cons_append]

/-- Behind the points of all texts nothing is put in. -/
theorem textAt_of_lt (h : ∀ piece ∈ pieces, piece.point < c) : Insertion.textAt pieces c = [] := by
  unfold Insertion.textAt
  rw [List.filter_eq_nil_iff.2 fun piece hpiece => by simpa using (h piece hpiece).ne]
  rfl

theorem spliceFrom_of_lt (h : ∀ piece ∈ pieces, piece.point < c) : r.spliceFrom pieces c = r := by
  induction r generalizing c with
  | nil => exact textAt_of_lt h
  | cons ch r ih =>
    have hlt : ∀ piece ∈ pieces, piece.point < c + Coord.ofChar ch := fun piece hpiece =>
      lt_of_lt_of_le (h piece hpiece) (Coord.le_add _ _)
    rw [spliceFrom, textAt_of_lt h, List.nil_append, ih hlt]

/-- At the last point only the texts of that point are put in. -/
theorem spliceFrom_of_le (h : ∀ piece ∈ pieces, piece.point ≤ c) :
    r.spliceFrom pieces c = Insertion.textAt pieces c ++ r := by
  cases r with
  | nil => rw [List.append_nil]; rfl
  | cons ch r =>
    have hlt : c < c + Coord.ofChar ch := by
      simpa using Coord.add_lt_add_iff.2 (Coord.zero_lt_ofChar ch)
    rw [spliceFrom, spliceFrom_of_lt fun piece hpiece => lt_of_le_of_lt (h piece hpiece) hlt]

theorem textAt_concat (pieces : List Insertion) (piece : Insertion) (c : Coord) :
    Insertion.textAt (pieces ++ [piece]) c =
      Insertion.textAt pieces c ++ if piece.point = c then piece.text else [] := by
  unfold Insertion.textAt
  rw [List.filter_append, List.flatMap_append]
  by_cases h : piece.point = c <;> simp [h]

/-- A text put in behind does not matter in front. -/
theorem front_concat (piece : Insertion) (h : c + p.extent ≤ piece.point) :
    p.front (pieces ++ [piece]) c = p.front pieces c := by
  induction p generalizing c with
  | nil => rfl
  | cons ch p ih =>
    have hlt : c < piece.point := lt_of_lt_of_le (by
      simpa using Coord.add_lt_add_iff.2 (zero_lt_extent (List.cons_ne_nil ch p))) h
    rw [extent_cons, ← add_assoc] at h
    rw [front, front, ih h, textAt_concat, if_neg hlt.ne', List.append_nil]

theorem splice_nil (t : Text) : t.splice [] = t := spliceFrom_of_lt (by simp)

/-- **One more text behind all others** goes in where the text is the old one from there on. -/
theorem splice_concat {pre : Text} (x : Text) (hle : ∀ piece ∈ pieces, piece.point ≤ p.extent)
    (h : (p ++ r).splice pieces = pre ++ r) :
    (p ++ r).splice (pieces ++ [⟨p.extent, x⟩]) = pre ++ x ++ r := by
  have hle' : ∀ piece ∈ pieces ++ [⟨p.extent, x⟩], piece.point ≤ p.extent := by
    intro piece hpiece
    rcases List.mem_append.1 hpiece with hpiece | hpiece
    · exact hle piece hpiece
    · rw [List.mem_singleton.1 hpiece]
  unfold splice at h ⊢
  rw [spliceFrom_append, zero_add, spliceFrom_of_le hle, ← List.append_assoc] at h
  have hpre := List.append_cancel_right h
  rw [spliceFrom_append, zero_add, spliceFrom_of_le hle', front_concat _ (by rw [zero_add]),
    textAt_concat, if_pos rfl, ← hpre]
  simp only [List.append_assoc]

end Text

/-! ## Changes one after the other -/

namespace Insertion

variable {pieces : List Insertion} {piece : Insertion} {log : List Change}

theorem changes_nil : changes [] = .ok [] := rfl

theorem changes_concat_of_nil (h : changes pieces = .ok log) (hx : piece.text = []) :
    changes (pieces ++ [piece]) = .ok log := by
  unfold changes at h ⊢
  rw [List.foldlM_append, h, Fault.ok_bind, List.foldlM_cons, if_pos hx]
  rfl

theorem changes_concat {start : Coord} (h : changes pieces = .ok log) (hx : piece.text ≠ [])
    (hstart : piece.point.across log = .ok start) :
    changes (pieces ++ [piece]) = .ok (log ++ [⟨.insert, start, start + piece.text.extent⟩]) := by
  unfold changes at h ⊢
  rw [List.foldlM_append, h, Fault.ok_bind, List.foldlM_cons, if_neg hx, hstart]
  rfl

end Insertion

/-! ## Positions across texts put in -/

theorem Change.Takes.exists_valid {change : Change} {s t : Text} {c : Coord} (h : change.Takes s t)
    (hs : s.size < Text.capacity) (ht : t.size < Text.capacity) (hc : s.Valid c) :
    ∃ c', change.move c = .ok c' ∧ t.Valid c' := by
  obtain ⟨f, -, hf, hmove⟩ := h.exists_move hs ht
  obtain ⟨i, hi, rfl⟩ := Text.valid_iff.1 hc
  exact ⟨_, hmove i hi, Text.valid_position (hf i hi)⟩

/-- **Across a text put in** a position moves on, and it does move if the text goes in on its line. -/
theorem Change.Takes.le_move {change : Change} {s t : Text} {c c' : Coord} (h : change.Takes s t)
    (hkind : change.kind = .insert) (ht : t.size < Text.capacity) (hc : s.Valid c)
    (hmove : change.move c = .ok c') :
    c ≤ c' ∧ (change.start ≤ c → c.line = change.start.line → c < c') := by
  cases h with
  | erase before mid after hmid => cases hkind
  | insert before mid after hmid =>
    unfold Change.move Coord.acrossInsert at hmove
    dsimp only at hmove ⊢
    by_cases hlt : c < before.extent
    · rw [if_pos hlt] at hmove
      cases hmove
      exact ⟨le_rfl, fun hle => absurd hlt (not_lt.2 hle)⟩
    · obtain ⟨m, r, rfl, rfl⟩ := Text.exists_behind hc (not_lt.1 hlt)
      obtain ⟨hbm, hmr⟩ := Text.size_append_lt ht
      rw [if_neg hlt, Text.carry_extent (Text.size_append_lt hbm).1 hbm (Text.size_append_lt hmr).1] at hmove
      cases hmove
      rw [List.append_assoc, Text.extent_append, Text.extent_append before, Text.extent_append mid]
      refine ⟨Coord.add_le_add_iff.2 (Coord.le_add_left _ _), fun _ hline => ?_⟩
      rw [Coord.add_line] at hline
      exact Coord.add_lt_add_iff.2 (Coord.lt_add_left (Text.zero_lt_extent hmid) (by omega))

/-- **Across texts put in** positions keep their strict order. -/
theorem Trail.exists_strictMono {s t : Text} {log : List Change} (h : Trail s log t)
    (hinsert : ∀ change ∈ log, change.kind = .insert) :
    ∃ f : ℕ → ℕ, StrictMono f ∧ (∀ i ≤ s.length, f i ≤ t.length) ∧
      ∀ i ≤ s.length, (s.position i).across log = .ok (t.position (f i)) := by
  induction log generalizing s with
  | nil =>
    cases h
    exact ⟨id, strictMono_id, fun i hi => hi, fun i _ => rfl⟩
  | cons change log ih =>
    obtain ⟨u, hu, hsize, h⟩ := h
    obtain ⟨hchange, hrest⟩ := List.forall_mem_cons.1 hinsert
    obtain ⟨g, hg, hgle, hgmove⟩ := ih h hrest
    cases hu with
    | erase before mid after hmid => cases hchange
    | insert before mid after hmid =>
      have hle : ∀ i ≤ (before ++ after).length,
          (if i < before.length then i else i + mid.length) ≤ (before ++ mid ++ after).length := by
        intro i hi
        simp only [List.length_append] at hi ⊢
        split <;> omega
      refine ⟨fun i => g (if i < before.length then i else i + mid.length), ?_,
        fun i hi => hgle _ (hle i hi), fun i hi => ?_⟩
      · intro i j hij
        refine hg ?_
        split <;> split <;> omega
      · rw [Coord.across_cons (Text.move_insert hsize hi), hgmove _ (hle i hi)]

namespace Trail

variable {s t : Text} {log : List Change} {c c' e e' : Coord}

theorem exists_valid (h : Trail s log t) (hs : s.size < Text.capacity) (hc : s.Valid c) :
    ∃ e, c.across log = .ok e ∧ t.Valid e := by
  obtain ⟨f, -, hf, hmove⟩ := h.exists_across hs
  obtain ⟨i, hi, rfl⟩ := Text.valid_iff.1 hc
  exact ⟨_, hmove i hi, Text.valid_position (hf i hi)⟩

theorem across_lt (h : Trail s log t) (hinsert : ∀ change ∈ log, change.kind = .insert)
    (hc : s.Valid c) (hc' : s.Valid c') (hlt : c < c') (he : c.across log = .ok e)
    (he' : c'.across log = .ok e') : e < e' := by
  obtain ⟨f, hf, hfle, hmove⟩ := h.exists_strictMono hinsert
  obtain ⟨i, hi, rfl⟩ := Text.valid_iff.1 hc
  obtain ⟨j, hj, rfl⟩ := Text.valid_iff.1 hc'
  rw [hmove i hi] at he
  rw [hmove j hj] at he'
  cases he
  cases he'
  rw [Text.position_lt_iff hi hj] at hlt
  rw [Text.position_lt_iff (hfle i hi) (hfle j hj)]
  exact hf hlt

/-- Across texts put in positions move on. -/
theorem le_across (h : Trail s log t) (hinsert : ∀ change ∈ log, change.kind = .insert)
    (hs : s.size < Text.capacity) (hc : s.Valid c) (he : c.across log = .ok e) : c ≤ e := by
  induction log generalizing s c with
  | nil =>
    cases he
    exact le_rfl
  | cons change log ih =>
    obtain ⟨u, htakes, hu, h⟩ := h
    obtain ⟨hkind, hinsert⟩ := List.forall_mem_cons.1 hinsert
    obtain ⟨c', hmove, hc'⟩ := htakes.exists_valid hs hu hc
    rw [Coord.across_cons hmove] at he
    exact (htakes.le_move hkind hu hc hmove).1.trans (ih h hinsert hu hc' he)

end Trail

end Caret
