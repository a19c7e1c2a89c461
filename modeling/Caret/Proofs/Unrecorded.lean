import Caret.Proofs.Continuation
import Caret.Proofs.Edited

/-!
# Undo across unrecorded edits

While edits are not recorded the text goes on without the history, whose entries keep the places
that they were recorded at. Taking such an entry back checks nothing, so that it either fits the
text that it meets, breaks a contract, or logs a change that does not say what happened.

* `Change.Stands`, `EditM.Stands`: what is expected of the changes that a computation logs.
* `RecordedEdit.Applies`, `RecordedEdit.Replays`: recorded edits that fit a text which they were not
  recorded on.
* `EditM.reapply_of_applies`, `EditM.applies_of_reapply`: these are the edits that stand when they
  are made again.
* `Draft.undo_redo_stand_iff`: after which runs undo and redo stand.
* `Draft.undo_redo_stand_of_undisturbed`: they do where unrecorded edits were taken back in time.
-/

namespace Caret

namespace Text

variable {t u : Text} {n low high : ℕ} {new : Text}

/-! ## Boundaries -/

/-- A text is put in at a boundary, and has to leave room. -/
theorem insertAt_eq_ok_iff :
    t.insertAt n new = .ok u ↔ ∃ before after, t = before ++ after ∧ before.size = n ∧
      u = before ++ new ++ after ∧ u.size < capacity := by
  have hsize (before after : Text) :
      (before ++ new ++ after).size = (before ++ after).size + new.size := by
    simp only [size_append]
    omega
  unfold insertAt
  constructor
  · intro h
    cases hcut : t.cut? n with
    | none =>
      rw [hcut] at h
      cases h
    | some parts =>
      obtain ⟨before, after⟩ := parts
      obtain ⟨rfl, hn⟩ := cut?_eq_some_iff.1 hcut
      rw [hcut] at h
      dsimp only at h
      by_cases hc : (before ++ after).size + new.size < capacity
      · rw [if_pos hc] at h
        cases h
        exact ⟨before, after, rfl, hn, rfl, by rwa [hsize]⟩
      · rw [if_neg hc] at h
        cases h
  · rintro ⟨before, after, rfl, hn, rfl, hc⟩
    rw [cut?_eq_some_iff.2 ⟨rfl, hn⟩]
    dsimp only
    rw [← hsize, if_pos hc]

/-- A text is taken out between two boundaries in order. -/
theorem removeRange_eq_ok_iff :
    t.removeRange low high = .ok u ↔ ∃ before mid after, t = before ++ mid ++ after ∧
      before.size = low ∧ (before ++ mid).size = high ∧ u = before ++ after := by
  constructor
  · intro h
    unfold removeRange at h
    cases hcut : t.cut? low with
    | none =>
      rw [hcut] at h
      cases h
    | some parts =>
      obtain ⟨before, rest⟩ := parts
      obtain ⟨ht, hlow⟩ := cut?_eq_some_iff.1 hcut
      cases hcut' : t.cut? high with
      | none =>
        rw [hcut, hcut'] at h
        cases h
      | some parts' =>
        obtain ⟨long, after⟩ := parts'
        obtain ⟨ht', hhigh⟩ := cut?_eq_some_iff.1 hcut'
        rw [hcut, hcut'] at h
        dsimp only at h
        by_cases hle : low ≤ high
        · rw [if_pos hle] at h
          cases h
          obtain ⟨mid, rfl, rfl⟩ :=
            exists_append_of_size_le (ht.symm.trans ht') (by rw [hlow, hhigh]; exact hle)
          exact ⟨before, mid, after, ht', hlow, hhigh, rfl⟩
        · rw [if_neg hle] at h
          cases h
  · rintro ⟨before, mid, after, rfl, rfl, rfl, rfl⟩
    exact EditM.removeRange_append before mid after

/-! ## Coordinates that are not positions -/

theorem lineStart_zero (t : Text) : t.lineStart 0 = 0 := by
  cases t <;> rfl

/-- A coordinate behind a position reaches further, to the end of the text at the least. -/
theorem size_add_le_of_extent_lt (before after : Text) {c : Coord} (h : before.extent < c) :
    before.size + min 1 after.length ≤ (before ++ after).lineStart c.line + c.column := by
  induction before generalizing c with
  | nil =>
    obtain ⟨line, column⟩ := c
    rw [List.nil_append, size_nil]
    rcases h with hline | ⟨-, hcolumn⟩
    · -- the first character of the text starts in front of any later line
      obtain ⟨n, rfl⟩ : ∃ n, line = n + 1 := Nat.exists_eq_succ_of_ne_zero (Nat.ne_of_gt hline)
      cases after with
      | nil => exact Nat.zero_le _
      | cons a after =>
        have hpos := a.utf8Size_pos
        simp only [lineStart, List.length_cons]
        omega
    · have hpos : 0 < column := hcolumn
      dsimp only
      omega
  | cons x before ih =>
    obtain ⟨line, column⟩ := c
    rw [List.cons_append, size_cons]
    by_cases hx : x = '\n'
    · subst hx
      rw [extent_newline] at h
      have hpos : 0 < line := by
        simp only [Coord.lt_def] at h
        omega
      obtain ⟨n, rfl⟩ : ∃ n, line = n + 1 := Nat.exists_eq_succ_of_ne_zero (Nat.ne_of_gt hpos)
      have hrest : extent before < ⟨n, column⟩ := by
        simp only [Coord.lt_def] at h ⊢
        omega
      have hle := ih hrest
      simp only [lineStart, if_true] at hle ⊢
      omega
    · have hline := extent_cons_line hx before
      have hcolumn := extent_cons_column hx before
      simp only [Coord.lt_def, hline, hcolumn] at h
      cases line with
      | zero =>
        -- on the first line the character adds to the column
        have hzero : (extent before).line = 0 := by omega
        rw [if_pos hzero] at h
        have hrest : extent before < ⟨0, column - x.utf8Size⟩ := by
          simp only [Coord.lt_def]
          omega
        have hle := ih hrest
        rw [lineStart_zero] at hle ⊢
        dsimp only at hle ⊢
        omega
      | succ n =>
        have hrest : extent before < ⟨n + 1, column⟩ := by
          simp only [Coord.lt_def]
          split at h <;> omega
        have hle := ih hrest
        simp only [lineStart, if_neg hx] at hle ⊢
        omega

theorem lineStart_le_size (t : Text) (n : ℕ) : t.lineStart n ≤ t.size := by
  induction t generalizing n with
  | nil => cases n <;> exact Nat.zero_le _
  | cons c t ih =>
    cases n with
    | zero => exact Nat.zero_le _
    | succ n =>
      have hn := ih n
      have hn' := ih (n + 1)
      simp only [lineStart, size_cons]
      split <;> omega

/-- The line that holds a byte offset begins at or before it. -/
theorem lineStart_lineAt_le (t : Text) (n : ℕ) : t.lineStart (t.lineAt n) ≤ n := by
  induction t generalizing n with
  | nil => exact Nat.zero_le _
  | cons c t ih =>
    unfold lineAt
    by_cases hn : n = 0
    · rw [if_pos hn, lineStart_zero]
      exact Nat.zero_le _
    rw [if_neg hn]
    have hle := ih (n - c.utf8Size)
    by_cases hc : c = '\n'
    · have hsize : c.utf8Size = 1 := by rw [hc]; rfl
      rw [if_pos hc, Nat.add_comm 1]
      simp only [lineStart, if_pos hc]
      omega
    · rw [if_neg hc, Nat.zero_add]
      cases hline : lineAt t (n - c.utf8Size) with
      | zero =>
        rw [lineStart_zero]
        exact Nat.zero_le _
      | succ line =>
        -- there is a newline between the character and the offset
        have hfar : c.utf8Size ≤ n := by
          by_contra hlt
          have hzero : n - c.utf8Size = 0 := by omega
          rw [hzero] at hline
          cases t with
          | nil => cases hline
          | cons d t => cases hline
        rw [hline] at hle
        simp only [lineStart, if_neg hc]
        omega

/-- The way to a coordinate and back ends at the byte offset it began with, or at the end. -/
theorem offset_coordAt (h : t.size < capacity) (n : ℕ) :
    t.offset (t.coordAt n) = .ok (min n t.size) := by
  have hle := lineStart_lineAt_le t (min n t.size)
  have hsum : t.lineStart (t.lineAt (min n t.size)) +
      (min n t.size - t.lineStart (t.lineAt (min n t.size))) = min n t.size := by omega
  have hbound := Count.signedBound_add_self
  unfold capacity at h
  unfold offset coordAt
  dsimp only
  rw [Count.add_of_lt (by omega), hsum, Fault.ok_bind, Nat.min_eq_left (Nat.min_le_right _ _),
    Fault.pure_eq_ok]

theorem coordAt_min (t : Text) (n : ℕ) : t.coordAt (min n t.size) = t.coordAt n := by
  unfold coordAt
  rw [min_assoc, min_self]

/-- The offset of a coordinate, where there is one. -/
theorem eq_of_offset_eq_ok {c : Coord} (h : t.offset c = .ok n) :
    n = min (t.lineStart c.line + c.column) t.size := by
  unfold offset at h
  rw [Fault.bind_eq_ok] at h
  obtain ⟨sum, hsum, hn⟩ := h
  unfold Count.add at hsum
  split at hsum
  · cases hsum
    cases hn
    rfl
  · cases hsum

/-- **Where a text was put in.** When it went in at the offset of a coordinate that is a position of
the new text in front of the end of the insertion, then that coordinate was a position before, or
it lay past the end. -/
theorem eq_extent_or_past {before content after : Text} {c : Coord}
    (hs : (before ++ after).size < capacity) (hoff : (before ++ after).offset c = .ok before.size)
    (hvalid : (before ++ content ++ after).Valid c) (hlt : c < (before ++ content).extent) :
    c = before.extent ∨ after = [] ∧ before.extent < c := by
  obtain ⟨front, back, hsplit, rfl⟩ := valid_iff_extent.1 hvalid
  obtain ⟨mid, hmid, -⟩ := exists_append_of_extent_le hsplit.symm hlt.le
  -- the place is inside of the new text, or in front of it
  rcases List.append_eq_append_iff.1 hmid with ⟨rest, rfl, -⟩ | ⟨rest, rfl, -⟩
  · by_cases hnil : rest = []
    · rw [hnil, List.append_nil]
      exact .inl rfl
    · have hpast := extent_lt_append before hnil
      have hfar := size_add_le_of_extent_lt before after hpast
      have hcut := eq_of_offset_eq_ok hoff
      rw [size_append] at hcut
      -- so the offset was cut to the end of the text, and nothing comes after
      have hafter : after.size = 0 := by
        by_contra hne
        have hlen : after ≠ [] := fun h => hne (by rw [h]; rfl)
        have hpos := List.length_pos_iff.2 hlen
        omega
      exact .inr ⟨eq_nil_of_size_eq_zero hafter, hpast⟩
  · have hat : (front ++ rest ++ after).offset front.extent = .ok front.size := by
      rw [List.append_assoc] at hs ⊢
      exact offset_extent hs
    rw [hat, Except.ok.injEq, size_append] at hoff
    have hnil : rest = [] := eq_nil_of_size_eq_zero (by omega)
    rw [hnil, List.append_nil]
    exact .inl rfl

end Text

/-! ## Changes that stand -/

/-- **What is expected of a logged change**: it is not empty, and begins and ends at positions of
the state that it refers to, which is the one after an insert and the one before an erase. -/
def Change.Stands (change : Change) (pre post : Text) : Prop :=
  change.start < change.stop ∧
    match change.kind with
    | .insert => post.Valid change.start ∧ post.Valid change.stop
    | .erase => pre.Valid change.start ∧ pre.Valid change.stop

/-- Changes made one after the other from a text on all stand. -/
def Revision.AllStand : Text → List Revision → Prop
  | _, [] => True
  | t, r :: rest => r.change.Stands t r.after.text ∧ AllStand r.after.text rest

/-- The computation breaks no contract, and the changes that it logs stand. -/
def EditM.Stands {α : Type} (act : EditM α) (d : Draft) : Prop :=
  ∃ a d' made, act.resume d = (.ok a, d') ∧ d'.revisions = d.revisions ++ made ∧
    d'.buffer.log = d.buffer.log ++ made.map (·.change) ∧ Revision.AllStand d.buffer.text made

/-- **What a recorded edit does to a text that it was not recorded on.** A text is put in at a
position, or past the end of the text at a place that becomes a position by that. As many bytes as
were recorded are taken out behind a position, or what there is in front of the end. -/
inductive RecordedEdit.Applies : RecordedEdit → Text → Text → Prop
  | insert (before content after : Text) (h : content ≠ []) :
    Applies ⟨.insert, before.extent, content⟩ (before ++ after) (before ++ content ++ after)
  | insertPast (t content : Text) (start : Coord) (hpast : t.extent < start)
      (hstop : start < (t ++ content).extent) (hvalid : (t ++ content).Valid start) :
    Applies ⟨.insert, start, content⟩ t (t ++ content)
  | erase (before gone after content : Text) (h : gone ≠ [])
      (hsize : gone.size = content.size ∨ after = [] ∧ gone.size ≤ content.size) :
    Applies ⟨.erase, before.extent, content⟩ (before ++ gone ++ after) (before ++ after)

/-- Recorded edits apply one after the other, from one text to another, and leave room. -/
def RecordedEdit.Replays : List RecordedEdit → Text → Text → Prop
  | [], s, t => s = t
  | m :: rest, s, t => ∃ u, m.Applies s u ∧ u.size < Text.capacity ∧ Replays rest u t

namespace RecordedEdit

variable {m : RecordedEdit} {ms : List RecordedEdit} {s t : Text}

/-- An edit applies where it was recorded. -/
theorem Takes.applies (h : m.Takes s t) : m.Applies s t := by
  cases h with
  | insert before content after h => exact .insert before content after h
  | erase before content after h => exact .erase before content after content h (.inl rfl)

theorem Lead.replays (h : Lead ms s t) : Replays ms s t := by
  induction ms generalizing s with
  | nil => exact h
  | cons m ms ih =>
    obtain ⟨u, hu, hub, h⟩ := h
    exact ⟨u, hu.applies, hub, ih h⟩

end RecordedEdit

/-- Staying within capacity is kept by every edit. -/
theorem Draft.withinCapacity : Draft.Invariant fun d => d.buffer.text.size < Text.capacity where
  adjust _ _ h _ htext _ := htext ▸ h
  insertAt d _ n new text _ h := by
    obtain ⟨before, after, -, -, -, hsize⟩ := Text.insertAt_eq_ok_iff.1 h
    exact hsize
  removeRange d _ low high text hd h := by
    obtain ⟨before, mid, after, ht, -, -, rfl⟩ := Text.removeRange_eq_ok_iff.1 h
    rw [ht, Text.size_append, Text.size_append] at hd
    show (before ++ after).size < Text.capacity
    rw [Text.size_append]
    omega

namespace EditM

variable {d d' : Draft} {m : RecordedEdit} {u : Text}

/-! ## One recorded edit -/

/-- A text that was put in, wherever that was. -/
theorem exists_of_putText {start : Coord} {new : Text} {span : Span}
    (h : (putText start new).resume d = (.ok span, d')) :
    ∃ before after, d.buffer.text = before ++ after ∧ d.buffer.text.offset start = .ok before.size ∧
      (before ++ new ++ after).size < Text.capacity ∧
      d' = d.advance (before ++ new ++ after) ⟨.insert, start, (before ++ new).extent⟩ := by
  unfold putText at h
  rw [resume_bind_ok (resume_buffer d)] at h
  dsimp only at h
  cases hn : d.buffer.text.offset start with
  | error f =>
    rw [hn] at h
    cases h
  | ok n =>
    rw [hn, resume_bind_ok (resume_require_ok n d)] at h
    cases htext : d.buffer.text.insertAt n new with
    | error f =>
      rw [htext] at h
      cases h
    | ok text =>
      obtain ⟨before, after, ht, rfl, rfl, hsize⟩ := Text.insertAt_eq_ok_iff.1 htext
      have hstop : (before ++ new ++ after).coordAt (before.size + new.size) =
          (before ++ new).extent := by
        rw [← Text.size_append, Text.coordAt_size]
      rw [htext, resume_bind_ok (resume_require_ok _ d), hstop] at h
      cases h
      exact ⟨before, after, ht, rfl, hsize, rfl⟩

/-- A text that was taken out, wherever that was. -/
theorem exists_of_cutText {start stop c : Coord}
    (h : (cutText start stop).resume d = (.ok c, d')) :
    ∃ before mid after, d.buffer.text = before ++ mid ++ after ∧
      d.buffer.text.offset start = .ok before.size ∧
      d.buffer.text.offset stop = .ok (before ++ mid).size ∧
      d' = d.advance (before ++ after) ⟨.erase, start, stop⟩ := by
  unfold cutText at h
  rw [resume_bind_ok (resume_buffer d)] at h
  dsimp only at h
  cases hlow : d.buffer.text.offset start with
  | error f =>
    rw [hlow] at h
    cases h
  | ok low =>
    rw [hlow, resume_bind_ok (resume_require_ok low d)] at h
    cases hhigh : d.buffer.text.offset stop with
    | error f =>
      rw [hhigh] at h
      cases h
    | ok high =>
      rw [hhigh, resume_bind_ok (resume_require_ok high d)] at h
      cases htext : d.buffer.text.removeRange low high with
      | error f =>
        rw [htext] at h
        cases h
      | ok text =>
        obtain ⟨before, mid, after, ht, rfl, rfl, rfl⟩ := Text.removeRange_eq_ok_iff.1 htext
        rw [htext, resume_bind_ok (resume_require_ok _ d)] at h
        cases h
        exact ⟨before, mid, after, ht, rfl, rfl, rfl⟩

/-- A recorded edit that applies is made, and stands. -/
theorem reapply_of_applies (h : m.Applies d.buffer.text u)
    (hs : d.buffer.text.size < Text.capacity) (hu : u.size < Text.capacity) :
    ∃ change : Change, change.Stands d.buffer.text u ∧
      (reapply m).resume d = (.ok (), d.advance u change) := by
  generalize htext : d.buffer.text = t at h hs
  cases h with
  | insert before content after hne =>
    have hstart : (before ++ content ++ after).Valid before.extent := by
      rw [List.append_assoc]
      exact Text.valid_extent_append before (content ++ after)
    refine ⟨⟨.insert, before.extent, (before ++ content).extent⟩,
      ⟨Text.extent_lt_append before hne, hstart, Text.valid_extent_append _ after⟩, ?_⟩
    unfold reapply
    dsimp only
    rw [resume_discard, resume_putText content htext hs, if_pos hu]
  | insertPast _ content start hpast hstop hvalid =>
    -- the offset of the place is cut to the end of the text, where the content goes
    have hoff : t.offset start = .ok t.size := by
      have hfar := Text.size_add_le_of_extent_lt t [] hpast
      have hline := Text.lineStart_le_size t start.line
      have hcolumn : start.column < Text.capacity := by
        obtain ⟨front, back, hsplit, rfl⟩ := Text.valid_iff_extent.1 hvalid
        have hle := Text.extent_le_size front
        rw [hsplit, Text.size_append] at hu
        omega
      have hbound := Count.signedBound_add_self
      rw [List.append_nil] at hfar
      unfold Text.capacity at hs hcolumn
      unfold Text.offset
      rw [Count.add_of_lt (by omega), Fault.ok_bind, Nat.min_eq_right (by omega), Fault.pure_eq_ok]
    have hput : t.insertAt t.size content = .ok (t ++ content) :=
      Text.insertAt_eq_ok_iff.2 ⟨t, [], (List.append_nil t).symm, rfl, (List.append_nil _).symm, hu⟩
    have hend : (t ++ content).coordAt (t.size + content.size) = (t ++ content).extent := by
      have hcoord := Text.coordAt_size (t ++ content) []
      rw [List.append_nil, Text.size_append] at hcoord
      exact hcoord
    have hvalid' : (t ++ content).Valid (t ++ content).extent := by
      have hlast := Text.valid_extent_append (t ++ content) []
      rw [List.append_nil] at hlast
      exact hlast
    refine ⟨⟨.insert, start, (t ++ content).extent⟩, ⟨hstop, hvalid, hvalid'⟩, ?_⟩
    unfold reapply putText
    rw [resume_discard, resume_bind_ok (resume_buffer d), htext]
    dsimp only
    rw [hoff, resume_bind_ok (resume_require_ok _ d), hput, resume_bind_ok (resume_require_ok _ d),
      hend]
    rfl
  | erase before gone after content hne hsize =>
    have hstart : (before ++ gone ++ after).Valid before.extent := by
      rw [List.append_assoc]
      exact Text.valid_extent_append before (gone ++ after)
    have hoff : (before ++ gone ++ after).offset before.extent = .ok before.size := by
      rw [List.append_assoc] at hs ⊢
      exact Text.offset_extent hs
    -- what is left in front of the end is shorter than what was recorded
    have hstop : (before ++ gone ++ after).coordAt (before.size + content.size) =
        (before ++ gone).extent := by
      rw [← Text.coordAt_size (before ++ gone) after, Text.size_append before gone]
      rcases hsize with hsize | ⟨rfl, hsize⟩
      · rw [hsize]
      · unfold Text.coordAt
        rw [List.append_nil, Text.size_append, Nat.min_eq_right (by omega), min_self]
    refine ⟨⟨.erase, before.extent, (before ++ gone).extent⟩,
      ⟨Text.extent_lt_append before hne, hstart, Text.valid_extent_append _ after⟩, ?_⟩
    unfold reapply
    dsimp only
    rw [resume_bind_ok (resume_buffer d), htext, hoff, resume_bind_ok (resume_require_ok _ d), hstop,
      resume_discard, resume_cutText htext hs]

/-- **A recorded edit that is made again** and stands applies. -/
theorem applies_of_reapply (h : (reapply m).resume d = (.ok (), d'))
    (hs : d.buffer.text.size < Text.capacity) :
    ∃ u change, d' = d.advance u change ∧ u.size < Text.capacity ∧
      (change.Stands d.buffer.text u → m.Applies d.buffer.text u) := by
  obtain ⟨kind, start, content⟩ := m
  cases kind with
  | insert =>
    have hdiscard : (discard (putText start content)).resume d = (.ok (), d') := h
    obtain ⟨span, hput⟩ := exists_of_resume_discard hdiscard
    obtain ⟨before, after, ht, hoff, hsize, rfl⟩ := exists_of_putText hput
    refine ⟨_, _, rfl, hsize, ?_⟩
    rintro ⟨hlt, hvalid, -⟩
    dsimp only at hlt hvalid
    rw [ht] at hoff hs ⊢
    rcases Text.eq_extent_or_past hs hoff hvalid hlt with rfl | ⟨rfl, hpast⟩
    · refine .insert before content after ?_
      rintro rfl
      rw [List.append_nil] at hlt
      exact lt_irrefl _ hlt
    · rw [List.append_nil] at hvalid
      simp only [List.append_nil]
      exact .insertPast before content start hpast hlt hvalid
  | erase =>
    have hbind : (buffer >>= fun b => require (b.text.offset start) >>= fun n =>
        discard (cutText start (b.text.coordAt (n + content.size)))).resume d = (.ok (), d') := h
    rw [resume_bind_ok (resume_buffer d)] at hbind
    cases hoff : d.buffer.text.offset start with
    | error f =>
      rw [hoff] at hbind
      cases hbind
    | ok n =>
      rw [hoff, resume_bind_ok (resume_require_ok n d)] at hbind
      obtain ⟨c, hcut⟩ := exists_of_resume_discard hbind
      obtain ⟨before, mid, after, ht, hlow, hhigh, rfl⟩ := exists_of_cutText hcut
      have hsize : (before ++ after).size < Text.capacity := by
        rw [ht, Text.size_append, Text.size_append] at hs
        rw [Text.size_append]
        omega
      refine ⟨_, _, rfl, hsize, ?_⟩
      rintro ⟨hlt, hvalid, -⟩
      dsimp only at hlt hvalid
      rw [hoff, Except.ok.injEq] at hlow
      subst hlow
      rw [Text.offset_coordAt hs, Except.ok.injEq] at hhigh
      rw [← Text.coordAt_min, hhigh] at hlt
      rw [ht] at hoff hs hvalid hhigh hlt ⊢
      -- the place is the position at the offset, so that the part taken out ends behind it
      obtain ⟨front, back, hfront, rfl⟩ := Text.valid_iff_extent.1 hvalid
      rw [hfront] at hs
      rw [hfront, Text.offset_extent hs, Except.ok.injEq] at hoff
      rw [List.append_assoc] at hfront
      obtain ⟨rfl, -⟩ := Text.eq_of_size_eq hfront hoff.symm
      rw [Text.coordAt_size] at hlt
      have hmid : mid ≠ [] := by
        rintro rfl
        rw [List.append_nil] at hlt
        exact lt_irrefl _ hlt
      refine .erase before mid after content hmid ?_
      simp only [Text.size_append] at hhigh
      rcases Nat.eq_zero_or_pos after.size with hz | hpos
      · exact .inr ⟨Text.eq_nil_of_size_eq_zero hz, by omega⟩
      · exact .inl (by omega)

/-! ## Groups of recorded edits -/

variable {ms : List RecordedEdit} {f : RecordedEdit → RecordedEdit} {t : Text}

/-- Recorded edits that apply one after the other are all made, and stand. -/
theorem resume_of_replays (h : RecordedEdit.Replays (ms.map f) d.buffer.text t)
    (hs : d.buffer.text.size < Text.capacity) :
    ∃ d' made, (ms.forM fun m => reapply (f m)).resume d = (.ok (), d') ∧
      d'.revisions = d.revisions ++ made ∧ d'.buffer.log = d.buffer.log ++ made.map (·.change) ∧
      Revision.AllStand d.buffer.text made ∧ d'.buffer.text = t ∧
      d'.buffer.history = d.buffer.history := by
  induction ms generalizing d with
  | nil =>
    have ht : d.buffer.text = t := h
    exact ⟨d, [], rfl, (List.append_nil _).symm, (List.append_nil _).symm, trivial, ht, rfl⟩
  | cons m ms ih =>
    obtain ⟨u, hu, hub, hrest⟩ := h
    obtain ⟨change, hstands, hr⟩ := reapply_of_applies hu hs hub
    obtain ⟨d', made, hr', hrev, hlog, hall, ht, hhistory⟩ := ih (d := d.advance u change) hrest hub
    refine ⟨d', ⟨change, (d.advance u change).buffer⟩ :: made, ?_, ?_, ?_, ⟨hstands, hall⟩, ht,
      hhistory⟩
    · show (reapply (f m) >>= fun _ => ms.forM fun m => reapply (f m)).resume d = _
      rw [resume_bind_ok hr, hr']
    · rw [hrev, List.append_cons]
      rfl
    · rw [hlog, List.map_cons, List.append_cons]
      rfl

/-- **Recorded edits that are made again stand** exactly where they apply one after the other. -/
theorem stands_iff_replays (hs : d.buffer.text.size < Text.capacity) :
    (ms.forM fun m => reapply (f m)).Stands d ↔
      ∃ t, RecordedEdit.Replays (ms.map f) d.buffer.text t := by
  constructor
  · rintro ⟨a, d', made, hr, hrev, hlog, hall⟩
    induction ms generalizing d made with
    | nil => exact ⟨d.buffer.text, rfl⟩
    | cons m ms ih =>
      have hbind : (reapply (f m) >>= fun _ => ms.forM fun m => reapply (f m)).resume d =
          (.ok a, d') := hr
      rw [resume_bind] at hbind
      generalize hfirst : (reapply (f m)).resume d = outcome at hbind
      obtain ⟨r, d₁⟩ := outcome
      cases r with
      | error e => cases hbind
      | ok _ =>
        obtain ⟨u, change, rfl, hu, happlies⟩ := applies_of_reapply hfirst hs
        -- the first of the logged changes is the one just made
        have hext := Maintains.forM (fun m => (Draft.Extends.invariant _).reapply (f m)) ms _
          (Draft.Extends.refl (d.advance u change))
        dsimp only at hbind
        rw [hbind] at hext
        obtain ⟨later, hlater⟩ := hext.revisions
        have hmade : made = ⟨change, (d.advance u change).buffer⟩ :: later := by
          have hsame : d.revisions ++ [⟨change, (d.advance u change).buffer⟩] ++ later =
              d.revisions ++ made := hlater.trans hrev
          rw [List.append_assoc] at hsame
          exact (List.append_cancel_left hsame).symm
        subst hmade
        obtain ⟨hstands, hall⟩ := hall
        rw [List.map_cons, List.append_cons] at hlog
        obtain ⟨t, ht⟩ := ih hu later hbind hlater.symm hlog hall
        exact ⟨t, u, happlies hstands, hu, ht⟩
  · rintro ⟨t, ht⟩
    obtain ⟨d', made, hr, hrev, hlog, hall, -, -⟩ := resume_of_replays ht hs
    exact ⟨(), d', made, hr, hrev, hlog, hall⟩

end EditM

/-! ## Undo and redo -/

namespace Buffer

/-- What an undo would take back fits the text. -/
def UndoFits (b : Buffer) : Prop :=
  b.options.flags.readOnly = true ∨ ∀ group, b.history.popDone.1 = some group →
    ∃ t, RecordedEdit.Replays (group.reverse.map RecordedEdit.inverse) b.text t

/-- What a redo would make again fits the text. -/
def RedoFits (b : Buffer) : Prop :=
  b.options.flags.readOnly = true ∨ ∀ group, b.history.popUndone.1 = some group →
    ∃ t, RecordedEdit.Replays group b.text t

end Buffer

namespace EditM

variable {α : Type} {d : Draft}

theorem Stands.of_resume {act : EditM α} {a : α} {d' : Draft} (h : act.resume d = (.ok a, d'))
    (hrev : d'.revisions = d.revisions) (hlog : d'.buffer.log = d.buffer.log) : act.Stands d :=
  ⟨a, d', [], h, hrev.trans (List.append_nil _).symm, hlog.trans (List.append_nil _).symm, trivial⟩

/-- A computation that lets another one run and then only alters the history stands as that one
does. -/
theorem stands_iff_of_resume {act : EditM α} {run : EditM PUnit} {a : α} {h : History}
    {history : Draft → History}
    (hr : act.resume d = match run.resume (d.withHistory h) with
      | (.ok _, d') => (.ok a, d'.withHistory (history d'))
      | (.error e, d') => (.error e, d')) :
    act.Stands d ↔ run.Stands (d.withHistory h) := by
  constructor
  · rintro ⟨b, d', made, hb, hrev, hlog, hall⟩
    rw [hr] at hb
    generalize hrun : run.resume (d.withHistory h) = outcome at hb
    obtain ⟨r, d₁⟩ := outcome
    cases r with
    | error e => cases hb
    | ok _ =>
      cases hb
      exact ⟨_, d₁, made, hrun, hrev, hlog, hall⟩
  · rintro ⟨_, d', made, hrun, hrev, hlog, hall⟩
    rw [hrun] at hr
    exact ⟨a, _, made, hr, hrev, hlog, hall⟩

/-- An undo stands exactly where what it takes back fits. -/
theorem undo_stands_iff (hs : d.buffer.text.size < Text.capacity) :
    undo.Stands d ↔ d.buffer.UndoFits := by
  unfold Buffer.UndoFits
  cases hro : d.buffer.options.flags.readOnly with
  | true => exact ⟨fun _ => .inl rfl, fun _ => .of_resume (resume_undo_readOnly hro) rfl rfl⟩
  | false =>
    rcases hp : d.buffer.history.popDone with ⟨_ | group, h⟩
    · exact ⟨fun _ => .inr fun group hg => (by cases hg),
        fun _ => .of_resume (resume_undo_none hro hp) rfl rfl⟩
    · have hgroup : (group.reverse.forM fun m => reapply m.inverse).Stands (d.withHistory h) ↔
          ∃ t, RecordedEdit.Replays (group.reverse.map RecordedEdit.inverse) d.buffer.text t :=
        stands_iff_replays hs
      rw [stands_iff_of_resume (resume_undo_group hro hp), hgroup]
      simp

/-- A redo stands exactly where what it makes again fits. -/
theorem redo_stands_iff (hs : d.buffer.text.size < Text.capacity) :
    redo.Stands d ↔ d.buffer.RedoFits := by
  unfold Buffer.RedoFits
  cases hro : d.buffer.options.flags.readOnly with
  | true => exact ⟨fun _ => .inl rfl, fun _ => .of_resume (resume_redo_readOnly hro) rfl rfl⟩
  | false =>
    rcases hp : d.buffer.history.popUndone with ⟨_ | group, h⟩
    · exact ⟨fun _ => .inr fun group hg => (by cases hg),
        fun _ => .of_resume (resume_redo_none hro hp) rfl rfl⟩
    · have hgroup : (group.forM fun m => reapply (id m)).Stands (d.withHistory h) ↔
          ∃ t, RecordedEdit.Replays (group.map id) d.buffer.text t := stands_iff_replays hs
      rw [List.map_id] at hgroup
      rw [stands_iff_of_resume (resume_redo_group hro hp)]
      refine hgroup.trans ?_
      simp

end EditM

/-! ## Unrecorded edits that were taken back -/

/-- The command reads the history, or adds to it. -/
def Command.usesHistory (b : Buffer) : Command → Bool
  | .insert .. | .erase .. | .replace .. => !b.options.flags.noUndo
  | .undo | .redo => true
  | .commitGroup | .setFlags _ => false

/-- Whenever a command of the script uses the history, the text is the one that the last such
command left, which at first is `seen`. -/
def Draft.Undisturbed : Draft → Text → List Command → Prop
  | _, _, [] => True
  | d, seen, command :: rest =>
    (command.usesHistory d.buffer = true → d.buffer.text = seen) ∧ ∀ d', d.perform command = .ok d' →
      Undisturbed d' (if command.usesHistory d.buffer then d'.buffer.text else seen) rest

namespace History

variable {h : History} {s t : Text}

/-- Recorded edits that lead to a text leave a history that fits it. -/
theorem Fits.records {ms : List RecordedEdit} (hf : h.Fits s) (hl : RecordedEdit.Lead ms s t) :
    (ms.foldl History.record h).Fits t := by
  induction ms generalizing h s with
  | nil => exact (show s = t from hl) ▸ hf
  | cons m ms ih =>
    obtain ⟨u, hu, hub, hl⟩ := hl
    exact ih (hf.record hu hub) hl

end History

namespace Buffer

variable {b : Buffer}

theorem undoFits_of_fits (hs : b.text.size < Text.capacity) (hf : b.history.Fits b.text) :
    b.UndoFits := by
  refine .inr fun group hg => ?_
  rcases hf.popDone hs with hp | ⟨group', h, s, hp, hsb, hl, -⟩
  · rw [hp] at hg
    cases hg
  · rw [hp] at hg
    cases hg
    exact ⟨s, (hl.reverse hsb).replays⟩

theorem redoFits_of_fits (hs : b.text.size < Text.capacity) (hf : b.history.Fits b.text) :
    b.RedoFits := by
  refine .inr fun group hg => ?_
  rcases hf.popUndone hs with hp | ⟨group', h, s, hp, hl, -⟩
  · rw [hp] at hg
    cases hg
  · rw [hp] at hg
    cases hg
    exact ⟨s, hl.replays⟩

end Buffer

namespace EditM

variable {d : Draft}

/-- An undo where the history fits the text. -/
theorem exists_undo_of_fits (hs : d.buffer.text.size < Text.capacity)
    (hf : d.buffer.history.Fits d.buffer.text) :
    ∃ a d', undo.resume d = (.ok a, d') ∧ d'.buffer.history.Fits d'.buffer.text := by
  cases hro : d.buffer.options.flags.readOnly with
  | true => exact ⟨none, d, resume_undo_readOnly hro, hf⟩
  | false =>
    rcases hf.popDone hs with hp | ⟨group, h, s, hp, hsb, hl, hf'⟩
    · exact ⟨none, _, resume_undo_none hro hp, hf.commit hs⟩
    · have hback := (hl.reverse hsb).replays
      obtain ⟨d', made, hr, -, -, -, ht, hh⟩ := resume_of_replays (d := d.withHistory h) hback hs
      refine ⟨_, _, resume_undo_some hro hp hr, ?_⟩
      show (d'.buffer.history.pushUndone group).Fits d'.buffer.text
      rw [ht, hh]
      exact hf'

/-- A redo where the history fits the text. -/
theorem exists_redo_of_fits (hs : d.buffer.text.size < Text.capacity)
    (hf : d.buffer.history.Fits d.buffer.text) :
    ∃ a d', redo.resume d = (.ok a, d') ∧ d'.buffer.history.Fits d'.buffer.text := by
  cases hro : d.buffer.options.flags.readOnly with
  | true => exact ⟨none, d, resume_redo_readOnly hro, hf⟩
  | false =>
    rcases hf.popUndone hs with hp | ⟨group, h, s, hp, hl, hf'⟩
    · exact ⟨none, _, resume_redo_none hro hp, hf⟩
    · have hforth : RecordedEdit.Replays (group.map id) (d.withHistory h).buffer.text s := by
        rw [List.map_id]
        exact hl.replays
      obtain ⟨d', made, hr, -, -, -, ht, hh⟩ := resume_of_replays hforth hs
      refine ⟨_, _, resume_redo_some hro hp hr, ?_⟩
      show (d'.buffer.history.pushDone group).Fits d'.buffer.text
      rw [ht, hh]
      exact hf'

end EditM

namespace Draft

variable {origin seen : Text} {d d' : Draft} {command : Command} {script : List Command}

/-- The history keeps fitting the text that it saw last. -/
theorem fits_of_perform (hs : d.buffer.text.size < Text.capacity) (hseen : seen.size < Text.capacity)
    (hf : d.buffer.history.Fits seen)
    (huse : command.usesHistory d.buffer = true → d.buffer.text = seen)
    (h : d.perform command = .ok d') :
    d'.buffer.history.Fits (if command.usesHistory d.buffer then d'.buffer.text else seen) := by
  have hedit (hc : command.IsEdit)
      (hu : command.usesHistory d.buffer = !d.buffer.options.flags.noUndo) :
      d'.buffer.history.Fits (if command.usesHistory d.buffer then d'.buffer.text else seen) := by
    obtain ⟨ms, hedited⟩ := exists_edited_of_perform hs hc h
    have hhistory := hedited.history
    cases hno : d.buffer.options.flags.noUndo with
    | true =>
      rw [hno, if_pos rfl] at hhistory
      rw [hu, hno, hhistory]
      exact hf
    | false =>
      rw [hno] at hhistory hu
      rw [← huse hu] at hf
      rw [hu, if_pos (by rfl), hhistory]
      exact hf.records hedited.lead
  cases command with
  | insert start new => exact hedit trivial rfl
  | erase start stop => exact hedit trivial rfl
  | replace start stop new => exact hedit trivial rfl
  | commitGroup =>
    cases h
    exact hf.commit hseen
  | setFlags flags =>
    cases h
    exact hf
  | undo =>
    rw [← huse rfl] at hf
    obtain ⟨a, d₁, hr, hfits⟩ := EditM.exists_undo_of_fits hs hf
    unfold perform Command.act at h
    rw [EditM.resume_discard, hr] at h
    cases h
    exact hfits
  | redo =>
    rw [← huse rfl] at hf
    obtain ⟨a, d₁, hr, hfits⟩ := EditM.exists_redo_of_fits hs hf
    unfold perform Command.act at h
    rw [EditM.resume_discard, hr] at h
    cases h
    exact hfits

/-- The history fits the text when a run of this kind comes to an undo. -/
theorem fits_of_undisturbed (hs : d.buffer.text.size < Text.capacity)
    (hseen : seen.size < Text.capacity) (hf : d.buffer.history.Fits seen)
    (hu : d.Undisturbed seen (script ++ [.undo])) (h : d.run script = .ok d') :
    d'.buffer.history.Fits d'.buffer.text := by
  induction script generalizing d seen with
  | nil =>
    cases h
    have hsame := hu.1 rfl
    rw [hsame]
    exact hf
  | cons command script ih =>
    unfold run at h
    rw [List.foldlM_cons, Fault.bind_eq_ok] at h
    obtain ⟨d₁, hd₁, h⟩ := h
    have hs₁ := withinCapacity.perform hs hd₁
    have hfits := fits_of_perform hs hseen hf hu.1 hd₁
    refine ih hs₁ ?_ hfits (hu.2 d₁ hd₁) h
    split
    · exact hs₁
    · exact hseen

/-- **Unrecorded edits that were taken back do no harm.** Where the history was only used when the
text was as the history knew it, undo and redo stand. -/
theorem undo_redo_stand_of_undisturbed (id : BufferId) (options : Options)
    (hs : origin.size < Text.capacity)
    (hu : Undisturbed { buffer := Buffer.ofText id origin options } origin (script ++ [.undo]))
    (h : run { buffer := Buffer.ofText id origin options } script = .ok d) :
    EditM.undo.Stands d ∧ EditM.redo.Stands d := by
  have hblank : (Buffer.ofText id origin options).history.Blank := ⟨rfl, rfl, rfl⟩
  have hsize := withinCapacity.run hs h
  have hfits := fits_of_undisturbed hs hs (hblank.fits hs) hu h
  exact ⟨(EditM.undo_stands_iff hsize).2 (Buffer.undoFits_of_fits hsize hfits),
    (EditM.redo_stands_iff hsize).2 (Buffer.redoFits_of_fits hsize hfits)⟩

/-- **Undo and redo across unrecorded edits.** After any run, whatever was recorded or not, an undo
breaks no contract and logs changes that stand exactly where the group it takes back fits the
text, and so does a redo. -/
theorem undo_redo_stand_iff (id : BufferId) (options : Options) (hs : origin.size < Text.capacity)
    (h : run { buffer := Buffer.ofText id origin options } script = .ok d) :
    (EditM.undo.Stands d ↔ d.buffer.UndoFits) ∧ (EditM.redo.Stands d ↔ d.buffer.RedoFits) := by
  have hsize := withinCapacity.run hs h
  exact ⟨EditM.undo_stands_iff hsize, EditM.redo_stands_iff hsize⟩

theorem undo_redo_stand_iff_sample :
    Text.size ['a', 'b'] < Text.capacity ∧
      ∃ d, run { buffer := Buffer.ofText 0 ['a', 'b'] {} }
          [.insert ⟨0, 1⟩ ['x'], .setFlags { noUndo := true }, .insert ⟨0, 3⟩ ['y'], .setFlags {}] = .ok d ∧
        EditM.undo.Stands d ∧ EditM.redo.Stands d := by
  have hsize : Text.size ['a', 'b'] < Text.capacity := by decide
  refine ⟨hsize, _, rfl, ?_⟩
  obtain ⟨hundo, hredo⟩ := undo_redo_stand_iff 0 {} hsize (show run { buffer := Buffer.ofText 0 ['a', 'b'] {} }
    [.insert ⟨0, 1⟩ ['x'], .setFlags { noUndo := true }, .insert ⟨0, 3⟩ ['y'], .setFlags {}] = .ok _ from rfl)
  refine ⟨hundo.2 (.inr fun group hg => ?_), hredo.2 (.inr fun group hg => ?_)⟩
  · -- the unrecorded text lies behind the recorded one, which is still in its place
    cases hg
    exact ⟨_, _, .erase ['a'] ['x'] ['b', 'y'] ['x'] (by decide) (.inl rfl), by decide, rfl⟩
  · cases hg

/-- A removal is recorded, and then the text in front of it replaced by a character that is longer. -/
def splitScript : List Command :=
  [.erase ⟨0, 1⟩ ⟨0, 2⟩, .setFlags { noUndo := true }, .erase ⟨0, 0⟩ ⟨0, 1⟩, .insert ⟨0, 0⟩ ['é'],
    .setFlags {}]

/-- An insertion is recorded, and then its text removed. -/
def emptyScript : List Command :=
  [.insert ⟨0, 0⟩ ['a'], .setFlags { noUndo := true }, .erase ⟨0, 0⟩ ⟨0, 1⟩, .setFlags {}]

/-- All commands are carried out, and then an undo ends inside of a character, or it logs that nothing
was removed. -/
theorem not_undo_stands :
    (∃ d, EditM.resume (splitScript.forM Command.act) { buffer := Buffer.ofText 0 ['a', 'b'] {} } =
        (.ok (), d) ∧
      (EditM.undo.resume d).1 = .error (.fault .splitCharacter) ∧ ¬EditM.undo.Stands d) ∧
    ∃ d d', EditM.resume (emptyScript.forM Command.act) { buffer := Buffer.ofText 0 [] {} } =
        (.ok (), d) ∧
      EditM.undo.resume d = (.ok (some 1), d') ∧
      d'.buffer.log.drop d.buffer.timestamp = [⟨.erase, ⟨0, 0⟩, ⟨0, 0⟩⟩] ∧ ¬EditM.undo.Stands d := by
  refine ⟨⟨_, rfl, rfl, ?_⟩, _, _, rfl, rfl, rfl, ?_⟩
  · rintro ⟨a, d', made, hr, -⟩
    have herror := congrArg Prod.fst hr
    cases herror
  · rintro ⟨a, d', made, hr, hrev, -, hall⟩
    cases hr
    -- there are two revisions from before, and the one that the undo made
    cases made with
    | nil => cases hrev
    | cons r rest =>
      cases hrev
      exact absurd hall.1.1 (by decide)

end Draft

end Caret
