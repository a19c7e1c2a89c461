import Caret.Proofs.Placement
import Caret.Proofs.Tour

/-!
# One text in the place of another

A text gives way to another one in two steps: it is taken out, and the other one is put in where it was.
Either step leaves no trace if there is nothing to take out or to put in.

* `Text.Exchanges`: several texts of a text that gave way to others, and where these are.
* `Draft.Became`: a draft with another text and the changes that led to it.
* `EditM.exists_resume_erase`, `EditM.exists_resume_replace`: the edits between positions of a text.
* `Tracker.StandsIn.exists_feedAll`: a tracker takes both steps in.
* `Script.putsInPlace_replaceWith`, `Script.putsInPlace_eraseText`: what the callbacks do to a selection.
-/

namespace Caret

/-! ## The last character of a piece -/

namespace Text

variable {p x r : Text}

theorem append_dropLast (p r : Text) (hx : x ≠ []) :
    p ++ x ++ r = p ++ x.dropLast ++ (x.getLast hx :: r) := by
  calc p ++ x ++ r = p ++ (x.dropLast ++ [x.getLast hx]) ++ r := by rw [List.dropLast_append_getLast]
    _ = _ := by simp only [List.append_assoc, List.cons_append, List.nil_append]

/-- One character on from the last one of a piece. -/
theorem nextCoord_dropLast (hx : x ≠ []) (hs : (p ++ x ++ r).size < capacity) :
    (p ++ x ++ r).nextCoord (p ++ x.dropLast).extent = .ok (p ++ x).extent := by
  have hend := append_dropLast p [] hx
  rw [append_dropLast p r hx] at hs ⊢
  rw [List.append_nil] at hend
  rw [nextCoord_extent hs, hend]
  rfl

/-- One character back from the end of a piece. -/
theorem previousCoord_dropLast (hx : x ≠ []) (hs : (p ++ x ++ r).size < capacity) :
    (p ++ x ++ r).previousCoord (p ++ x).extent = .ok (p ++ x.dropLast).extent := by
  have hlength := List.length_pos_iff.2 hx
  have hprevious := previousCoord_position hs (i := (p ++ x).length) (by simp)
  have hindex : (p ++ x).length - 1 = (p ++ x.dropLast).length := by
    simp only [List.length_append, List.length_dropLast]
    omega
  rw [position_append, hindex] at hprevious
  rw [hprevious, append_dropLast p r hx, position_append]

end Text

/-! ## Texts that give way to others -/

/-- The text `body` that stood behind `before` gave way to `text`, which stands behind `front`. -/
structure Exchange where
  before : Text
  body : Text
  front : Text
  text : Text
  deriving DecidableEq, Repr, Inhabited

namespace Exchange

/-- Where the text was that gave way. -/
def was (e : Exchange) : Span := ⟨e.before.extent, (e.before ++ e.body).extent⟩

/-- Where the text is that took its place. -/
def is (e : Exchange) : Span := ⟨e.front.extent, (e.front ++ e.text).extent⟩

end Exchange

/-- **Texts exchanged one behind the other.** What follows `a` was `r`, and `r'` now follows `b`. What is
in front of an exchange, behind the one before it, stayed. -/
inductive Text.Exchanges : Text → Text → List Exchange → Text → Text → Prop
  | nil (a b r : Text) : Exchanges a b [] r r
  | cons {a b r r' : Text} {es : List Exchange} (gap body text : Text)
      (h : Exchanges (a ++ gap ++ body) (b ++ gap ++ text) es r r') :
      Exchanges a b (⟨a ++ gap, body, b ++ gap, text⟩ :: es) (gap ++ body ++ r) (gap ++ text ++ r')

/-- The span of the characters that a selection covers. -/
def Selection.span (t : Text) (s : Selection) : Except Fault Span := do
  return ⟨s.low, ← t.nextCoord s.high⟩

theorem Selection.span_eq_ok_iff {t : Text} {s : Selection} {e : Span} :
    s.span t = .ok e ↔ s.low = e.start ∧ t.nextCoord s.high = .ok e.stop := by
  unfold span
  rw [Fault.bind_eq_ok]
  constructor
  · rintro ⟨stop, hstop, h⟩
    cases Except.ok.inj h
    exact ⟨rfl, hstop⟩
  · rintro ⟨hlow, hstop⟩
    exact ⟨e.stop, hstop, by rw [hlow]; rfl⟩

/-! ## Drafts -/

namespace Change

/-- How the log tells of the text `mid` taken out from behind `before`. -/
def removal (before mid : Text) : List Change :=
  if mid = [] then [] else [⟨.erase, before.extent, (before ++ mid).extent⟩]

/-- How the log tells of the text `mid` put in behind `before`. -/
def addition (before mid : Text) : List Change :=
  if mid = [] then [] else [⟨.insert, before.extent, (before ++ mid).extent⟩]

end Change

/-- **A draft with another text.** The changes `more` led to the text `u`, and all else stayed. -/
structure Draft.Became (d : Draft) (u : Text) (more : List Change) (d' : Draft) : Prop where
  text : d'.buffer.text = u
  logged : d'.buffer.log = d.buffer.log ++ more
  options : d'.buffer.options = d.buffer.options
  id : d'.buffer.id = d.buffer.id

namespace Draft.Became

variable {d d₁ d' : Draft} {u u' : Text} {more more' : List Change}

theorem refl (d : Draft) : d.Became d.buffer.text [] d := ⟨rfl, (List.append_nil _).symm, rfl, rfl⟩

theorem trans (h : d.Became u more d₁) (h' : d₁.Became u' more' d') : d.Became u' (more ++ more') d' where
  text := h'.text
  logged := by rw [h'.logged, h.logged, List.append_assoc]
  options := h'.options.trans h.options
  id := h'.id.trans h.id

/-- An edit that was recorded and logged. -/
theorem record_advance (d : Draft) (m : RecordedEdit) (u : Text) (change : Change) :
    d.Became u [change] ((d.record m).advance u change) := by
  obtain ⟨htext, hlog, hoptions, hid⟩ := Draft.record_advance d m u change
  exact ⟨htext, hlog, hoptions, hid⟩

end Draft.Became

namespace EditM

variable {d : Draft} {p m r x : Text}

/-- **A text taken out** between two positions of a writable buffer. -/
theorem exists_resume_erase (ht : d.buffer.text = p ++ m ++ r)
    (hw : d.buffer.options.flags.readOnly = false) (hs : (p ++ m ++ r).size < Text.capacity) :
    ∃ d', (erase p.extent (p ++ m).extent).resume d = (.ok p.extent, d') ∧
      d.Became (p ++ r) (Change.removal p m) d' := by
  have hstart : d.buffer.text.Valid p.extent := by
    rw [ht, List.append_assoc]
    exact Text.valid_extent_append p (m ++ r)
  have hstop : d.buffer.text.Valid (p ++ m).extent := ht ▸ Text.valid_extent_append (p ++ m) r
  rw [resume_erase_eq, Buffer.refusal_eq_none_iff.2 ⟨hw, hstart, hstop, Text.extent_le_append p m⟩]
  unfold Change.removal
  dsimp only
  by_cases hm : m = []
  · subst hm
    rw [if_pos (by rw [List.append_nil]), if_pos rfl]
    rw [List.append_nil] at ht
    exact ⟨d, rfl, ht ▸ Draft.Became.refl d⟩
  · rw [if_neg (Text.extent_lt_append p hm).ne, if_neg hm, resume_eraseBetween ht hs]
    exact ⟨_, rfl, Draft.Became.record_advance d _ _ _⟩

/-- **A text put in** at a position of a writable buffer. -/
theorem exists_resume_insert (ht : d.buffer.text = p ++ r) (hw : d.buffer.options.flags.readOnly = false)
    (hs : (p ++ x ++ r).size < Text.capacity) :
    ∃ d', (insert p.extent x).resume d = (.ok ⟨p.extent, (p ++ x).extent⟩, d') ∧
      d.Became (p ++ x ++ r) (Change.addition p x) d' := by
  unfold Change.addition
  by_cases hx : x = []
  · subst hx
    rw [List.append_nil, if_pos rfl, ← ht]
    exact ⟨d, resume_insert_nil hw (ht ▸ Text.valid_extent_append p r), Draft.Became.refl d⟩
  · rw [if_neg hx]
    exact ⟨_, resume_insert ht hw hs hx, Draft.Became.record_advance d _ _ _⟩

/-- **A text in the place of another one.** -/
theorem exists_resume_replace (ht : d.buffer.text = p ++ m ++ r)
    (hw : d.buffer.options.flags.readOnly = false) (hs : (p ++ m ++ r).size < Text.capacity)
    (hs' : (p ++ x ++ r).size < Text.capacity) :
    ∃ d', (replace p.extent (p ++ m).extent x).resume d = (.ok ⟨p.extent, (p ++ x).extent⟩, d') ∧
      d.Became (p ++ x ++ r) (Change.removal p m ++ Change.addition p x) d' := by
  obtain ⟨d₁, herase, hd₁⟩ := exists_resume_erase ht hw hs
  obtain ⟨d', hinsert, hd'⟩ := exists_resume_insert hd₁.text (by rw [hd₁.options]; exact hw) hs'
  refine ⟨d', ?_, hd₁.trans hd'⟩
  unfold replace
  rw [resume_bind_ok herase, hinsert]

end EditM

/-! ## Trackers -/

namespace Tracker.StandsIn

variable {tracker : Tracker} {t u m x : Text}

theorem exists_feed_removal (h : tracker.StandsIn t u) (ht : (t ++ m).size < Text.capacity)
    (hu : u.size < Text.capacity) : ∃ tracker', tracker.feedAll (Change.removal u m) = .ok tracker' ∧
      tracker'.StandsIn (t ++ m) u := by
  unfold Change.removal
  by_cases hm : m = []
  · subst hm
    rw [if_pos rfl, List.append_nil]
    exact ⟨tracker, rfl, h⟩
  · obtain ⟨a, b, q, rfl, rfl, rfl⟩ := h
    rw [List.append_assoc] at ht
    obtain ⟨ha, hq⟩ := Text.size_append_lt ht
    have hfeed := feed_erase ha (Text.size_append_lt hu).1 hq
    rw [if_neg hm]
    exact ⟨_, feedAll_single hfeed, a ++ q ++ m, b ++ q, [], by simp, by simp, rfl⟩

theorem exists_feed_addition (h : tracker.StandsIn t u) (ht : t.size < Text.capacity)
    (hu : u.size < Text.capacity) : ∃ tracker', tracker.feedAll (Change.addition u x) = .ok tracker' ∧
      tracker'.StandsIn t (u ++ x) := by
  unfold Change.addition
  by_cases hx : x = []
  · subst hx
    rw [if_pos rfl, List.append_nil]
    exact ⟨tracker, rfl, h⟩
  · obtain ⟨a, b, q, rfl, rfl, rfl⟩ := h
    obtain ⟨ha, hq⟩ := Text.size_append_lt ht
    have hfeed := feed_insert (x := x) ha (Text.size_append_lt hu).1 hq
    rw [if_neg hx]
    exact ⟨_, feedAll_single hfeed, a ++ q, b ++ q ++ x, [], by simp, by simp, rfl⟩

/-- **A text in the place of another one**: the tracker comes to stand behind both. -/
theorem exists_feedAll (h : tracker.StandsIn t u) (ht : (t ++ m).size < Text.capacity)
    (hu : u.size < Text.capacity) :
    ∃ tracker', tracker.feedAll (Change.removal u m ++ Change.addition u x) = .ok tracker' ∧
      tracker'.StandsIn (t ++ m) (u ++ x) := by
  obtain ⟨tracker₁, hfeed, h₁⟩ := h.exists_feed_removal ht hu
  obtain ⟨tracker', hfeed', h'⟩ := h₁.exists_feed_addition (x := x) ht hu
  exact ⟨tracker', (feedAll_append hfeed).trans hfeed', h'⟩

end Tracker.StandsIn

/-! ## Callbacks -/

/-- The point that is left of a selection whose text was taken out. -/
def Selection.collapsed (s : Selection) (c _ : Coord) : Selection :=
  { Selection.point c with captures := s.captures }

namespace Script

/-- **A callback that puts `x` in the place of its selection**, and leaves there what `left` makes of the
selection and the first and the last coordinate of the text. Without a text these are the same. -/
def PutsInPlace (x : Text) (left : Selection → Coord → Coord → Selection) (script : Script) : Prop :=
  ∀ (v : Visit) (p m r : Text), v.draft.buffer.text = p ++ m ++ r →
    v.draft.buffer.options.flags.readOnly = false → (p ++ m ++ r).size < Text.capacity →
    (p ++ x ++ r).size < Text.capacity → v.selection.low = p.extent →
    (p ++ m ++ r).nextCoord v.selection.high = .ok (p ++ m).extent →
    ∃ d', script.run v = (.ok (), { v with
        draft := d', selection := left v.selection p.extent (p ++ x.dropLast).extent }) ∧
      v.draft.Became (p ++ x ++ r) (Change.removal p m ++ Change.addition p x) d'

/-- **Replacing the text of a selection** by one that is not empty selects that one. -/
theorem putsInPlace_replaceWith {x : Text} (hx : x ≠ []) :
    (replaceWith x).PutsInPlace x Selection.withEnds := by
  intro v p m r ht hw hs hs' hlow hnext
  obtain ⟨d', hreplace, hbecame⟩ := EditM.exists_resume_replace ht hw hs hs'
  unfold EditM.resume at hreplace
  refine ⟨d', ?_, hbecame⟩
  have hne : p.extent ≠ (p ++ x).extent := (Text.extent_lt_append p hx).ne
  have hstretch : v.selection.stretch p.extent (p ++ x.dropLast).extent =
      .ok (v.selection.withEnds p.extent (p ++ x.dropLast).extent) := by
    unfold Selection.stretch
    rw [Fault.unless_of (Text.extent_le_append p x.dropLast), Fault.ok_bind]
    rfl
  rw [← ht] at hnext
  unfold replaceWith
  simp only [run, hnext, hlow, given, Visit.edit, hreplace, if_neg hne, hbecame.text,
    Text.previousCoord_dropLast hx hs', hstretch]

/-- **Erasing the text of a selection** leaves a point where it was. -/
theorem putsInPlace_eraseText : eraseText.PutsInPlace [] Selection.collapsed := by
  intro v p m r ht hw hs hs' hlow hnext
  obtain ⟨d', herase, hbecame⟩ := EditM.exists_resume_erase ht hw hs
  unfold EditM.resume at herase
  have hnone : Change.addition p [] = [] := if_pos rfl
  rw [hnone, List.append_nil, List.append_nil]
  refine ⟨d', ?_, hbecame⟩
  rw [← ht] at hnext
  unfold eraseText
  simp only [run, hnext, hlow, given, Visit.edit, herase, Selection.collapsed]

end Script

end Caret
