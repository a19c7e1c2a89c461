import Caret.Proofs.MultiInsert

/-!
# Texts at the beginnings and the ends of lines

A text that goes in at the beginning or at the end of a line goes in outside of the selection that it
belongs to, and other selections may be in between. The selections that a tour has been through with do
not move on, and those that it skips over are moved to where it stands.

* `Placement.Clear`: two selections whose texts keep out of each other's way.
* `SelectionList.Tour.Goes`: what a tour does that puts in one text after the other.
* `SelectionList.Takes.insert_lines_iff`: all texts go in at once, and all selections move across them,
  just when all selections are clear of those before them.
-/

namespace Caret

/-- **Two selections whose texts keep out of each other's way** at the beginnings or at the ends of lines:
the second begins on a later line than the first ends, or else at the end of that line if the texts go in
there. -/
def Placement.Clear (placement : Placement) (t : Text) (a b : Selection) : Prop :=
  match placement with
  | .lineBegin => a.high.line < b.low.line
  | .lineEnd => (⟨a.high.line, t.lineLength a.high.line⟩ : Coord) ≤ b.low
  | .before | .atCursor | .behind => True

instance (placement : Placement) (t : Text) (a b : Selection) : Decidable (placement.Clear t a b) :=
  match placement with
  | .lineBegin => inferInstanceAs (Decidable (a.high.line < b.low.line))
  | .lineEnd => inferInstanceAs (Decidable ((⟨a.high.line, t.lineLength a.high.line⟩ : Coord) ≤ b.low))
  | .before | .atCursor | .behind => inferInstanceAs (Decidable True)

namespace Stop

variable {placement : Placement} {t : Text} {u v : Stop}

/-- **Texts at the ends of lines** go in one behind the other if their selections are clear. -/
theorem before_of_clear (hplacement : placement = .lineBegin ∨ placement = .lineEnd)
    (hu : u.Fits placement t) (hv : v.Fits placement t) (hlt : u.selection.high < v.selection.low)
    (hclear : placement.Clear t u.selection v.selection) : u.Before v := by
  rcases hplacement with rfl | rfl
  · have hpoint : (⟨u.selection.low.line, 0⟩ : Coord) = u.point := Except.ok.inj hu.place
    have hpoint' : (⟨v.selection.low.line, 0⟩ : Coord) = v.point := Except.ok.inj hv.place
    have hlines : u.selection.high.line < v.selection.low.line := hclear
    have hhigh : u.selection.high < v.point := hpoint' ▸ .inl hlines
    have hle : u.point ≤ u.selection.high :=
      (hpoint ▸ u.selection.low.lineStart_le).trans u.selection.low_le_high
    exact ⟨hle.trans hlt.le, hle.trans hhigh.le, hhigh⟩
  · have hpoint : (⟨u.selection.high.line, t.lineLength u.selection.high.line⟩ : Coord) = u.point :=
      Except.ok.inj hu.place
    have hpoint' : (⟨v.selection.high.line, t.lineLength v.selection.high.line⟩ : Coord) = v.point :=
      Except.ok.inj hv.place
    have hle : u.point ≤ v.selection.low := hpoint ▸ hclear
    have hlow : v.selection.low ≤ v.point :=
      v.selection.low_le_high.trans (hpoint' ▸ .inr ⟨rfl, hv.valid.high.2.1⟩)
    exact ⟨hle, hle.trans hlow, lt_of_lt_of_le hlt hlow⟩

end Stop

namespace SelectionList

namespace Tour

variable {T T₁ T' : Tour} {more more' : List Change} {callback : ℕ → Script} {placement : Placement}
  {s : Selection} {x : Text}

/-- **What a tour does that puts in one text after the other.** From `T` to `T'` it made the changes
`more`, none of them in front of where it stood, and left alone what it was through with. -/
structure Goes (T T' : Tour) (more : List Change) : Prop where
  timestamp : T'.timestamp = T'.draft.buffer.timestamp
  logged : T'.draft.buffer.log = T.draft.buffer.log ++ more
  trail : Trail T.draft.buffer.text more T'.draft.buffer.text
  ahead : ∀ change ∈ more, change.kind = .insert ∧ T.tracker.current ≤ change.start
  current_le : T.tracker.current ≤ T'.tracker.current
  finished : T.finished <+: T'.finished

theorem Goes.trans (h : T.Goes T₁ more) (h' : T₁.Goes T' more') : T.Goes T' (more ++ more') where
  timestamp := h'.timestamp
  logged := by rw [h'.logged, h.logged, List.append_assoc]
  trail := Trail.append_iff.2 ⟨_, h.trail, h'.trail⟩
  ahead := List.forall_mem_append.2 ⟨h.ahead, fun change hchange =>
    ⟨(h'.ahead change hchange).1, h.current_le.trans (h'.ahead change hchange).2⟩⟩
  current_le := h.current_le.trans h'.current_le
  finished := h.finished.trans h'.finished

/-- A refusal stays. -/
theorem refusal_of_visit (h : T.visit callback s = (.ok (), T')) (hrefusal : T'.refusal = none) :
    T.refusal = none := by
  obtain ⟨s', -, ⟨-, rfl⟩ | ⟨hnone, -⟩⟩ := visit_cases h
  · exact hrefusal
  · exact hnone

theorem refusal_of_visitAll {items : List Selection} (h : visitAll callback items T = (.ok (), T'))
    (hrefusal : T'.refusal = none) : T.refusal = none := by
  induction items generalizing T with
  | nil =>
    cases h
    exact hrefusal
  | cons s rest ih =>
    unfold visitAll at h
    cases hvisit : T.visit callback s with
    | mk outcome T₁ =>
      rw [hvisit] at h
      cases outcome with
      | error f => cases h
      | ok _ => exact refusal_of_visit hvisit (ih h)

/-- **A visit that put a text in.** The selection `s` arrived as `s'`, and its ends moved across the
text. -/
structure Puts (T T' : Tour) (placement : Placement) (s s' : Selection) (change : Change)
    (anchor cursor : Coord) : Prop where
  arrive : T.arrive s = .ok s'
  goes : T.Goes T' [change]
  place : placement.resolve T.draft.buffer.text s' = .ok change.start
  move_anchor : change.move s'.anchor = .ok anchor
  move_cursor : change.move s'.cursor = .ok cursor
  finished : T'.finished = T.finished ++ [{ s' with
    anchor := T'.draft.buffer.text.clamp anchor, cursor := T'.draft.buffer.text.clamp cursor }]

/-- **One visit** that succeeds. -/
theorem exists_of_visit (h : T.visit callback s = (.ok (), T')) (hrefusal : T'.refusal = none)
    (hcallback : callback T.finished.length = .insertNear placement x) (hx : x ≠ [])
    (htime : T.timestamp = T.draft.buffer.timestamp) (hsize : T.draft.buffer.text.size < Text.capacity) :
    ∃ s' change anchor cursor, T.Puts T' placement s s' change anchor cursor := by
  obtain ⟨s', harrive, ⟨hsome, rfl⟩ | ⟨-, outcome, v, tracker, refusal, hrun, -, hok, htracker, rfl⟩⟩ :=
    visit_cases h
  · exact absurd hrefusal hsome
  · rw [hcallback, hok hrefusal] at hrun
    obtain ⟨change, anchor, cursor, htakes, hkind, hsmall, hlog, hplace, hanchor, hcursor, hselection⟩ :=
      Script.run_insertNear_ok hx hsize hrun
    rw [htime, Buffer.timestamp, Tracker.catchUp_concat hlog] at htracker
    refine ⟨s', change, anchor, cursor, harrive, ⟨rfl, hlog, ⟨_, htakes, hsmall, rfl⟩, ?_,
      Tracker.current_le_of_feed htracker htakes.start_lt_stop.le, List.prefix_append _ _⟩, hplace, hanchor,
      hcursor, ?_⟩
    · intro later hlater
      rw [List.mem_singleton.1 hlater]
      exact ⟨hkind, Tracker.le_start_of_feed htracker⟩
    · dsimp only
      rw [hselection]

theorem Goes.refl (htime : T.timestamp = T.draft.buffer.timestamp) : T.Goes T [] :=
  ⟨htime, (List.append_nil _).symm, rfl, by simp, le_rfl, List.prefix_rfl⟩

/-- **All visits** that succeed. -/
theorem exists_goes {texts : ℕ → Text} {items : List Selection} (htexts : ∀ i, texts i ≠ [])
    (h : visitAll (fun i => .insertNear placement (texts i)) items T = (.ok (), T'))
    (hrefusal : T'.refusal = none) (htime : T.timestamp = T.draft.buffer.timestamp)
    (hsize : T.draft.buffer.text.size < Text.capacity) : ∃ more, T.Goes T' more := by
  induction items generalizing T with
  | nil =>
    cases h
    exact ⟨[], .refl htime⟩
  | cons s rest ih =>
    unfold visitAll at h
    cases hvisit : T.visit (fun i => .insertNear placement (texts i)) s with
    | mk outcome T₁ =>
      rw [hvisit] at h
      cases outcome with
      | error f => cases h
      | ok _ =>
        obtain ⟨_, change, _, _, hputs⟩ :=
          exists_of_visit hvisit (refusal_of_visitAll h hrefusal) rfl (htexts _) htime hsize
        obtain ⟨more, hgoes⟩ := ih h hputs.goes.timestamp (hputs.goes.trail.size_lt hsize)
        exact ⟨_, hputs.goes.trans hgoes⟩

/-! ## Selections in each other's way -/

namespace Stands

variable {t a b q : Text} {old log : List Change} {pieces : List Insertion} {change : Change}
  {u v s₁ s' : Selection} {c c' c₁ : Coord}

/-- **A selection on the line at whose beginning the next text goes in** is left behind. -/
theorem line_lt_of_moves (h : T.Stands t old pieces log a b q) (ht : t.size < Text.capacity)
    (hsize : T.draft.buffer.text.size < Text.capacity) (hu : u.ValidIn t) (hv : v.ValidIn t)
    (hlt : u.high < v.low) (hpoints : ∀ piece ∈ pieces, piece.point ≤ v.low)
    (hends : u.high.line = v.low.line → ∀ piece ∈ pieces, piece.point ≤ u.high)
    (harrive : T.arrive v = .ok s') (hgoes : T.Goes T' (change :: more))
    (hplace : Placement.lineBegin.resolve T.draft.buffer.text s' = .ok change.start)
    (hbefore : u.MovesTo log s₁) (hafter : u.MovesTo (log ++ change :: more) s₁) :
    u.high.line < v.low.line := by
  by_contra hline
  have hsame : u.high.line = v.low.line := by
    rcases hlt with hlt | ⟨heq, -⟩
    · exact absurd hlt hline
    · exact heq
  obtain ⟨anchor, cursor, harrive', -, -, hcarried⟩ := h.exists_arrive ht hsize hv hpoints
  cases harrive.symm.trans harrive'
  obtain ⟨m₂, r₂, -, hlow, hlow'⟩ := hcarried.low_high.1
  obtain ⟨m₁, r₁, hq, hhigh⟩ := Text.exists_behind (h.origin ▸ hu.high) (h.border_le (hends hsame))
  -- the end of `u` stays where it is, also across the next text
  obtain ⟨e, he, he'⟩ := hbefore.high hafter
  have hahead := h.ahead m₁ r₁ hq
  rw [← hhigh, he] at hahead
  cases hahead
  rw [Coord.across_append he] at he'
  have hvalid : T.draft.buffer.text.Valid (b ++ m₁).extent := by
    rw [h.text, hq, ← List.append_assoc]
    exact Text.valid_extent_append (b ++ m₁) r₁
  obtain ⟨w, htakes, hw, htrail⟩ := hgoes.trail
  obtain ⟨⟨hkind, -⟩, hmore⟩ := List.forall_mem_cons.1 hgoes.ahead
  obtain ⟨e₁, hmove, he₁⟩ := htakes.exists_valid hsize hw hvalid
  rw [Coord.across_cons hmove] at he'
  have hle : e₁ ≤ (b ++ m₁).extent :=
    htrail.le_across (fun change hchange => (hmore change hchange).1) hw he₁ he'
  -- but that text goes in on its line, in front of it
  have hstart : (⟨_, 0⟩ : Coord) = change.start := Except.ok.inj hplace
  have hlines : (b ++ m₁).extent.line = change.start.line := by
    rw [hhigh, hlow, Text.extent_append, Text.extent_append, Coord.add_line, Coord.add_line] at hsame
    rw [← hstart, hlow', Text.extent_append, Text.extent_append, Coord.add_line, Coord.add_line]
    omega
  have hfront : change.start ≤ (b ++ m₁).extent :=
    .inr ⟨hlines.symm, by rw [← hstart]; exact Nat.zero_le _⟩
  exact absurd ((htakes.le_move hkind hw hvalid hmove).2 hfront hlines) (not_lt.2 hle)

/-- **A selection that the last text went in behind of** is moved to the end of that text. -/
theorem extent_le_of_moves (h : T.Stands t old pieces log a b q) (ht : t.size < Text.capacity)
    (hsize : T.draft.buffer.text.size < Text.capacity) (hc : t.Valid c)
    (hland : T.tracker.landing c = .ok c') (hgoes : T.Goes T₁ [change]) (hgoes' : T₁.Goes T' more)
    (hmove : change.move c' = .ok c₁)
    (hafter : c.across (log ++ change :: more) = .ok (T₁.draft.buffer.text.clamp c₁)) :
    a.extent ≤ c := by
  by_contra hlt
  rw [not_le] at hlt
  have hcurrent : T.tracker.current = b.extent := by rw [h.tracker]
  unfold Tracker.landing at hland
  rw [h.tracker, if_pos hlt] at hland
  cases hland
  have hvalid : T.draft.buffer.text.Valid b.extent := h.text ▸ Text.valid_extent_append b q
  obtain ⟨w, htakes, hw, rfl⟩ := hgoes.trail
  have hahead : ∀ later ∈ change :: more, later.kind = .insert ∧ T.tracker.current ≤ later.start :=
    (hgoes.trans hgoes').ahead
  obtain ⟨e₁, hmove', he₁⟩ := htakes.exists_valid hsize hw hvalid
  cases hmove'.symm.trans hmove
  have hle := (htakes.le_move (hahead change List.mem_cons_self).1 hw hvalid hmove).1
  -- the changes leave the position in front of where the tour stands
  have hborder : t.Valid a.extent := by
    rw [h.origin]
    exact Text.valid_extent_append a q
  have hborder' := h.ahead [] q rfl
  rw [List.append_nil, List.append_nil] at hborder'
  obtain ⟨e, he, -⟩ := h.trail.exists_valid ht hc
  have hfront : e < b.extent := h.trail.across_lt h.inserts hc hborder hlt he hborder'
  rw [Text.clamp_of_valid he₁, Coord.across_append he, Coord.across_of_lt fun change hchange =>
    ⟨(hahead change hchange).1, lt_of_lt_of_le hfront (hcurrent ▸ (hahead change hchange).2)⟩] at hafter
  cases hafter
  exact absurd hfront (not_lt.2 hle)

end Stands

/-! ## All selections -/

section

variable {t a b q : Text} {old log log' : List Change} {done rest : List Stop} {v : Stop}
  {texts : ℕ → Text}

/-- **The next selection** is clear of those before it if all selections end up where the changes move
them. -/
theorem clear_of_puts (hplacement : placement = .lineBegin ∨ placement = .lineEnd)
    (h : T.Stands t old (done.map (·.toInsertion)) log a b q) (hdone : Settles done log T.finished)
    (ht : t.size < Text.capacity) (hsize : T.draft.buffer.text.size < Text.capacity)
    (hfits : ∀ u ∈ done, u.Fits placement t) (hv : v.Fits placement t)
    (hapart : ∀ u ∈ done, u.selection.high < v.selection.low) (htext : ∀ u ∈ done, u.text ≠ [])
    {s' : Selection} {change : Change} {anchor cursor : Coord}
    (hputs : T.Puts T₁ placement v.selection s' change anchor cursor) (hgoes : T₁.Goes T' more)
    (hmoved : ∀ (i : ℕ) (u : Stop) (s₁ : Selection), (done ++ [v])[i]? = some u →
      T'.finished[i]? = some s₁ → u.selection.MovesTo (log ++ change :: more) s₁) :
    ∀ u ∈ done, placement.Clear t u.selection v.selection := by
  intro u hu
  have hall : T.Goes T' (change :: more) := hputs.goes.trans hgoes
  rcases hplacement with rfl | rfl
  · -- `u` is where it was when `v` was visited
    have hpoint : ∀ w ∈ done, (⟨w.selection.low.line, 0⟩ : Coord) = w.point :=
      fun w hw => Except.ok.inj (hfits w hw).place
    have hlow : ∀ w ∈ done, w.selection.low < v.selection.low :=
      fun w hw => lt_of_le_of_lt w.selection.low_le_high (hapart w hw)
    obtain ⟨i, hi⟩ := List.getElem?_of_mem hu
    obtain ⟨hlt, -⟩ := List.getElem?_eq_some_iff.1 hi
    have hs₁ := List.getElem?_eq_getElem (hdone.length ▸ hlt)
    obtain ⟨later, hfinished⟩ := hall.finished
    refine h.line_lt_of_moves ht hsize (hfits u hu).valid hv.valid (hapart u hu) ?_ ?_ hputs.arrive hall
      hputs.place (hdone.all hi hs₁) (hmoved i u _ ?_ ?_)
    · refine List.forall_mem_map.2 fun w hw => ?_
      rw [← hpoint w hw]
      exact w.selection.low.lineStart_le.trans (hlow w hw).le
    · intro hline
      refine List.forall_mem_map.2 fun w hw => ?_
      rw [← hpoint w hw]
      rcases hlow w hw with hless | ⟨hsame, -⟩
      · exact .inl (hline ▸ hless)
      · exact .inr ⟨hsame.trans hline.symm, Nat.zero_le _⟩
    · rw [List.getElem?_append_left hlt, hi]
    · rw [← hfinished, List.getElem?_append_left (hdone.length ▸ hlt), hs₁]
  · -- `v` stays behind the text for `u`
    have hpoint : (⟨_, _⟩ : Coord) = u.point := Except.ok.inj (hfits u hu).place
    have hreached := h.reached u.toInsertion (List.mem_map_of_mem hu) (htext u hu)
    have hends := landing_of_arrive hputs.arrive
    obtain ⟨later, hfinished⟩ := hgoes.finished
    have hfinal : T'.finished[done.length]? = some { s' with
        anchor := T₁.draft.buffer.text.clamp anchor, cursor := T₁.draft.buffer.text.clamp cursor } := by
      rw [← hfinished, hputs.finished, List.append_assoc, ← hdone.length,
        List.getElem?_append_right le_rfl, Nat.sub_self]
      rfl
    obtain ⟨anchor', cursor', hanchor, hcursor, hsame⟩ :=
      hmoved done.length v _ List.getElem?_concat_length hfinal
    have hanchor' := congrArg Selection.anchor hsame
    have hcursor' := congrArg Selection.cursor hsame
    dsimp only at hanchor' hcursor'
    subst hanchor' hcursor'
    have hborder : a.extent ≤ v.selection.low := le_min
      (h.extent_le_of_moves ht hsize hv.valid.1 hends.1 hputs.goes hgoes hputs.move_anchor hanchor)
      (h.extent_le_of_moves ht hsize hv.valid.2 hends.2 hputs.goes hgoes hputs.move_cursor hcursor)
    show (⟨u.selection.high.line, t.lineLength u.selection.high.line⟩ : Coord) ≤ v.selection.low
    rw [hpoint]
    exact hreached.trans hborder

/-- **All selections** are clear of those before them if they all end up where the changes move them. -/
theorem pairwise_clear (done : List Stop) (hplacement : placement = .lineBegin ∨ placement = .lineEnd)
    (htexts : ∀ i, texts i ≠ [])
    (h : T.Stands t old (done.map (·.toInsertion)) log a b q) (hdone : Settles done log T.finished)
    (ht : t.size < Text.capacity) (hfits : ∀ u ∈ done ++ rest, u.Fits placement t)
    (hapart : (done ++ rest).Pairwise fun u v => u.selection.high < v.selection.low)
    (htext : ∀ i u, (done ++ rest)[i]? = some u → u.text = texts i)
    (hsize : T.draft.buffer.text.size + (rest.map (·.text.size)).sum < Text.capacity)
    (hclear : done.Pairwise fun u v => placement.Clear t u.selection v.selection)
    (hvisits : visitAll (fun i => .insertNear placement (texts i)) (rest.map (·.selection)) T = (.ok (), T'))
    (hrefusal : T'.refusal = none) (hlogged : T'.draft.buffer.log = old ++ log')
    (hmoved : ∀ (i : ℕ) (u : Stop) (s₁ : Selection), (done ++ rest)[i]? = some u →
      T'.finished[i]? = some s₁ → u.selection.MovesTo log' s₁) :
    (done ++ rest).Pairwise fun u v => placement.Clear t u.selection v.selection := by
  induction rest generalizing T done log a b q with
  | nil =>
    rw [List.append_nil]
    exact hclear
  | cons v rest ih =>
    rw [List.map_cons, List.sum_cons] at hsize
    have hassoc : done ++ v :: rest = done ++ [v] ++ rest := by rw [List.append_assoc]; rfl
    rw [hassoc] at hfits hapart htext hmoved ⊢
    rw [List.map_cons, visitAll] at hvisits
    cases hvisit : T.visit (fun i => .insertNear placement (texts i)) v.selection with
    | mk outcome T₁ =>
      rw [hvisit] at hvisits
      cases outcome with
      | error f => cases hvisits
      | ok _ =>
        have hsmall : T.draft.buffer.text.size < Text.capacity := by omega
        obtain ⟨s', change, anchor, cursor, hputs⟩ :=
          exists_of_visit hvisit (refusal_of_visitAll hvisits hrefusal) rfl (htexts _) h.timestamp hsmall
        obtain ⟨more, hgoes⟩ :=
          exists_goes htexts hvisits hrefusal hputs.goes.timestamp (hputs.goes.trail.size_lt hsmall)
        have hlog : log' = log ++ change :: more := by
          have hall := (hputs.goes.trans hgoes).logged
          rw [h.logged, hlogged, List.append_assoc] at hall
          exact List.append_cancel_left hall
        subst hlog
        have hmem : ∀ u ∈ done, u ∈ done ++ [v] := fun u hu => List.mem_append_left _ hu
        have hv : v ∈ done ++ [v] := List.mem_append_right _ List.mem_cons_self
        have hfirst : ∀ {i : ℕ} {u : Stop}, (done ++ [v])[i]? = some u → (done ++ [v] ++ rest)[i]? = some u :=
          fun {i u} hu => by
            obtain ⟨hi, -⟩ := List.getElem?_eq_some_iff.1 hu
            rw [List.getElem?_append_left hi, hu]
        have hbehind : ∀ u ∈ done, u.selection.high < v.selection.low := fun u hu =>
          (List.pairwise_append.1 (List.pairwise_append.1 hapart).1).2.2 u hu v List.mem_cons_self
        have hfits' : ∀ u ∈ done ++ [v], u.Fits placement t := fun u hu => hfits u (List.mem_append_left _ hu)
        have hclear' := clear_of_puts hplacement h hdone ht hsmall (fun u hu => hfits' u (hmem u hu))
          (hfits' v hv) hbehind
          (fun u hu => by
            obtain ⟨i, hi⟩ := List.getElem?_of_mem (hmem u hu)
            exact htext i u (hfirst hi) ▸ htexts i)
          hputs hgoes fun i u s₁ hu => hmoved i u s₁ (hfirst hu)
        -- so the text for `v` goes in behind all others, and the tour goes on
        obtain ⟨T₂, log₁, a₁, b₁, q₁, hvisit', h₁, hdone₁, hsize₁⟩ :=
          exists_step (fun i => .insertNear placement (texts i)) h hdone ht
            (fun u hu => hfits' u (hmem u hu)) (hfits' v hv)
            (fun u hu => Stop.before_of_clear hplacement (hfits' u (hmem u hu)) (hfits' v hv)
              (hbehind u hu) (hclear' u hu))
            (by rw [htext done.length v (hfirst List.getElem?_concat_length)])
            (by omega)
        cases hvisit.symm.trans hvisit'
        refine ih _ h₁ hdone₁ hfits hapart htext (by omega) ?_ hvisits hmoved
        exact List.pairwise_append.2 ⟨hclear, List.pairwise_singleton _ _, fun u hu w hw =>
          List.mem_singleton.1 hw ▸ hclear' u hu⟩

end

end Tour

/-- Lists that are related entry by entry. -/
theorem rel_of_forall₂ {α β : Type} {R : α → β → Prop} {l : List α} {l' : List β}
    (h : List.Forall₂ R l l') {i : ℕ} {x : α} {y : β} (hx : l[i]? = some x) (hy : l'[i]? = some y) :
    R x y := by
  obtain ⟨hi, rfl⟩ := List.getElem?_eq_some_iff.1 hx
  obtain ⟨hi', rfl⟩ := List.getElem?_eq_some_iff.1 hy
  exact h.get hi hi'

variable {l : SelectionList} {texts : List Text} {d : Draft} {placement : Placement}

namespace Takes

/-- **Selections that are clear** of those before them: all texts go in at once. -/
theorem exists_spliced_of_clear (h : l.Takes texts d)
    (hplacement : placement = .lineBegin ∨ placement = .lineEnd)
    (hclear : l.group.items.Pairwise (placement.Clear d.buffer.text)) :
    ∃ us v d' log, stops placement texts d.buffer.text l.group.items = .ok us ∧
      (l.insert texts placement).resume d = (.ok v, d') ∧ l.Spliced us log d d' v := by
  have ht : d.buffer.text.size < Text.capacity := lt_of_le_of_lt (Nat.le_add_right _ _) h.size
  obtain ⟨us, hus, hselections, hfits, -⟩ := exists_stops placement texts ht h.settled.valid
  have hapart := h.pairwise_stops hselections
  rw [← hselections, List.pairwise_map] at hclear
  have hbefore : us.Pairwise Stop.Before := (hapart.and hclear).imp_of_mem fun {u v} hu hv hboth =>
    Stop.before_of_clear hplacement (hfits u hu) (hfits v hv) hboth.1 hboth.2
  obtain ⟨v, d', log, hrun, hspliced, -⟩ := h.exists_spliced hus hbefore
  exact ⟨us, v, d', log, hus, hrun, hspliced⟩

/-- **If all texts go in at once**, and all selections move across them, these are clear of those before
them. -/
theorem clear_of_spliced (h : l.Takes texts d) (hplacement : placement = .lineBegin ∨ placement = .lineEnd)
    (htexts : ∀ x ∈ texts, x ≠ []) {us : List Stop} {v : Visited} {d' : Draft} {log : List Change}
    (hus : stops placement texts d.buffer.text l.group.items = .ok us)
    (hrun : (l.insert texts placement).resume d = (.ok v, d')) (hspliced : l.Spliced us log d d' v) :
    l.group.items.Pairwise (placement.Clear d.buffer.text) := by
  have ht : d.buffer.text.size < Text.capacity := lt_of_le_of_lt (Nat.le_add_right _ _) h.size
  obtain ⟨us', hus', hselections, hfits, htext⟩ := exists_stops placement texts ht h.settled.valid
  cases hus.symm.trans hus'
  have hapart := h.pairwise_stops hselections
  -- the insertion is a tour
  unfold SelectionList.insert at hrun
  rw [if_neg (by simpa using h.nonempty)] at hrun
  have hupdate : l.updateMerging d.buffer = .ok l := update_of_current h.buffer h.current true
  obtain ⟨T, appended, htour, -, rfl, rfl⟩ := (resume_visitAll_eq_ok_iff hupdate).1 hrun
  have hlength := congrArg List.length hselections
  rw [List.length_map] at hlength
  have hsize := h.size
  rw [← sizes_eq hlength htext] at hsize
  rw [← hselections] at htour ⊢
  refine List.pairwise_map.2 (Tour.pairwise_clear [] hplacement
    (fun i => htexts _ (textFor_mem h.nonempty i)) (Tour.stands_start h.writable false) Tour.settles_nil ht
    hfits hapart htext hsize .nil htour hspliced.accepted hspliced.logged fun i u s₁ hu hs₁ => ?_)
  have hvisited : (us.map (·.selection))[i]? = some u.selection := by
    rw [List.getElem?_map, show us[i]? = some u from hu]
    rfl
  have hfinished : (T.visited l appended.flatten).list.group.items[i]? = some s₁ := by
    obtain ⟨hi, -⟩ := List.getElem?_eq_some_iff.1 hs₁
    show (T.finished ++ appended.flatten)[i]? = some s₁
    rw [List.getElem?_append_left hi, hs₁]
  rw [hselections] at hvisited
  exact rel_of_forall₂ hspliced.moved hvisited hfinished

/-- **Texts at the beginnings or at the ends of lines**, none of them empty, go in at once, each in its
place, and all selections move across them, just when all selections are clear of those before them. -/
theorem insert_lines_iff (h : l.Takes texts d) (hplacement : placement = .lineBegin ∨ placement = .lineEnd)
    (htexts : ∀ x ∈ texts, x ≠ []) :
    (∃ us v d' log, stops placement texts d.buffer.text l.group.items = .ok us ∧
        (l.insert texts placement).resume d = (.ok v, d') ∧ l.Spliced us log d d' v) ↔
      l.group.items.Pairwise (placement.Clear d.buffer.text) := by
  constructor
  · rintro ⟨us, v, d', log, hus, hrun, hspliced⟩
    exact h.clear_of_spliced hplacement htexts hus hrun hspliced
  · exact h.exists_spliced_of_clear hplacement

/-- At the ends of lines the selections of the sample are clear of each other, at the beginnings the last
two are not. -/
theorem insert_lines_iff_sample :
    (∃ us v d' log, stops .lineEnd [['x']] sampleDraft.buffer.text sampleList.group.items = .ok us ∧
      (sampleList.insert [['x']] .lineEnd).resume sampleDraft = (.ok v, d') ∧
      sampleList.Spliced us log sampleDraft d' v) ∧
    ¬∃ us v d' log, stops .lineBegin [['x']] sampleDraft.buffer.text sampleList.group.items = .ok us ∧
      (sampleList.insert [['x']] .lineBegin).resume sampleDraft = (.ok v, d') ∧
      sampleList.Spliced us log sampleDraft d' v := by
  have htakes : sampleList.Takes [['x']] sampleDraft := sampleList_takes (by decide) (by decide)
  have htexts : ∀ x ∈ [['x']], x ≠ [] := by decide
  exact ⟨(htakes.insert_lines_iff (.inr rfl) htexts).2 (by decide),
    fun h => absurd ((htakes.insert_lines_iff (.inl rfl) htexts).1 h) (by decide)⟩

/-- A buffer with one line. -/
def crowdedDraft : Draft := { buffer := Buffer.ofText 0 ['a', 'b', 'c', 'd', 'e', 'f'] {} }

/-- Two selections on the line. -/
def crowdedList : SelectionList where
  group := { items := [.point ⟨0, 2⟩, .point ⟨0, 5⟩], main := 1 }
  buffer := 0
  timestamp := 0

/-- **Two selections on one line.** A second text at its beginning is a broken contract. A second text at
its end goes in, but the second selection has been taken there, though the changes leave it alone. -/
theorem not_insert_lines :
    crowdedList.Takes [['X']] crowdedDraft ∧
      ((crowdedList.insert [['X']] .lineBegin).resume crowdedDraft).1 = .error (.fault .outOfOrder) ∧
      ∃ v d', (crowdedList.insert [['X']] .lineEnd).resume crowdedDraft = (.ok v, d') ∧
        v.list.group.items = [.point ⟨0, 2⟩, .point ⟨0, 8⟩] ∧
        (⟨0, 5⟩ : Coord).across d'.buffer.log = .ok ⟨0, 5⟩ := by
  refine ⟨⟨rfl, rfl, rfl, ⟨by simp only [Selection.ValidIn]; decide, by unfold Span.Apart; decide⟩, by decide,
    by decide⟩, by decide +kernel, ?_⟩
  have hitems : ((crowdedList.insert [['X']] .lineEnd).resume crowdedDraft).1.toOption.map
      (·.list.group.items) = some [.point ⟨0, 2⟩, .point ⟨0, 8⟩] := by decide +kernel
  have hlog : (⟨0, 5⟩ : Coord).across
      ((crowdedList.insert [['X']] .lineEnd).resume crowdedDraft).2.buffer.log = .ok ⟨0, 5⟩ := by decide +kernel
  cases hrun : (crowdedList.insert [['X']] .lineEnd).resume crowdedDraft with
  | mk outcome d' =>
    rw [hrun] at hitems hlog
    cases outcome with
    | error e => cases hitems
    | ok v => exact ⟨v, d', rfl, Option.some.inj hitems, hlog⟩

end Takes

end SelectionList

end Caret
