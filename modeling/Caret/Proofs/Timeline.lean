import Caret.Proofs.Edited

/-!
# Undo as a walk through texts

A timeline is what undo and redo ought to walk: the groups of a run as passages from one text to
another, with no limit to their number. It is drawn from what can be seen of a run, namely the
commands, the texts and whether an undo or a redo answers. The history of the buffer, which knows
nothing but coordinates and pieces of text and drops its oldest groups, keeps to it all the same.

* `Timeline.ofRun`: the timeline of a run.
* `Timeline.Tells`: the invariant that ties a history to a timeline, with one lemma for each
  operation on histories.
* `Timeline.Told.perform`, `Timeline.told_ofText`: every run keeps to its timeline, from the fresh
  buffer on.
* `Timeline.walks_ofRun`: what undo and redo do after any run.
-/

namespace Caret

/-- The text before the first edit of a group and the one after its last edit. -/
structure Passage where
  before : Text
  after : Text

/-- The passages of a run. Both stacks have their top first. -/
structure Timeline where
  undone : List Passage := []
  done : List Passage := []
  /-- The passage of the group that is still open. -/
  current : Option Passage := none

namespace Timeline

/-- An edit that took the text from `s` to `t`. It begins a passage unless one is open, and nothing
can be redone any more. -/
def edit (tl : Timeline) (s t : Text) : Timeline :=
  { tl with undone := [], current := some ⟨(tl.current.map Passage.before).getD s, t⟩ }

/-- The end of the open passage. -/
def close (tl : Timeline) : Timeline :=
  match tl.current with
  | none => tl
  | some p => { tl with done := p :: tl.done, current := none }

/-- The last passage walked back. -/
def back (tl : Timeline) : Timeline :=
  match tl.done with
  | [] => tl
  | p :: rest => { tl with done := rest, undone := p :: tl.undone }

/-- The last passage walked back walked forth again. -/
def forth (tl : Timeline) : Timeline :=
  match tl.undone with
  | [] => tl
  | p :: rest => { tl with undone := rest, done := p :: tl.done }

/-- The timeline once a command has taken `d` to `d'`. -/
def follow (tl : Timeline) (d d' : Draft) : Command → Timeline
  | .insert .. | .erase .. | .replace .. =>
    if d'.buffer.timestamp = d.buffer.timestamp then tl else tl.edit d.buffer.text d'.buffer.text
  | .commitGroup => tl.close
  | .undo =>
    match EditM.undo.resume d with
    | (.ok (some _), _) => tl.close.back
    | _ => tl
  | .redo =>
    match EditM.redo.resume d with
    | (.ok (some _), _) => tl.forth
    | _ => tl
  | .setFlags _ => tl

/-- The timeline after a script that is performed on `d`. -/
def ofRun (tl : Timeline) (d : Draft) : List Command → Timeline
  | [] => tl
  | command :: script =>
    match d.perform command with
    | .ok d' => (tl.follow d d' command).ofRun d' script
    | .error _ => tl

/-! ## Histories that keep to a timeline -/

/-- Groups of edits that make up passages, one after another: the passages run on from text `t` when
each is entered at `near` and left at `far`. -/
def Along (near far : Passage → Text) : List EditGroup → List Passage → Text → Prop
  | [], [], _ => True
  | group :: groups, p :: ps, t => near p = t ∧ group ≠ [] ∧ p.before.size < Text.capacity ∧
      RecordedEdit.Lead group p.before p.after ∧ Along near far groups ps (far p)
  | _, _, _ => False

/-- An open group whose edits make up the open passage, or neither of them. -/
def Opens (group : EditGroup) (s t : Text) : Option Passage → Prop
  | none => group = [] ∧ s = t
  | some p => group ≠ [] ∧ p.before = s ∧ p.after = t ∧ s.size < Text.capacity ∧
      RecordedEdit.Lead group s t

/-- **A history that keeps to a timeline** at text `t`. It may have dropped the groups of the oldest
passages, but none that can be redone. -/
structure Tells (tl : Timeline) (h : History) (t : Text) : Prop where
  deep : 0 < h.depth
  past : ∃ s ps, ps <+: tl.done ∧ Along Passage.after Passage.before h.done ps s ∧ Opens h.current s t tl.current
  future : Along Passage.before Passage.after h.undone tl.undone t
  open_or_undone : tl.current = none ∨ tl.undone = []

variable {near far : Passage → Text} {group : EditGroup} {groups : List EditGroup}
  {ps : List Passage} {tl : Timeline} {h : History} {s t : Text} {ms : List RecordedEdit}

theorem Along.take (groups : List EditGroup) (ha : Along near far groups ps t) (n : ℕ) :
    Along near far (groups.take n) (ps.take n) t := by
  induction groups generalizing ps t n with
  | nil =>
    cases ps with
    | nil => simp [Along]
    | cons p ps => exact absurd ha id
  | cons group groups ih =>
    cases ps with
    | nil => exact absurd ha id
    | cons p ps =>
      obtain ⟨hnear, hne, hsize, hlead, ha⟩ := ha
      cases n with
      | zero => simp [Along]
      | succ n => exact ⟨hnear, hne, hsize, hlead, ih ha n⟩

theorem Along.exists_cons (ha : Along near far (group :: groups) ps t) :
    ∃ p rest, ps = p :: rest ∧ near p = t ∧ group ≠ [] ∧ p.before.size < Text.capacity ∧
      RecordedEdit.Lead group p.before p.after ∧ Along near far groups rest (far p) := by
  cases ps with
  | nil => exact absurd ha id
  | cons p rest => exact ⟨p, rest, rfl, ha⟩

theorem Along.eq_nil_iff (ha : Along near far groups ps t) : groups = [] ↔ ps = [] := by
  cases groups <;> cases ps <;> simp_all [Along]

theorem tells_nil (hdepth : 0 < h.depth) (hb : h.Blank) : Tells {} h t := by
  obtain ⟨hdone, hundone, hcurrent⟩ := hb
  refine ⟨hdepth, ⟨t, [], List.prefix_rfl, ?_, hcurrent, rfl⟩, ?_, .inl rfl⟩
  · rw [hdone]
    trivial
  · rw [hundone]
    trivial

theorem foldl_record (h : History) (hne : ms ≠ []) :
    ms.foldl History.record h = { h with current := h.current ++ ms, undone := [] } := by
  induction ms generalizing h with
  | nil => exact absurd rfl hne
  | cons m ms ih =>
    cases ms with
    | nil => rfl
    | cons m' ms =>
      rw [List.foldl_cons, ih _ (List.cons_ne_nil _ _)]
      simp [History.record]

/-- Recorded edits go on with the open passage or begin one. -/
theorem Tells.edit (ht : tl.Tells h s) (hs : s.size < Text.capacity) (hne : ms ≠ [])
    (hl : RecordedEdit.Lead ms s t) : (tl.edit s t).Tells (ms.foldl History.record h) t := by
  rw [foldl_record h hne]
  obtain ⟨r, ps, hps, ha, hopens⟩ := ht.past
  refine ⟨ht.deep, ⟨r, ps, hps, ha, ?_⟩, trivial, .inr rfl⟩
  unfold Timeline.edit
  generalize tl.current = p? at hopens
  cases p? with
  | none =>
    obtain ⟨hnil, rfl⟩ := hopens
    rw [hnil]
    exact ⟨hne, rfl, rfl, hs, hl⟩
  | some p =>
    obtain ⟨-, rfl, rfl, hsize, hlead⟩ := hopens
    exact ⟨by simp [hne], rfl, rfl, hsize, hlead.append hl⟩

/-- Closing the open group ends the open passage. -/
theorem Tells.close (ht : tl.Tells h t) : tl.close.Tells h.commit t := by
  obtain ⟨s, ps, hps, ha, hopens⟩ := ht.past
  have hexclusive := ht.open_or_undone
  unfold Timeline.close
  cases hcurrent : tl.current with
  | none =>
    rw [hcurrent] at hopens
    have hcommit : h.commit = h := by
      unfold History.commit
      rw [if_pos (by rw [hopens.1]; rfl)]
    rw [hcommit]
    exact ht
  | some p =>
    rw [hcurrent] at hopens hexclusive
    obtain ⟨hne, rfl, rfl, hsize, hlead⟩ := hopens
    have hcommit : h.commit =
        { h with current := [], done := (h.current :: h.done).take h.depth } := by
      unfold History.commit
      rw [if_neg (by simp [hne])]
      rfl
    have halong : Along Passage.after Passage.before (h.current :: h.done) (p :: ps) p.after :=
      ⟨rfl, hne, hsize, hlead, ha⟩
    have hprefix : (p :: ps).take h.depth <+: p :: tl.done :=
      (List.take_prefix _ _).trans (List.cons_prefix_cons.2 ⟨rfl, hps⟩)
    rw [hcommit]
    exact ⟨ht.deep, ⟨p.after, _, hprefix, halong.take _ h.depth, rfl, rfl⟩, ht.future, .inl rfl⟩

theorem close_current (tl : Timeline) : tl.close.current = none := by
  unfold close
  cases hcurrent : tl.current with
  | none => exact hcurrent
  | some p => rfl

theorem close_undone (tl : Timeline) : tl.close.undone = tl.undone := by
  unfold close
  cases tl.current <;> rfl

/-- Without a group to undo there is none to close either, since every closed group is kept. -/
theorem commit_of_done_eq_nil (hdepth : 0 < h.depth) (hdone : h.commit.done = []) : h.commit = h := by
  unfold History.commit at hdone ⊢
  split at hdone
  · rename_i hnil
    rw [if_pos hnil]
  · -- the group would be on the stack now
    obtain ⟨n, hn⟩ : ∃ n, h.depth = n + 1 := Nat.exists_eq_succ_of_ne_zero hdepth.ne'
    simp [History.pushDone, hn] at hdone

/-- **The group to undo** makes up the last passage. -/
theorem Tells.back (ht : tl.Tells h t) (hcurrent : tl.current = none)
    (hdone : h.done = group :: groups) :
    ∃ p, tl.done.head? = some p ∧ p.after = t ∧ group ≠ [] ∧ p.before.size < Text.capacity ∧
      RecordedEdit.Lead group p.before t ∧
      tl.back.Tells ({ h with done := groups }.pushUndone group) p.before := by
  obtain ⟨s, ps, hps, ha, hopens⟩ := ht.past
  rw [hcurrent] at hopens
  obtain ⟨hnil, rfl⟩ := hopens
  rw [hdone] at ha
  obtain ⟨p, rest, rfl, rfl, hne, hsize, hlead, ha⟩ := ha.exists_cons
  obtain ⟨more, hmore⟩ := hps
  have htl : tl.done = p :: (rest ++ more) := hmore.symm
  refine ⟨p, by rw [htl]; rfl, rfl, hne, hsize, hlead, ?_⟩
  have hback : tl.back = { tl with done := rest ++ more, undone := p :: tl.undone } := by
    unfold Timeline.back
    rw [htl]
  rw [hback]
  exact ⟨ht.deep, ⟨p.before, rest, List.prefix_append _ _, ha, hcurrent ▸ ⟨hnil, rfl⟩⟩,
    ⟨rfl, hne, hsize, hlead, ht.future⟩, .inl hcurrent⟩

/-- **The group to redo** makes up the passage that was walked back last. -/
theorem Tells.forth (ht : tl.Tells h t) (hundone : h.undone = group :: groups) :
    ∃ p, tl.undone.head? = some p ∧ p.before = t ∧ group ≠ [] ∧
      RecordedEdit.Lead group t p.after ∧
      tl.forth.Tells ({ h with undone := groups }.pushDone group) p.after := by
  have hfuture := ht.future
  rw [hundone] at hfuture
  obtain ⟨p, rest, htl, rfl, hne, hsize, hlead, ha⟩ := hfuture.exists_cons
  have hcurrent : tl.current = none := ht.open_or_undone.resolve_right (by simp [htl])
  obtain ⟨s, ps, hps, hdone, hopens⟩ := ht.past
  rw [hcurrent] at hopens
  obtain ⟨hnil, rfl⟩ := hopens
  refine ⟨p, by rw [htl]; rfl, rfl, hne, hlead, ?_⟩
  have hforth : tl.forth = { tl with undone := rest, done := p :: tl.done } := by
    unfold Timeline.forth
    rw [htl]
  have halong : Along Passage.after Passage.before (group :: h.done) (p :: ps) p.after :=
    ⟨rfl, hne, hsize, hlead, hdone⟩
  have hprefix : (p :: ps).take h.depth <+: p :: tl.done :=
    (List.take_prefix _ _).trans (List.cons_prefix_cons.2 ⟨rfl, hps⟩)
  rw [hforth]
  exact ⟨ht.deep, ⟨p.after, _, hprefix, halong.take _ h.depth, hcurrent ▸ ⟨hnil, rfl⟩⟩, ha,
    .inl hcurrent⟩

/-! ## Runs that keep to their timeline -/

variable {origin : Text} {d d' d₁ d₂ : Draft} {command : Command} {script : List Command} {n k : ℕ}

/-- **The invariant of a run and its timeline.** -/
structure Told (origin : Text) (tl : Timeline) (d : Draft) : Prop where
  sound : d.Sound origin false
  tells : tl.Tells d.buffer.history d.buffer.text

/-- **What an undo does.** It finds nothing to do, or it walks the last passage back. -/
theorem Told.undo_cases (ht : Told origin tl d) :
    (∃ d', EditM.undo.resume d = (.ok none, d') ∧ Told origin tl d' ∧
      d'.buffer.text = d.buffer.text) ∨
    ∃ n d' p, EditM.undo.resume d = (.ok (some n), d') ∧ tl.close.done.head? = some p ∧
      d.buffer.text = p.after ∧ d'.buffer.text = p.before ∧
      d.buffer.timestamp < d'.buffer.timestamp ∧ Told origin tl.close.back d' := by
  have hclose := ht.tells.close
  cases hro : d.buffer.options.flags.readOnly with
  | true => exact .inl ⟨d, EditM.resume_undo_readOnly hro, ht, rfl⟩
  | false =>
    cases hdone : d.buffer.history.commit.done with
    | nil =>
      have hcommit := commit_of_done_eq_nil ht.tells.deep hdone
      have hr := EditM.resume_undo_none hro (History.popDone_of_nil hdone)
      rw [hcommit] at hr
      exact .inl ⟨d, hr, ht, rfl⟩
    | cons group groups =>
      have hp := History.popDone_of_cons hdone
      obtain ⟨p, hhead, hafter, hne, hsize, hlead, hback⟩ := hclose.back (close_current tl) hdone
      obtain ⟨d', hr, -, htext, hhistory, -, htime⟩ :=
        EditM.exists_resume_undo ht.sound.chronicle hro hp hsize hlead
      have hsound : d'.Sound origin false := EditM.keeps_undo.sound ht.sound hr
      have hpos : 0 < group.length := List.length_pos_iff.2 hne
      have htells : tl.close.back.Tells d'.buffer.history d'.buffer.text := by
        rw [hhistory, htext]
        exact hback
      exact .inr ⟨_, d', p, hr, hhead, hafter.symm, htext, by omega, hsound, htells⟩

/-- **What a redo does.** The buffer is read-only, there is nothing to do, or it walks the passage
that was walked back last. -/
theorem Told.redo_cases (ht : Told origin tl d) :
    (∃ d', EditM.redo.resume d = (.ok none, d') ∧ Told origin tl d' ∧
      d'.buffer.text = d.buffer.text ∧
      (d.buffer.options.flags.readOnly = true ∨ tl.undone = [])) ∨
    ∃ n d' p, EditM.redo.resume d = (.ok (some n), d') ∧ tl.undone.head? = some p ∧
      d.buffer.text = p.before ∧ d'.buffer.text = p.after ∧
      d.buffer.timestamp < d'.buffer.timestamp ∧ Told origin tl.forth d' := by
  cases hro : d.buffer.options.flags.readOnly with
  | true => exact .inl ⟨d, EditM.resume_redo_readOnly hro, ht, rfl, .inl rfl⟩
  | false =>
    cases hundone : d.buffer.history.undone with
    | nil =>
      have hnil : tl.undone = [] := ht.tells.future.eq_nil_iff.1 hundone
      have hr := EditM.resume_redo_none hro (History.popUndone_of_nil hundone)
      exact .inl ⟨d, hr, ht, rfl, .inr hnil⟩
    | cons group groups =>
      have hp := History.popUndone_of_cons hundone
      obtain ⟨p, hhead, hbefore, hne, hlead, hforth⟩ := ht.tells.forth hundone
      obtain ⟨d', hr, -, htext, hhistory, -, htime⟩ :=
        EditM.exists_resume_redo ht.sound.chronicle hro hp hlead
      have hsound : d'.Sound origin false := EditM.keeps_redo.sound ht.sound hr
      have hpos : 0 < group.length := List.length_pos_iff.2 hne
      have htells : tl.forth.Tells d'.buffer.history d'.buffer.text := by
        rw [hhistory, htext]
        exact hforth
      exact .inr ⟨_, d', p, hr, hhead, hbefore.symm, htext, by omega, hsound, htells⟩

/-- Edits that are carried out, if there are any, are one more edit of the timeline. -/
theorem Told.edited (ht : Told origin tl d) (hd' : d'.Sound origin false)
    (hedited : Draft.Edited ms d d') :
    Told origin (if d'.buffer.timestamp = d.buffer.timestamp then tl
      else tl.edit d.buffer.text d'.buffer.text) d' ∧
      (d'.buffer.timestamp = d.buffer.timestamp → d'.buffer.text = d.buffer.text) := by
  have hrecorded : d'.buffer.history = ms.foldl History.record d.buffer.history := by
    rw [hedited.history, ht.sound.recording]
    rfl
  have htime := hedited.timestamp
  by_cases hne : ms = []
  · subst hne
    have htime : d'.buffer.timestamp = d.buffer.timestamp := htime
    have htext : d.buffer.text = d'.buffer.text := hedited.lead
    rw [if_pos htime]
    refine ⟨⟨hd', ?_⟩, fun _ => htext.symm⟩
    rw [hrecorded, ← htext]
    exact ht.tells
  · have hpos : 0 < ms.length := List.length_pos_iff.2 hne
    rw [if_neg (by omega)]
    refine ⟨⟨hd', ?_⟩, fun h => absurd h (by omega)⟩
    rw [hrecorded]
    exact ht.tells.edit ht.sound.chronicle.size_lt hne hedited.lead

theorem follow_edit (hc : command.IsEdit) : tl.follow d d' command =
    if d'.buffer.timestamp = d.buffer.timestamp then tl
    else tl.edit d.buffer.text d'.buffer.text := by
  cases command <;> first | rfl | exact absurd hc id

/-- An undo or a redo that is performed leaves what it leaves as a computation. -/
theorem eq_of_perform {act : EditM (Option ℕ)} {answer : Option ℕ} (hc : command.act = discard act)
    (hr : act.resume d = (.ok answer, d₁)) (hp : d.perform command = .ok d') : d' = d₁ := by
  unfold Draft.perform at hp
  rw [hc, EditM.resume_discard, hr] at hp
  cases hp
  rfl

/-- **One command.** A command that logs nothing also leaves the text and what can be redone. -/
theorem Told.perform (ht : Told origin tl d) (hk : command.KeepsRecording false)
    (hp : d.perform command = .ok d') :
    Told origin (tl.follow d d' command) d' ∧
      (d'.buffer.timestamp = d.buffer.timestamp →
        d'.buffer.text = d.buffer.text ∧ (tl.follow d d' command).undone = tl.undone) := by
  have hsound := ht.sound.perform hk hp
  have hedit : command.IsEdit → Told origin (tl.follow d d' command) d' ∧
      (d'.buffer.timestamp = d.buffer.timestamp →
        d'.buffer.text = d.buffer.text ∧ (tl.follow d d' command).undone = tl.undone) := by
    intro hc
    obtain ⟨ms, hedited⟩ := Draft.exists_edited_of_perform ht.sound.chronicle.size_lt hc hp
    obtain ⟨htold, htext⟩ := ht.edited hsound hedited
    rw [follow_edit hc]
    exact ⟨htold, fun htime => ⟨htext htime, by rw [if_pos htime]⟩⟩
  cases command with
  | insert start new => exact hedit trivial
  | erase start stop => exact hedit trivial
  | replace start stop new => exact hedit trivial
  | commitGroup =>
    cases hp
    exact ⟨⟨hsound, ht.tells.close⟩, fun _ => ⟨rfl, close_undone tl⟩⟩
  | undo =>
    rcases ht.undo_cases with ⟨d₁, hr, htold, htext⟩ | ⟨n, d₁, p, hr, -, -, -, hlt, htold⟩
    · obtain rfl := eq_of_perform rfl hr hp
      unfold Timeline.follow
      rw [hr]
      exact ⟨htold, fun _ => ⟨htext, rfl⟩⟩
    · obtain rfl := eq_of_perform rfl hr hp
      unfold Timeline.follow
      rw [hr]
      exact ⟨htold, fun htime => absurd htime hlt.ne'⟩
  | redo =>
    rcases ht.redo_cases with ⟨d₁, hr, htold, htext, -⟩ | ⟨n, d₁, p, hr, -, -, -, hlt, htold⟩
    · obtain rfl := eq_of_perform rfl hr hp
      unfold Timeline.follow
      rw [hr]
      exact ⟨htold, fun _ => ⟨htext, rfl⟩⟩
    · obtain rfl := eq_of_perform rfl hr hp
      unfold Timeline.follow
      rw [hr]
      exact ⟨htold, fun htime => absurd htime hlt.ne'⟩
  | setFlags flags =>
    cases hp
    exact ⟨⟨hsound, ht.tells⟩, fun _ => ⟨rfl, rfl⟩⟩

/-- **Every run keeps to its timeline.** -/
theorem Told.ofRun (ht : Told origin tl d) (hk : ∀ command ∈ script, command.KeepsRecording false)
    (hr : d.run script = .ok d') : Told origin (tl.ofRun d script) d' := by
  induction script generalizing tl d with
  | nil =>
    cases hr
    exact ht
  | cons command script ih =>
    obtain ⟨hcommand, hscript⟩ := List.forall_mem_cons.1 hk
    unfold Draft.run at hr
    rw [List.foldlM_cons, Fault.bind_eq_ok] at hr
    obtain ⟨d₁, hd₁, hr⟩ := hr
    unfold Timeline.ofRun
    rw [hd₁]
    exact ih (ht.perform hcommand hd₁).1 hscript hr

theorem told_ofText (id : BufferId) {options : Options} (hsize : origin.size < Text.capacity)
    (hdepth : 1 ≤ options.maxHistory) (hrec : options.flags.noUndo = false) :
    Told origin {} { buffer := Buffer.ofText id origin options } := by
  have hsound := Draft.sound_ofText id options hsize
  rw [hrec] at hsound
  exact ⟨hsound, tells_nil hdepth ⟨rfl, rfl, rfl⟩⟩

/-! ## Undo and redo in a row -/

/-- The computation answers `k` times in a row, with nothing in between that logs a change. -/
inductive Repeated (act : EditM (Option ℕ)) : ℕ → Draft → Draft → Prop
  | refl (d : Draft) : Repeated act 0 d d
  | again {k n : ℕ} {d d₁ d' : Draft} (hr : act.resume d = (.ok (some n), d₁))
    (h : Repeated act k d₁ d') : Repeated act (k + 1) d d'
  | idle {k : ℕ} {d d₁ d' : Draft} {command : Command} (hk : command.KeepsRecording false)
    (hp : d.perform command = .ok d₁) (htime : d₁.buffer.timestamp = d.buffer.timestamp)
    (h : Repeated act k d₁ d') : Repeated act k d d'

/-- The text at hand and those that redos lead to. -/
def ahead (tl : Timeline) (t : Text) : List Text := t :: tl.undone.map Passage.after

theorem back_undone {p : Passage} (hp : tl.done.head? = some p) : tl.back.undone = p :: tl.undone := by
  obtain ⟨rest, hrest⟩ := List.head?_eq_some_iff.1 hp
  unfold back
  rw [hrest]

theorem undone_of_forth {p : Passage} (hp : tl.undone.head? = some p) :
    tl.undone = p :: tl.forth.undone := by
  obtain ⟨rest, hrest⟩ := List.head?_eq_some_iff.1 hp
  unfold forth
  rw [hrest]

/-- **Each undo puts one more text ahead.** -/
theorem Told.undos (hrep : Repeated EditM.undo k d d₁) (ht : Told origin tl d) :
    ∃ tl₁, Told origin tl₁ d₁ ∧ (tl₁.ahead d₁.buffer.text).drop k = tl.ahead d.buffer.text := by
  induction hrep generalizing tl with
  | refl d => exact ⟨tl, ht, rfl⟩
  | again hr h ih =>
    rcases ht.undo_cases with ⟨d₂, hr₂, -⟩ | ⟨n, d₂, p, hr₂, hhead, hafter, -, -, htold⟩
    · rw [hr] at hr₂
      cases hr₂
    · rw [hr] at hr₂
      cases hr₂
      obtain ⟨tl₁, htold₁, hdrop⟩ := ih htold
      refine ⟨tl₁, htold₁, ?_⟩
      rw [← List.drop_drop, hdrop]
      unfold ahead
      rw [back_undone hhead, close_undone, hafter]
      rfl
  | idle hk hp htime h ih =>
    obtain ⟨htold, hidle⟩ := ht.perform hk hp
    obtain ⟨htext, hundone⟩ := hidle htime
    obtain ⟨tl₁, htold₁, hdrop⟩ := ih htold
    refine ⟨tl₁, htold₁, ?_⟩
    rw [hdrop]
    unfold ahead
    rw [htext, hundone]

/-- **Each redo goes on to the next text ahead.** -/
theorem Told.redos (hrep : Repeated EditM.redo k d d₁) (ht : Told origin tl d) :
    ∃ tl₁, Told origin tl₁ d₁ ∧ tl₁.ahead d₁.buffer.text = (tl.ahead d.buffer.text).drop k := by
  induction hrep generalizing tl with
  | refl d => exact ⟨tl, ht, rfl⟩
  | again hr h ih =>
    rcases ht.redo_cases with ⟨d₂, hr₂, -⟩ | ⟨n, d₂, p, hr₂, hhead, -, hafter, -, htold⟩
    · rw [hr] at hr₂
      cases hr₂
    · rw [hr] at hr₂
      cases hr₂
      obtain ⟨tl₁, htold₁, hdrop⟩ := ih htold
      refine ⟨tl₁, htold₁, ?_⟩
      have hundone := undone_of_forth hhead
      rw [hdrop, Nat.add_comm, ← List.drop_drop]
      unfold ahead
      rw [hundone, hafter]
      rfl
  | idle hk hp htime h ih =>
    obtain ⟨htold, hidle⟩ := ht.perform hk hp
    obtain ⟨htext, hundone⟩ := hidle htime
    obtain ⟨tl₁, htold₁, hdrop⟩ := ih htold
    refine ⟨tl₁, htold₁, ?_⟩
    rw [hdrop]
    unfold ahead
    rw [htext, hundone]

/-- **What undo and redo do** at a point of a run. -/
structure Walks (tl : Timeline) (d : Draft) : Prop where
  /-- An undo that answers goes from the text after the last edit of the group to the one before its
  first edit. -/
  undo : ∀ n d', EditM.undo.resume d = (.ok (some n), d') →
    ∃ p, tl.close.done.head? = some p ∧ d.buffer.text = p.after ∧ d'.buffer.text = p.before
  /-- A redo that answers goes from the text before the first edit of the group to the one after its
  last edit. -/
  redo : ∀ n d', EditM.redo.resume d = (.ok (some n), d') →
    ∃ p, tl.undone.head? = some p ∧ d.buffer.text = p.before ∧ d'.buffer.text = p.after
  /-- After undos that answer, as many redos answer while the buffer is writable. -/
  answers : ∀ k d₁, Repeated EditM.undo k d d₁ → ∀ j d₂, Repeated EditM.redo j d₁ d₂ → j < k →
    d₂.buffer.options.flags.readOnly = false → ∃ n d₃, EditM.redo.resume d₂ = (.ok (some n), d₃)
  /-- They bring the text back that the undos began with. -/
  restores : ∀ k d₁, Repeated EditM.undo k d d₁ → ∀ d₂, Repeated EditM.redo k d₁ d₂ →
    d₂.buffer.text = d.buffer.text

theorem Told.walks (ht : Told origin tl d) : tl.Walks d where
  undo n d' hr := by
    rcases ht.undo_cases with ⟨d₁, hr₁, -⟩ | ⟨m, d₁, p, hr₁, hhead, hafter, hbefore, -⟩
    · rw [hr] at hr₁
      cases hr₁
    · rw [hr] at hr₁
      cases hr₁
      exact ⟨p, hhead, hafter, hbefore⟩
  redo n d' hr := by
    rcases ht.redo_cases with ⟨d₁, hr₁, -⟩ | ⟨m, d₁, p, hr₁, hhead, hbefore, hafter, -⟩
    · rw [hr] at hr₁
      cases hr₁
    · rw [hr] at hr₁
      cases hr₁
      exact ⟨p, hhead, hbefore, hafter⟩
  answers k d₁ hundos j d₂ hredos hlt hro := by
    obtain ⟨tl₁, ht₁, hahead⟩ := ht.undos hundos
    obtain ⟨tl₂, ht₂, hahead'⟩ := ht₁.redos hredos
    rcases ht₂.redo_cases with ⟨d₃, -, -, -, hro' | hnil⟩ | ⟨n, d₃, p, hr, -⟩
    · rw [hro] at hro'
      cases hro'
    · -- there are more than `k` texts ahead after the undos, and `j` of them are passed
      have hlen := congrArg List.length hahead
      have hlen' := congrArg List.length hahead'
      simp only [ahead, List.length_drop, List.length_cons, List.length_map, hnil,
        List.length_nil] at hlen hlen'
      omega
    · exact ⟨n, d₃, hr⟩
  restores k d₁ hundos d₂ hredos := by
    obtain ⟨tl₁, ht₁, hahead⟩ := ht.undos hundos
    obtain ⟨tl₂, ht₂, hahead'⟩ := ht₁.redos hredos
    have hsame : tl₂.ahead d₂.buffer.text = tl.ahead d.buffer.text := hahead'.trans hahead
    exact (List.cons.inj hsame).1

/-- **Undo and redo walk the texts of a run** in which all edits are recorded and groups are kept. -/
theorem walks_ofRun (id : BufferId) {options : Options} (hsize : origin.size < Text.capacity)
    (hdepth : 1 ≤ options.maxHistory) (hrec : options.flags.noUndo = false)
    (hk : ∀ command ∈ script, command.KeepsRecording false)
    (hr : Draft.run { buffer := Buffer.ofText id origin options } script = .ok d) :
    (ofRun {} { buffer := Buffer.ofText id origin options } script).Walks d :=
  ((told_ofText id hsize hdepth hrec).ofRun hk hr).walks

/-- A small run in which the second group pushes the first one off the undo stack. -/
def sampleScript : List Command :=
  [.insert ⟨0, 1⟩ ['x', '\n'], .commitGroup, .erase ⟨0, 0⟩ ⟨1, 0⟩, .undo, .redo]

/-- What the small run comes to. -/
def sample : Draft :=
  match Draft.run { buffer := Buffer.ofText 0 ['a', 'b'] { maxHistory := 1 } } sampleScript with
  | .ok d => d
  | .error _ => default

/-- The small run once more undone. -/
def sampleUndone : Draft := (EditM.undo.resume sample).2

theorem walks_ofRun_sample :
    EditM.undo.resume sample = (.ok (some 1), sampleUndone) ∧
      sample.buffer.text = ['b'] ∧ sampleUndone.buffer.text = ['a', 'x', '\n', 'b'] ∧
      ∃ n d, EditM.redo.resume sampleUndone = (.ok (some n), d) ∧ d.buffer.text = ['b'] := by
  have hsize : Text.size ['a', 'b'] < Text.capacity := by decide
  have hdepth : 1 ≤ ({ maxHistory := 1 } : Options).maxHistory := by decide
  have hk : ∀ command ∈ sampleScript, command.KeepsRecording false := by
    simp [sampleScript, Command.KeepsRecording]
  have hrun : Draft.run { buffer := Buffer.ofText 0 ['a', 'b'] { maxHistory := 1 } } sampleScript =
      .ok sample := by decide +kernel
  have hwalks := walks_ofRun 0 hsize hdepth rfl hk hrun
  have hundo : EditM.undo.resume sample = (.ok (some 1), sampleUndone) := by decide +kernel
  have hundos : Repeated EditM.undo 1 sample sampleUndone := .again hundo (.refl _)
  have hwritable : sampleUndone.buffer.options.flags.readOnly = false := by decide +kernel
  obtain ⟨n, d, hr⟩ := hwalks.answers 1 _ hundos 0 _ (.refl _) Nat.one_pos hwritable
  have hback := hwalks.restores 1 _ hundos d (.again hr (.refl _))
  have htext : sample.buffer.text = ['b'] := by decide +kernel
  have htext' : sampleUndone.buffer.text = ['a', 'x', '\n', 'b'] := by decide +kernel
  exact ⟨hundo, htext, htext', n, d, hr, hback.trans htext⟩

end Timeline

end Caret
