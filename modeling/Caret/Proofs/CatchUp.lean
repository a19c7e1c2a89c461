import Caret.Proofs.Continuation
import Caret.Proofs.Ends

/-!
# Catching up on the way

A list of selections can wait with catching up, or catch up now and then on the way. Where it stops
decides how the log is cut into runs, and with them which erases are replayed together with the insert
right before them that they reach up to. This makes a difference to positions inside of what such an
erase takes out, and to no others.

* `Draft.Was`: a buffer as it was at some time of a run.
* `Coord.Alike`: two ways to replay the same changes that make no difference to a coordinate.
* `Reached.exists_image`: the map between any two times of a run.
* `SelectionList.update_update_eq_update`: a list that catches up on the way and one that does not.
* `SelectionList.update_update_ne_update`: what a stop between an insert and an erase changes.
-/

namespace Caret

/-! ## Two ways to replay the same changes -/

/-- The steps of a replay from one time on that stops once on the way. -/
def replayStopping (log : List Change) (m n : ℕ) : List (List Change) :=
  replay ((log.take n).drop m) ++ replay (log.drop n)

section

variable {log : List Change} {step : List Change} {m n : ℕ}

theorem isStep_of_mem_replayStopping (h : step ∈ replayStopping log m n) : IsStep step := by
  rcases List.mem_append.1 h with h | h
  · exact isStep_of_mem_replay h
  · exact isStep_of_mem_replay h

theorem take_drop_append_drop (log : List Change) (hmn : m ≤ n) :
    (log.take n).drop m ++ log.drop n = log.drop m := by
  have hrest : log.drop n = (log.drop m).drop (n - m) := by
    rw [List.drop_drop, Nat.add_sub_cancel' hmn]
  rw [hrest, List.drop_take, List.take_append_drop]

theorem flatten_replayStopping (log : List Change) (hmn : m ≤ n) :
    (replayStopping log m n).flatten = log.drop m := by
  unfold replayStopping
  rw [List.flatten_append, flatten_replay, flatten_replay, take_drop_append_drop log hmn]

/-- Without an erase right up to the insert before it the stop makes no difference. -/
theorem replayStopping_of_apart (hmn : m ≤ n)
    (h : (log.drop m).IsChain fun a b => ¬b.ErasesUpTo a) :
    replayStopping log m n = replay (log.drop m) := by
  have hsplit := take_drop_append_drop log hmn
  unfold replayStopping
  rw [← hsplit] at h ⊢
  have hfirst := replay_of_apart h.left_of_append
  have hrest := replay_of_apart h.right_of_append
  rw [replay_of_apart h, hfirst, hrest, List.map_append]

end

/-- **Steps that differ only in pairs that a coordinate stands outside of.** One way may replay an
insert and the erase right up to it in a single step where the other replays them apart, as long as
the coordinate does not stand inside of what the erase takes out when it comes to them. -/
inductive Coord.Alike : Coord → List (List Change) → List (List Change) → Prop
  | done (c : Coord) : Alike c [] []
  | step {c d : Coord} {step : List Change} {steps steps' : List (List Change)}
      (h : c.acrossStep step = .ok d) (hrest : Alike d steps steps') :
    Alike c (step :: steps) (step :: steps')
  | joined {c d : Coord} {a b : Change} {steps steps' : List (List Change)}
      (hout : c ≤ b.start ∨ b.stop ≤ c) (h : c.acrossStep [a, b] = .ok d)
      (hrest : Alike d steps steps') : Alike c ([a, b] :: steps) ([a] :: [b] :: steps')
  | parted {c d : Coord} {a b : Change} {steps steps' : List (List Change)}
      (hout : c ≤ b.start ∨ b.stop ≤ c) (h : c.acrossStep [a, b] = .ok d)
      (hrest : Alike d steps steps') : Alike c ([a] :: [b] :: steps) ([a, b] :: steps')

namespace Coord

variable {c d : Coord} {a b : Change} {s t : Text} {log : List Change}
  {steps steps' : List (List Change)}

/-- A pair that a position stands outside of comes to the same in one step and in two. -/
theorem acrossSteps_parted (hpair : IsStep [a, b]) (ht : Trail s ([a, b] ++ log) t)
    (hs : s.size < Text.capacity) (hc : s.Valid c) (hout : c ≤ b.start ∨ b.stop ≤ c)
    (h : c.acrossStep [a, b] = .ok d) (steps : List (List Change)) :
    c.acrossSteps ([a] :: [b] :: steps) = d.acrossSteps steps := by
  obtain ⟨i, hi, rfl⟩ := Text.valid_iff.1 hc
  cases hpair with
  | pair hup =>
    obtain ⟨u, hu, -⟩ := ht.exists_replaces hup
    have hacross := (hu.acrossStep_eq hs hi hout).symm.trans h
    rw [← acrossSteps_map] at hacross
    exact acrossSteps_append hacross

/-- **Both ways lead to the same place.** -/
theorem Alike.acrossSteps_eq (h : c.Alike steps steps') (hsteps : ∀ step ∈ steps, IsStep step)
    (hsteps' : ∀ step ∈ steps', IsStep step) (ht : Trail s steps.flatten t)
    (hs : s.size < Text.capacity) (hc : s.Valid c) : c.acrossSteps steps = c.acrossSteps steps' := by
  induction h generalizing s with
  | done c => rfl
  | step h hrest ih =>
    obtain ⟨hstep, hsteps⟩ := List.forall_mem_cons.1 hsteps
    obtain ⟨-, hsteps'⟩ := List.forall_mem_cons.1 hsteps'
    obtain ⟨u, d', hu, hub, hd, h'⟩ := hstep.exists_acrossStep ht hs hc
    obtain rfl := Except.ok.inj (h.symm.trans h')
    rw [acrossSteps_cons h, acrossSteps_cons h]
    exact ih hsteps hsteps' hu hub hd
  | joined hout h hrest ih =>
    obtain ⟨hpair, hsteps⟩ := List.forall_mem_cons.1 hsteps
    have hsteps' := (List.forall_mem_cons.1 (List.forall_mem_cons.1 hsteps').2).2
    obtain ⟨u, d', hu, hub, hd, h'⟩ := hpair.exists_acrossStep ht hs hc
    obtain rfl := Except.ok.inj (h.symm.trans h')
    rw [acrossSteps_cons h, acrossSteps_parted hpair ht hs hc hout h]
    exact ih hsteps hsteps' hu hub hd
  | parted hout h hrest ih =>
    obtain ⟨hpair, hsteps'⟩ := List.forall_mem_cons.1 hsteps'
    have hsteps := (List.forall_mem_cons.1 (List.forall_mem_cons.1 hsteps).2).2
    obtain ⟨u, d', hu, hub, hd, h'⟩ := hpair.exists_acrossStep ht hs hc
    obtain rfl := Except.ok.inj (h.symm.trans h')
    rw [acrossSteps_cons h, acrossSteps_parted hpair ht hs hc hout h]
    exact ih hsteps hsteps' hu hub hd

/-- A way is like itself. -/
theorem alike_self (hsteps : ∀ step ∈ steps, IsStep step) (ht : Trail s steps.flatten t)
    (hs : s.size < Text.capacity) (hc : s.Valid c) : c.Alike steps steps := by
  induction steps generalizing s c with
  | nil => exact .done c
  | cons step steps ih =>
    obtain ⟨hstep, hsteps⟩ := List.forall_mem_cons.1 hsteps
    obtain ⟨u, d, ht, hu, hd, h⟩ := hstep.exists_acrossStep ht hs hc
    exact .step h (ih hsteps ht hu hd)

end Coord

/-! ## A buffer on its way -/

/-- A buffer as it was at a timestamp of a run. -/
structure Draft.Was (origin : Text) (d : Draft) (timestamp : ℕ) (b : Buffer) : Prop where
  id : b.id = d.buffer.id
  log : b.log = d.buffer.log.take timestamp
  text : b.text = d.textAt origin timestamp

namespace Reached

variable {origin : Text} {d d₁ : Draft} {b : Buffer} {m n : ℕ}

/-- A run that goes on leaves the buffers on its way as they were. -/
theorem was (h : Reached origin d₁) (he : d₁.Extends d) :
    d.Was origin d₁.buffer.timestamp d₁.buffer := by
  refine ⟨he.id.symm, List.prefix_iff_eq_take.1 he.log, ?_⟩
  rw [h.textAt_eq he le_rfl]
  exact h.chronicle.last.symm

/-- **The map between any two times of a run**, which is the one that the steps of the replay make. -/
theorem exists_image (h : Reached origin d) (hb : d.Was origin n b) (hmn : m ≤ n)
    (hn : n ≤ d.buffer.timestamp) :
    ∃ image, MoveBy (splitRuns (b.log.drop m)) (d.textAt origin m) b.text image ∧
      ∀ {c}, (d.textAt origin m).Valid c → c.acrossSteps (replay (b.log.drop m)) = .ok (image c) := by
  have htrail := h.chronicle.trail hmn hn
  have hsize := h.chronicle.small m (hmn.trans hn)
  rw [hb.log, hb.text]
  exact Caret.exists_moveBy htrail hsize

end Reached

theorem Draft.Was.timestamp_eq {origin : Text} {d : Draft} {b : Buffer} {n : ℕ}
    (hb : d.Was origin n b) (hn : n ≤ d.buffer.timestamp) : b.timestamp = n := by
  unfold Buffer.timestamp
  rw [hb.log, List.length_take]
  exact Nat.min_eq_left hn

namespace Selection

/-- Neither end notices a difference. -/
def Alike (s : Selection) (steps steps' : List (List Change)) : Prop :=
  s.anchor.Alike steps steps' ∧ s.cursor.Alike steps steps'

/-- Both ends moved twice. -/
theorem map_mapCoords_mapCoords {f g k : Coord → Coord} {items : List Selection}
    (h : ∀ s ∈ items, g (f s.anchor) = k s.anchor ∧ g (f s.cursor) = k s.cursor) :
    (items.map (mapCoords f)).map (mapCoords g) = items.map (mapCoords k) := by
  rw [List.map_map]
  refine List.map_congr_left fun s hs => ?_
  obtain ⟨hanchor, hcursor⟩ := h s hs
  unfold mapCoords
  dsimp only [Function.comp_apply]
  rw [hanchor, hcursor]

end Selection

namespace SelectionList

variable {origin : Text} {d : Draft} {b : Buffer} {timestamp : ℕ}

/-- A list that catches up with the buffer as it was at some time of a run. -/
theorem exists_update (h : Reached origin d) (hb : d.Was origin timestamp b)
    (ht : timestamp ≤ d.buffer.timestamp) (list : SelectionList) (hbuffer : list.buffer = d.buffer.id)
    (htime : list.timestamp ≤ timestamp)
    (hvalid : ∀ s ∈ list.group.items, s.ValidIn (d.textAt origin list.timestamp)) :
    ∃ image, Image (d.textAt origin list.timestamp) (d.textAt origin timestamp) image ∧
      (∀ {c}, (d.textAt origin list.timestamp).Valid c →
        c.acrossSteps (replay (b.log.drop list.timestamp)) = .ok (image c)) ∧
      list.update b false = .ok { list with
        group := { list.group with items := list.group.items.map (Selection.mapCoords image) }
        timestamp } := by
  obtain ⟨image, hmove, hsteps⟩ := h.exists_image hb htime ht
  have hstamp := hb.timestamp_eq ht
  have hupdate := update_false_eq (hbuffer.trans hb.id.symm) (htime.trans hstamp.ge) hmove hvalid
  rw [hstamp] at hupdate
  exact ⟨image, hb.text ▸ hmove.image, hsteps, hupdate⟩

/-- **Catching up on the way.** A list that catches up with the buffer as it was at some time, and then
with the present one, becomes what it becomes when it only catches up with the present one, provided
that the stop makes no difference to its anchors and cursors. It makes none if both ways replay the
same pairs together, and both do so if no erase reaches right up to the insert before it. -/
theorem update_update_eq_update (h : Reached origin d) (ht : timestamp ≤ d.buffer.timestamp)
    (hb : d.Was origin timestamp b) (list : SelectionList) (hbuffer : list.buffer = d.buffer.id)
    (htime : list.timestamp ≤ timestamp)
    (hvalid : ∀ s ∈ list.group.items, s.ValidIn (d.textAt origin list.timestamp)) :
    ((∀ s ∈ list.group.items, s.Alike (replayStopping d.buffer.log list.timestamp timestamp)
        (replay (d.buffer.log.drop list.timestamp))) →
      ∃ mid now, list.update b false = .ok mid ∧ mid.update d.buffer false = .ok now ∧
        list.update d.buffer false = .ok now) ∧
    (replayStopping d.buffer.log list.timestamp timestamp =
        replay (d.buffer.log.drop list.timestamp) →
      ∀ s ∈ list.group.items, s.Alike (replayStopping d.buffer.log list.timestamp timestamp)
        (replay (d.buffer.log.drop list.timestamp))) ∧
    (((d.buffer.log.drop list.timestamp).IsChain fun a b => ¬b.ErasesUpTo a) →
      replayStopping d.buffer.log list.timestamp timestamp =
        replay (d.buffer.log.drop list.timestamp)) := by
  have hnow : d.Was origin d.buffer.timestamp d.buffer := h.was (.refl d)
  have htrail := h.chronicle.trail_since (htime.trans ht)
  have hsmall := h.chronicle.small _ (htime.trans ht)
  refine ⟨fun halike => ?_, fun hsteps s hs => ?_, replayStopping_of_apart htime⟩
  · obtain ⟨f, hf, hfsteps, hmid⟩ := exists_update h hb ht list hbuffer htime hvalid
    have hvalid' : ∀ s ∈ list.group.items.map (Selection.mapCoords f),
        s.ValidIn (d.textAt origin timestamp) := by
      intro s hs
      obtain ⟨r, hr, rfl⟩ := List.mem_map.1 hs
      exact (hvalid r hr).map hf
    obtain ⟨g, -, hgsteps, hthen⟩ := exists_update h hnow le_rfl
      ⟨{ list.group with items := list.group.items.map (Selection.mapCoords f) }, list.buffer,
        timestamp⟩ hbuffer ht hvalid'
    obtain ⟨k, -, hksteps, hatonce⟩ :=
      exists_update h hnow le_rfl list hbuffer (htime.trans ht) hvalid
    have hsame : ∀ {c}, (d.textAt origin list.timestamp).Valid c →
        c.Alike (replayStopping d.buffer.log list.timestamp timestamp)
          (replay (d.buffer.log.drop list.timestamp)) → g (f c) = k c := by
      intro c hc hc'
      rw [← flatten_replayStopping _ htime] at htrail
      have hall := hc'.acrossSteps_eq (fun _ => isStep_of_mem_replayStopping)
        (fun _ => isStep_of_mem_replay) htrail hsmall hc
      have hfirst := hfsteps hc
      have hsecond := hgsteps (hf.valid hc)
      rw [hb.log] at hfirst
      unfold replayStopping at hall
      rw [Coord.acrossSteps_append hfirst, hsecond, hksteps hc] at hall
      exact Except.ok.inj hall
    have hitems := Selection.map_mapCoords_mapCoords fun s hs =>
      ⟨hsame (hvalid s hs).1 (halike s hs).1, hsame (hvalid s hs).2 (halike s hs).2⟩
    dsimp only at hthen
    rw [hitems] at hthen
    exact ⟨_, _, hmid, hthen, hatonce⟩
  · rw [← flatten_replay (d.buffer.log.drop list.timestamp)] at htrail
    rw [hsteps]
    exact ⟨Coord.alike_self (fun _ => isStep_of_mem_replay) htrail hsmall (hvalid s hs).1,
      Coord.alike_self (fun _ => isStep_of_mem_replay) htrail hsmall (hvalid s hs).2⟩

/-- A caret at a position. -/
def caretAt (c : Coord) (timestamp : ℕ) : SelectionList := ⟨⟨[⟨c, c, none, []⟩], 0⟩, 0, timestamp⟩

/-- A caret goes where the steps of the replay take it. -/
theorem update_caretAt (h : Reached origin d) (hid : d.buffer.id = 0) {c c' : Coord}
    (ht : timestamp ≤ d.buffer.timestamp) (hc : (d.textAt origin timestamp).Valid c)
    (hsteps : c.acrossSteps (replay (d.buffer.log.drop timestamp)) = .ok c') :
    (caretAt c timestamp).update d.buffer false = .ok (caretAt c' d.buffer.timestamp) := by
  have hnow : d.Was origin d.buffer.timestamp d.buffer := h.was (.refl d)
  have hvalid : ∀ s ∈ (caretAt c timestamp).group.items, s.ValidIn (d.textAt origin timestamp) := by
    intro s hs
    obtain rfl := List.mem_singleton.1 hs
    exact ⟨hc, hc⟩
  obtain ⟨image, -, himage, hupdate⟩ :=
    exists_update h hnow le_rfl (caretAt c timestamp) hid.symm ht hvalid
  have hgoes : image c = c' := Except.ok.inj ((himage hc).symm.trans hsteps)
  rw [hupdate, ← hgoes]
  rfl

/-- A small text to begin with. -/
def beforeEdits : Draft := { buffer := Buffer.ofText 0 ['a', 'b', 'c'] {} }

/-- An insert and an erase right up to its place. -/
def pairScript : List Command := [.insert ⟨0, 2⟩ ['X'], .erase ⟨0, 0⟩ ⟨0, 2⟩]

/-- What the first edits come to. -/
def afterEdits (n : ℕ) : Draft :=
  match beforeEdits.run (pairScript.take n) with
  | .ok d => d
  | .error _ => default

theorem reached_afterEdits {n : ℕ} (h : beforeEdits.run (pairScript.take n) = .ok (afterEdits n)) :
    Reached ['a', 'b', 'c'] (afterEdits n) := by
  have hkeeps : ∀ command ∈ pairScript, command.KeepsRecording false := by
    simp [pairScript, Command.KeepsRecording]
  exact ⟨0, {}, _, by decide, fun command hc => hkeeps command (List.mem_of_mem_take hc), h⟩

/-- A list that catches up between the insert and the erase, with both ends of its selection outside
of what is taken out. -/
theorem update_update_eq_update_sample :
    ∃ mid now,
      SelectionList.update ⟨⟨[⟨⟨0, 0⟩, ⟨0, 3⟩, none, []⟩], 0⟩, 0, 0⟩ (afterEdits 1).buffer false =
        .ok mid ∧
      mid.update (afterEdits 2).buffer false = .ok now ∧
      SelectionList.update ⟨⟨[⟨⟨0, 0⟩, ⟨0, 3⟩, none, []⟩], 0⟩, 0, 0⟩ (afterEdits 2).buffer false =
        .ok now := by
  have hone : Reached ['a', 'b', 'c'] (afterEdits 1) := reached_afterEdits (by decide +kernel)
  have hboth : Reached ['a', 'b', 'c'] (afterEdits 2) := reached_afterEdits (by decide +kernel)
  have hrun : (afterEdits 1).run [.erase ⟨0, 0⟩ ⟨0, 2⟩] = .ok (afterEdits 2) := by decide +kernel
  have hwas := hone.was (Draft.run_extends hrun)
  have hvalid : ∀ s ∈ [(⟨⟨0, 0⟩, ⟨0, 3⟩, none, []⟩ : Selection)],
      s.ValidIn ((afterEdits 2).textAt ['a', 'b', 'c'] 0) := by
    simp only [Selection.ValidIn]
    decide
  have hstopping : replayStopping (afterEdits 2).buffer.log 0 1 =
      [[⟨.insert, ⟨0, 2⟩, ⟨0, 3⟩⟩], [⟨.erase, ⟨0, 0⟩, ⟨0, 2⟩⟩]] := by decide +kernel
  have hatonce : replay ((afterEdits 2).buffer.log.drop 0) =
      [[⟨.insert, ⟨0, 2⟩, ⟨0, 3⟩⟩, ⟨.erase, ⟨0, 0⟩, ⟨0, 2⟩⟩]] := by decide +kernel
  have halike : ∀ s ∈ [(⟨⟨0, 0⟩, ⟨0, 3⟩, none, []⟩ : Selection)],
      s.Alike (replayStopping (afterEdits 2).buffer.log 0 1)
        (replay ((afterEdits 2).buffer.log.drop 0)) := by
    intro s hs
    obtain rfl := List.mem_singleton.1 hs
    rw [hstopping, hatonce]
    exact ⟨.parted (.inl (by decide)) rfl (.done _), .parted (.inr (by decide)) rfl (.done _)⟩
  have hagree := update_update_eq_update hboth (by decide +kernel) hwas
    ⟨⟨[⟨⟨0, 0⟩, ⟨0, 3⟩, none, []⟩], 0⟩, 0, 0⟩ rfl (by decide +kernel) hvalid
  exact hagree.1 halike

/-- A list that catches up between the insert and the erase has its caret in front of the text put in.
For one that waits the pair is a single step, and the caret comes to stand behind that text. -/
theorem update_update_ne_update :
    beforeEdits.run [.insert ⟨0, 2⟩ ['X']] = .ok (afterEdits 1) ∧
      (afterEdits 1).run [.erase ⟨0, 0⟩ ⟨0, 2⟩] = .ok (afterEdits 2) ∧
      (∀ s ∈ (caretAt ⟨0, 1⟩ 0).group.items, s.ValidIn beforeEdits.buffer.text) ∧
      (caretAt ⟨0, 1⟩ 0).update (afterEdits 1).buffer false = .ok (caretAt ⟨0, 1⟩ 1) ∧
      (caretAt ⟨0, 1⟩ 1).update (afterEdits 2).buffer false = .ok (caretAt ⟨0, 0⟩ 2) ∧
      (caretAt ⟨0, 1⟩ 0).update (afterEdits 2).buffer false = .ok (caretAt ⟨0, 1⟩ 2) ∧
      caretAt ⟨0, 0⟩ 2 ≠ caretAt ⟨0, 1⟩ 2 := by
  have hinsert : beforeEdits.run [.insert ⟨0, 2⟩ ['X']] = .ok (afterEdits 1) := by decide +kernel
  have herase : (afterEdits 1).run [.erase ⟨0, 0⟩ ⟨0, 2⟩] = .ok (afterEdits 2) := by decide +kernel
  have hone : Reached ['a', 'b', 'c'] (afterEdits 1) := reached_afterEdits hinsert
  have hpair : Reached ['a', 'b', 'c'] (afterEdits 2) := reached_afterEdits (by decide +kernel)
  have hvalid : ∀ s ∈ (caretAt ⟨0, 1⟩ 0).group.items, s.ValidIn beforeEdits.buffer.text := by
    simp only [Selection.ValidIn]
    decide
  have hstop : (caretAt ⟨0, 1⟩ 0).update (afterEdits 1).buffer false = .ok (caretAt ⟨0, 1⟩ 1) :=
    update_caretAt hone rfl (by decide +kernel) (by decide +kernel) (by decide +kernel)
  have hthen : (caretAt ⟨0, 1⟩ 1).update (afterEdits 2).buffer false = .ok (caretAt ⟨0, 0⟩ 2) :=
    update_caretAt hpair rfl (by decide +kernel) (by decide +kernel) (by decide +kernel)
  have hatonce : (caretAt ⟨0, 1⟩ 0).update (afterEdits 2).buffer false = .ok (caretAt ⟨0, 1⟩ 2) :=
    update_caretAt hpair rfl (by decide +kernel) (by decide +kernel) (by decide +kernel)
  exact ⟨hinsert, herase, hvalid, hstop, hthen, hatonce, by decide⟩

end SelectionList

end Caret
