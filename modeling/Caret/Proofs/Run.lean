import Caret.Proofs.History

/-!
# Runs of edits

A fresh buffer on which a script of commands is performed. Refused commands are passed over; a
broken contract ends the run, and there is only one that a run can break: a text that grows beyond
its capacity.

* `Draft.run`: a script performed on a draft.
* `Chronicle`: the log describes how each text of a run became the next.
* `Draft.Sound`, `Draft.run_sound`: what holds after every run, and that no run breaks a contract
  other than the size of a text.
* `Chronicle.trail`: the texts between any two moments of a run.
-/

namespace Caret

/-- What the owner of a buffer can ask of it. -/
inductive Command
  | insert (start : Coord) (new : Text)
  | erase (start stop : Coord)
  | replace (start stop : Coord) (new : Text)
  | commitGroup
  | undo
  | redo
  | setFlags (flags : Flags)

namespace Command

/-- The computation that a command stands for. -/
def act : Command → EditM Unit
  | .insert start new => discard (EditM.insert start new)
  | .erase start stop => discard (EditM.erase start stop)
  | .replace start stop new => discard (EditM.replace start stop new)
  | .commitGroup => EditM.commitGroup
  | .undo => discard EditM.undo
  | .redo => discard EditM.redo
  | .setFlags flags => EditM.setFlags flags

/-- The command does not switch whether edits are recorded. -/
def KeepsRecording (noUndo : Bool) : Command → Prop
  | .setFlags flags => flags.noUndo = noUndo
  | _ => True

end Command

namespace Draft

/-- The draft after a command, refused or not. A broken contract ends the run. -/
def perform (d : Draft) (command : Command) : Except Fault Draft :=
  match command.act.resume d with
  | (.error (.fault f), _) => .error f
  | (_, d') => .ok d'

/-- The draft after a script of commands. -/
def run (d : Draft) (script : List Command) : Except Fault Draft := script.foldlM perform d

/-- The texts of a run that began with `origin`, one for each timestamp. -/
def texts (d : Draft) (origin : Text) : List Text := origin :: d.revisions.map (·.after.text)

/-- The text at a timestamp. -/
def textAt (d : Draft) (origin : Text) (timestamp : ℕ) : Text :=
  (d.texts origin)[timestamp]?.getD d.buffer.text

end Draft

/-- A run that began with a fresh buffer over `origin` and has come to `d`. Edits were recorded for
undo all the time, or never. -/
def Reached (origin : Text) (d : Draft) : Prop :=
  ∃ id options script, origin.size < Text.capacity ∧
    (∀ command ∈ script, Command.KeepsRecording options.flags.noUndo command) ∧
    Draft.run { buffer := Buffer.ofText id origin options } script = .ok d

theorem Buffer.logSince_eq {b : Buffer} {timestamp : ℕ} (h : timestamp ≤ b.timestamp) :
    b.logSince timestamp = .ok (b.log.drop timestamp) := by
  unfold logSince
  rw [Fault.unless_of h]
  rfl

theorem Draft.timestamp_advance (d : Draft) (t : Text) (change : Change) :
    (d.advance t change).buffer.timestamp = d.buffer.timestamp + 1 :=
  List.length_append

/-! ## The log -/

/-- **The log describes the texts.** Each change of the log takes the text at its timestamp to the
next one, the last text is that of the buffer, and all of them are within capacity. -/
structure Chronicle (origin : Text) (d : Draft) : Prop where
  count : d.revisions.length = d.buffer.log.length
  last : d.textAt origin d.buffer.timestamp = d.buffer.text
  step : ∀ n (change : Change), d.buffer.log[n]? = some change →
    change.Takes (d.textAt origin n) (d.textAt origin (n + 1))
  small : ∀ n, n ≤ d.buffer.timestamp → (d.textAt origin n).size < Text.capacity

namespace Chronicle

variable {origin t : Text} {d : Draft} {change : Change}

theorem size_lt (h : Chronicle origin d) : d.buffer.text.size < Text.capacity :=
  h.last ▸ h.small _ le_rfl

theorem textAt_advance_of_le (h : Chronicle origin d) {n : ℕ} (hn : n ≤ d.buffer.timestamp) :
    (d.advance t change).textAt origin n = d.textAt origin n := by
  have hlen : n < (d.texts origin).length := by
    simp only [Draft.texts, List.length_cons, List.length_map, h.count]
    exact Nat.lt_succ_of_le hn
  have happ : (d.advance t change).texts origin = d.texts origin ++ [t] := by
    simp [Draft.texts, Draft.advance]
  unfold Draft.textAt
  rw [happ, List.getElem?_append_left hlen, List.getElem?_eq_getElem hlen, Option.getD_some,
    Option.getD_some]

theorem textAt_advance_last (h : Chronicle origin d) :
    (d.advance t change).textAt origin (d.buffer.timestamp + 1) = t := by
  have hlen : d.buffer.timestamp + 1 = (d.texts origin).length := by
    simp only [Draft.texts, List.length_cons, List.length_map, h.count]
    rfl
  have happ : (d.advance t change).texts origin = d.texts origin ++ [t] := by
    simp [Draft.texts, Draft.advance]
  unfold Draft.textAt
  rw [happ, hlen, List.getElem?_concat_length, Option.getD_some]

/-- One more change. -/
theorem advance (h : Chronicle origin d) (hc : change.Takes d.buffer.text t)
    (ht : t.size < Text.capacity) : Chronicle origin (d.advance t change) := by
  have hts := d.timestamp_advance t change
  refine ⟨by simp [Draft.advance, h.count], ?_, ?_, ?_⟩
  · rw [hts, h.textAt_advance_last]; rfl
  · -- earlier changes lie between earlier texts, which have not changed
    intro n c hn
    have hlog : (d.advance t change).buffer.log = d.buffer.log ++ [change] := rfl
    rw [hlog] at hn
    rcases Nat.lt_or_ge n d.buffer.log.length with hl | hl
    · rw [List.getElem?_append_left hl] at hn
      rw [h.textAt_advance_of_le hl.le, h.textAt_advance_of_le hl]
      exact h.step n c hn
    · rw [List.getElem?_append_right hl] at hn
      have hn0 : n = d.buffer.timestamp := by
        have := (List.getElem?_eq_some_iff.1 hn).1
        rw [List.length_singleton] at this
        unfold Buffer.timestamp; omega
      subst hn0
      rw [h.textAt_advance_of_le le_rfl, h.textAt_advance_last, h.last]
      have hcc : change = c := by simpa [Buffer.timestamp] using hn
      exact hcc ▸ hc
  · intro n hn
    rw [hts] at hn
    rcases Nat.eq_or_lt_of_le hn with he | hl
    · rw [he, h.textAt_advance_last]; exact ht
    · rw [h.textAt_advance_of_le (Nat.le_of_lt_succ hl)]; exact h.small n (Nat.le_of_lt_succ hl)

/-- What is done to a buffer without touching text and log. -/
theorem congr {d' : Draft} (h : Chronicle origin d) (hr : d'.revisions = d.revisions)
    (ht : d'.buffer.text = d.buffer.text) (hl : d'.buffer.log = d.buffer.log) :
    Chronicle origin d' := by
  have hts : d'.buffer.timestamp = d.buffer.timestamp := by unfold Buffer.timestamp; rw [hl]
  have hat : ∀ n, d'.textAt origin n = d.textAt origin n := by
    intro n; unfold Draft.textAt Draft.texts; rw [hr, ht]
  exact ⟨by rw [hr, hl, h.count], by rw [hat, hts, ht, h.last],
    fun n c hn => by rw [hat, hat]; exact h.step n c (hl ▸ hn),
    fun n hn => by rw [hat]; exact h.small n (hts ▸ hn)⟩

/-- **The texts between two moments.** -/
theorem trail (h : Chronicle origin d) {n m : ℕ} (hnm : n ≤ m) (hm : m ≤ d.buffer.timestamp) :
    Trail (d.textAt origin n) ((d.buffer.log.take m).drop n) (d.textAt origin m) := by
  induction m with
  | zero =>
    obtain rfl : n = 0 := by omega
    rfl
  | succ m ih =>
    rcases Nat.eq_or_lt_of_le hnm with he | hl
    · have hnil : (d.buffer.log.take (m + 1)).drop n = [] := by
        rw [List.drop_eq_nil_iff, List.length_take]; omega
      rw [hnil, he]; rfl
    · -- the changes up to `m`, and the one between `m` and `m + 1`
      have hm' : m < d.buffer.log.length := hm
      have hsplit : (d.buffer.log.take (m + 1)).drop n =
          (d.buffer.log.take m).drop n ++ [d.buffer.log[m]] := by
        rw [List.take_succ_eq_append_getElem hm', List.drop_append_of_le_length]
        rw [List.length_take]; omega
      rw [hsplit, Trail.append_iff]
      refine ⟨d.textAt origin m, ih (by omega) (by omega), d.textAt origin (m + 1), ?_,
        h.small _ hm, rfl⟩
      exact h.step m _ (List.getElem?_eq_getElem hm')

/-- The texts from a moment to the present. -/
theorem trail_since (h : Chronicle origin d) {n : ℕ} (hn : n ≤ d.buffer.timestamp) :
    Trail (d.textAt origin n) (d.buffer.log.drop n) d.buffer.text := by
  have ht := h.trail hn le_rfl
  rw [h.last, Buffer.timestamp, List.take_length] at ht
  exact ht

end Chronicle

/-! ## The invariant of a run -/

/-- **The invariant of a run.** The log describes the texts, and the history fits the present one;
it holds nothing where edits are not recorded. -/
structure Draft.Sound (origin : Text) (noUndo : Bool) (d : Draft) : Prop where
  chronicle : Chronicle origin d
  history : d.buffer.history.Fits d.buffer.text
  recording : d.buffer.options.flags.noUndo = noUndo
  blank : noUndo = true → d.buffer.history.Blank

namespace EditM

variable {α β : Type} {origin : Text} {noUndo : Bool}

/-- The computation keeps the invariant, also where it is refused, and can break no contract but
that on the size of a text. -/
def Keeps (origin : Text) (noUndo : Bool) (act : EditM α) : Prop :=
  ∀ d, d.Sound origin noUndo →
    (∃ d', d'.Sound origin noUndo ∧
      ((∃ a, act.resume d = (.ok a, d')) ∨ ∃ e, act.resume d = (.error (.error e), d'))) ∨
    ∃ d', act.resume d = (.error (.fault .tooLarge), d')

theorem Keeps.bind {act : EditM α} {f : α → EditM β} (h : Keeps origin noUndo act)
    (hf : ∀ a, Keeps origin noUndo (f a)) : Keeps origin noUndo (act >>= f) := by
  intro d hd
  rcases h d hd with ⟨d', hd', ⟨a, ha⟩ | ⟨e, he⟩⟩ | ⟨d', hd'⟩
  · rw [resume_bind_ok ha]; exact hf a d' hd'
  · rw [resume_bind_error he]; exact .inl ⟨d', hd', .inr ⟨e, rfl⟩⟩
  · rw [resume_bind_error hd']; exact .inr ⟨d', rfl⟩

theorem Keeps.discard {act : EditM α} (h : Keeps origin noUndo act) :
    Keeps origin noUndo (discard act) := by
  intro d hd
  rw [resume_discard]
  rcases h d hd with ⟨d', hd', ⟨a, ha⟩ | ⟨e, he⟩⟩ | ⟨d', hd'⟩
  · rw [ha]; exact .inl ⟨d', hd', .inl ⟨(), rfl⟩⟩
  · rw [he]; exact .inl ⟨d', hd', .inr ⟨e, rfl⟩⟩
  · rw [hd']; exact .inr ⟨d', rfl⟩

theorem Keeps.sound {act : EditM α} {d d' : Draft} {a : α} (h : Keeps origin noUndo act)
    (hd : d.Sound origin noUndo) (hr : act.resume d = (.ok a, d')) : d'.Sound origin noUndo := by
  rcases h d hd with ⟨d₁, hd₁, ⟨b, hb⟩ | ⟨e, he⟩⟩ | ⟨d₁, hf⟩
  · rw [hr] at hb
    cases hb
    exact hd₁
  · rw [hr] at he
    cases he
  · rw [hr] at hf
    cases hf

/-- A recorded change. -/
theorem sound_record_advance {d : Draft} {m : RecordedEdit} {change : Change} {t : Text}
    (h : d.Sound origin noUndo) (hm : m.Takes d.buffer.text t)
    (hc : change.Takes d.buffer.text t) (ht : t.size < Text.capacity) :
    ((d.record m).advance t change).Sound origin noUndo := by
  unfold Draft.record
  by_cases hno : d.buffer.options.flags.noUndo = true
  · rw [if_pos hno]
    have hb := h.blank (h.recording ▸ hno)
    exact ⟨h.chronicle.advance hc ht, hb.fits ht, h.recording, h.blank⟩
  · rw [if_neg hno]
    have hchronicle : Chronicle origin { d with buffer :=
        { d.buffer with history := d.buffer.history.record m } } := h.chronicle.congr rfl rfl rfl
    refine ⟨hchronicle.advance hc ht,
      h.history.record hm ht, h.recording, fun hn => absurd (h.recording.trans hn) hno⟩

theorem keeps_insert (start : Coord) (new : Text) : Keeps origin noUndo (insert start new) := by
  intro d hd
  rcases insert_cases d start new hd.chronicle.size_lt with ⟨-, e, he⟩ | ⟨-, -, ha⟩ | ⟨d', hf⟩ |
    ⟨before, after, htext, rfl, hne, hsize, hr⟩
  · exact .inl ⟨d, hd, .inr ⟨e, he⟩⟩
  · exact .inl ⟨d, hd, .inl ⟨_, ha⟩⟩
  · exact .inr ⟨d', hf⟩
  · refine .inl ⟨_, sound_record_advance hd ?_ ?_ hsize, .inl ⟨_, hr⟩⟩
    · rw [htext]; exact .insert before new after hne
    · rw [htext]; exact .insert before new after hne

theorem keeps_erase (start stop : Coord) : Keeps origin noUndo (erase start stop) := by
  intro d hd
  rcases erase_cases d start stop hd.chronicle.size_lt with ⟨e, he⟩ | ⟨-, -, ha⟩ |
    ⟨before, mid, after, htext, hne, rfl, rfl, hr⟩
  · exact .inl ⟨d, hd, .inr ⟨e, he⟩⟩
  · exact .inl ⟨d, hd, .inl ⟨_, ha⟩⟩
  · have hsize := hd.chronicle.size_lt
    rw [htext, Text.size_append, Text.size_append] at hsize
    refine .inl ⟨_, sound_record_advance hd ?_ ?_ ?_, .inl ⟨_, hr⟩⟩
    · rw [htext]; exact .erase before mid after hne
    · rw [htext]; exact .erase before mid after hne
    · rw [Text.size_append]; omega

theorem keeps_replace (start stop : Coord) (new : Text) :
    Keeps origin noUndo (replace start stop new) :=
  (keeps_erase start stop).bind fun c => keeps_insert c new

/-- **Replaying a group.** Recorded edits that lead on from the text are all made, each of them is
logged, and nothing but text and log changes. -/
theorem resume_replay {ms : List RecordedEdit} {f : RecordedEdit → RecordedEdit} {d : Draft}
    {t : Text} (h : RecordedEdit.Lead (ms.map f) d.buffer.text t) (hd : Chronicle origin d) :
    ∃ d', (ms.forM fun m => reapply (f m)).resume d = (.ok (), d') ∧ Chronicle origin d' ∧
      d'.buffer.text = t ∧ d'.buffer.history = d.buffer.history ∧
      d'.buffer.options = d.buffer.options ∧
      d'.buffer.timestamp = d.buffer.timestamp + ms.length := by
  induction ms generalizing d with
  | nil => exact ⟨d, rfl, hd, h, rfl, rfl, rfl⟩
  | cons m ms ih =>
    obtain ⟨u, hu, hub, h⟩ := h
    -- the edit made again is logged as a change of its own
    obtain ⟨change, hc, hr⟩ := resume_reapply hu hd.size_lt hub
    obtain ⟨d', hr', hd', ht, hh, ho, hn⟩ := ih (d := d.advance u change) h (hd.advance hc hub)
    refine ⟨d', ?_, hd', ht, hh, ho, ?_⟩
    · show (reapply (f m) >>= fun _ => ms.forM fun m => reapply (f m)).resume d = _
      rw [resume_bind_ok hr, hr']
    · rw [hn, List.length_cons, Nat.add_comm ms.length, ← Nat.add_assoc, Draft.timestamp_advance]

/-- **A group that is undone**, once it is known which text it leads on from. -/
theorem exists_resume_undo {d : Draft} {group : EditGroup} {h : History} {s : Text}
    (hd : Chronicle origin d) (hro : d.buffer.options.flags.readOnly = false)
    (hp : d.buffer.history.popDone = (some group, h)) (hs : s.size < Text.capacity)
    (hl : RecordedEdit.Lead group s d.buffer.text) :
    ∃ d', undo.resume d = (.ok (some group.length), d') ∧ Chronicle origin d' ∧
      d'.buffer.text = s ∧ d'.buffer.history = h.pushUndone group ∧
      d'.buffer.options = d.buffer.options ∧
      d'.buffer.timestamp = d.buffer.timestamp + group.length := by
  obtain ⟨d', hr, hd', ht, hh, ho, hn⟩ := resume_replay (d := d.withHistory h) (hl.reverse hs)
    (hd.congr rfl rfl rfl)
  refine ⟨_, resume_undo_some hro hp hr, hd'.congr rfl rfl rfl, ht, ?_, ho, ?_⟩
  · show d'.buffer.history.pushUndone group = _
    rw [hh]
    rfl
  · rw [List.length_reverse] at hn
    exact hn

/-- **A group that is redone**, once it is known which text it leads to. -/
theorem exists_resume_redo {d : Draft} {group : EditGroup} {h : History} {s : Text}
    (hd : Chronicle origin d) (hro : d.buffer.options.flags.readOnly = false)
    (hp : d.buffer.history.popUndone = (some group, h))
    (hl : RecordedEdit.Lead group d.buffer.text s) :
    ∃ d', redo.resume d = (.ok (some group.length), d') ∧ Chronicle origin d' ∧
      d'.buffer.text = s ∧ d'.buffer.history = h.pushDone group ∧
      d'.buffer.options = d.buffer.options ∧
      d'.buffer.timestamp = d.buffer.timestamp + group.length := by
  have hlead : RecordedEdit.Lead (group.map id) (d.withHistory h).buffer.text s := by
    rw [List.map_id]
    exact hl
  obtain ⟨d', hr, hd', ht, hh, ho, hn⟩ := resume_replay hlead (hd.congr rfl rfl rfl)
  refine ⟨_, resume_redo_some hro hp hr, hd'.congr rfl rfl rfl, ht, ?_, ho, hn⟩
  show d'.buffer.history.pushDone group = _
  rw [hh]
  rfl

/-- Another history that fits, and holds nothing where edits are not recorded. -/
theorem sound_withHistory {d : Draft} {h : History} (hd : Chronicle origin d)
    (hr : d.buffer.options.flags.noUndo = noUndo) (hf : h.Fits d.buffer.text)
    (hb : noUndo = true → h.Blank) : (d.withHistory h).Sound origin noUndo :=
  ⟨hd.congr rfl rfl rfl, hf, hr, hb⟩

theorem keeps_commitGroup : Keeps origin noUndo commitGroup := by
  intro d hd
  refine .inl ⟨d.withHistory d.buffer.history.commit, ?_, .inl ⟨(), rfl⟩⟩
  refine sound_withHistory hd.chronicle hd.recording (hd.history.commit hd.chronicle.size_lt) ?_
  intro hn
  rw [(hd.blank hn).commit]
  exact hd.blank hn

theorem keeps_setFlags {flags : Flags} (h : flags.noUndo = noUndo) :
    Keeps origin noUndo (setFlags flags) := fun d hd =>
  .inl ⟨{ d with buffer := { d.buffer with options := { d.buffer.options with flags } } },
    ⟨hd.chronicle.congr rfl rfl rfl, hd.history, h, hd.blank⟩, .inl ⟨(), rfl⟩⟩

theorem resume_undo_readOnly {d : Draft} (hro : d.buffer.options.flags.readOnly = true) :
    undo.resume d = (.ok none, d) := by
  unfold undo
  rw [resume_bind_ok (resume_buffer d), hro]
  rfl

theorem resume_redo_readOnly {d : Draft} (hro : d.buffer.options.flags.readOnly = true) :
    redo.resume d = (.ok none, d) := by
  unfold redo
  rw [resume_bind_ok (resume_buffer d), hro]
  rfl

theorem keeps_undo : Keeps origin noUndo undo := by
  intro d hd
  have hs := hd.chronicle.size_lt
  cases hro : d.buffer.options.flags.readOnly with
  | true => exact .inl ⟨d, hd, .inl ⟨none, resume_undo_readOnly hro⟩⟩
  | false =>
    rcases hd.history.popDone hs with hp | ⟨group, h, s, hp, hsb, hl, hf⟩
    · refine .inl ⟨_, sound_withHistory hd.chronicle hd.recording (hd.history.commit hs) ?_,
        .inl ⟨none, resume_undo_none hro hp⟩⟩
      intro hn
      rw [(hd.blank hn).commit]
      exact hd.blank hn
    · -- there was a group to undo, so edits are recorded
      have hno : noUndo ≠ true := by
        intro hn
        rw [(hd.blank hn).popDone] at hp
        cases hp
      obtain ⟨d', hr, hd', ht, hh, ho, -⟩ := exists_resume_undo hd.chronicle hro hp hsb hl
      exact .inl ⟨d', ⟨hd', by rw [hh, ht]; exact hf, ho ▸ hd.recording, fun hn => absurd hn hno⟩,
        .inl ⟨_, hr⟩⟩

theorem keeps_redo : Keeps origin noUndo redo := by
  intro d hd
  have hs := hd.chronicle.size_lt
  cases hro : d.buffer.options.flags.readOnly with
  | true => exact .inl ⟨d, hd, .inl ⟨none, resume_redo_readOnly hro⟩⟩
  | false =>
    rcases hd.history.popUndone hs with hp | ⟨group, h, s, hp, hl, hf⟩
    · exact .inl ⟨_, sound_withHistory hd.chronicle hd.recording hd.history hd.blank,
        .inl ⟨none, resume_redo_none hro hp⟩⟩
    · -- there was a group to redo, so edits are recorded
      have hno : noUndo ≠ true := by
        intro hn
        rw [(hd.blank hn).popUndone] at hp
        cases hp
      obtain ⟨d', hr, hd', ht, hh, ho, -⟩ := exists_resume_redo hd.chronicle hro hp hl
      exact .inl ⟨d', ⟨hd', by rw [hh, ht]; exact hf, ho ▸ hd.recording, fun hn => absurd hn hno⟩,
        .inl ⟨_, hr⟩⟩

theorem keeps_act {command : Command} (h : command.KeepsRecording noUndo) :
    Keeps origin noUndo command.act := by
  cases command with
  | insert start new => exact (keeps_insert start new).discard
  | erase start stop => exact (keeps_erase start stop).discard
  | replace start stop new => exact (keeps_replace start stop new).discard
  | commitGroup => exact keeps_commitGroup
  | undo => exact keeps_undo.discard
  | redo => exact keeps_redo.discard
  | setFlags flags => exact keeps_setFlags h

end EditM

namespace Draft

variable {origin : Text} {noUndo : Bool} {d : Draft}

/-- One command. -/
theorem perform_sound {command : Command} (hd : d.Sound origin noUndo)
    (hc : command.KeepsRecording noUndo) :
    (∃ d', d.perform command = .ok d' ∧ d'.Sound origin noUndo) ∨
      d.perform command = .error .tooLarge := by
  unfold perform
  rcases EditM.keeps_act hc d hd with ⟨d', hd', ⟨a, ha⟩ | ⟨e, he⟩⟩ | ⟨d', hd'⟩
  · rw [ha]; exact .inl ⟨d', rfl, hd'⟩
  · rw [he]; exact .inl ⟨d', rfl, hd'⟩
  · rw [hd']; exact .inr rfl

/-- **Every run is sound**, and the only contract that it can break is that on the size of a
text. -/
theorem run_sound {script : List Command} (hd : d.Sound origin noUndo)
    (hs : ∀ command ∈ script, command.KeepsRecording noUndo) :
    (∃ d', d.run script = .ok d' ∧ d'.Sound origin noUndo) ∨ d.run script = .error .tooLarge := by
  induction script generalizing d with
  | nil => exact .inl ⟨d, rfl, hd⟩
  | cons command script ih =>
    unfold run
    rw [List.foldlM_cons]
    rcases perform_sound hd (hs command List.mem_cons_self) with ⟨d', hp, hd'⟩ | hp
    · rw [hp, Fault.ok_bind]; exact ih hd' fun c hc => hs c (List.mem_cons_of_mem _ hc)
    · rw [hp]; exact .inr rfl

/-- What a command leaves is sound. -/
theorem Sound.perform {d' : Draft} {command : Command} (hd : d.Sound origin noUndo)
    (hc : command.KeepsRecording noUndo) (hp : d.perform command = .ok d') :
    d'.Sound origin noUndo := by
  rcases perform_sound hd hc with ⟨d₁, hd₁, hsound⟩ | hf
  · rw [hp] at hd₁
    cases hd₁
    exact hsound
  · rw [hp] at hf
    cases hf

/-- What a script leaves is sound. -/
theorem Sound.run {d' : Draft} {script : List Command} (hd : d.Sound origin noUndo)
    (hs : ∀ command ∈ script, command.KeepsRecording noUndo) (hr : d.run script = .ok d') :
    d'.Sound origin noUndo := by
  rcases run_sound hd hs with ⟨d₁, hd₁, hsound⟩ | hf
  · rw [hr] at hd₁
    cases hd₁
    exact hsound
  · rw [hr] at hf
    cases hf

theorem sound_ofText (id : BufferId) {origin : Text} (options : Options)
    (h : origin.size < Text.capacity) :
    Sound origin options.flags.noUndo { buffer := Buffer.ofText id origin options } := by
  have hat : ∀ n, textAt { buffer := Buffer.ofText id origin options } origin n = origin := by
    intro n; cases n <;> rfl
  refine ⟨⟨rfl, hat _, ?_, fun n _ => by rw [hat]; exact h⟩,
    History.Blank.fits ⟨rfl, rfl, rfl⟩ h, rfl, fun _ => ⟨rfl, rfl, rfl⟩⟩
  intro n change hn
  simp [Buffer.ofText] at hn

end Draft

/-! ## What a run has come to -/

namespace Reached

variable {origin : Text} {d : Draft}

theorem chronicle (h : Reached origin d) : Chronicle origin d := by
  obtain ⟨id, options, script, hs, hk, hr⟩ := h
  have hsound := (Draft.sound_ofText id options hs).run hk hr
  exact hsound.chronicle

/-- A small run: a line break put into a line, and a deletion that is undone. -/
def script : List Command :=
  [.insert ⟨0, 1⟩ ['x', '\n'], .commitGroup, .erase ⟨0, 0⟩ ⟨1, 0⟩, .undo]

/-- What the small run comes to. -/
def sample : Draft :=
  match Draft.run { buffer := Buffer.ofText 0 ['a', 'b'] {} } script with
  | .ok d => d
  | .error _ => default

theorem of_script : Reached ['a', 'b'] sample :=
  ⟨0, {}, script, by decide, by simp [script, Command.KeepsRecording], rfl⟩

end Reached

end Caret
