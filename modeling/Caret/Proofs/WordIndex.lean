import Caret.Proofs.Continuation
import Caret.Proofs.Patch
import Caret.Proofs.WordCounts
import Caret.Unicode.WordSplit

/-!
# Word indexes that are kept up to date

An index follows its buffer through a run and is updated now and then. Each update only splits the
lines that were modified since the last one, and yet comes to the index that splitting the entire
text would give.

* `WordIndex.Patch.At`: how far a patch has come, with one lemma for a modification.
* `WordIndex.Holds`: an index that holds the words of a text.
* `WordIndex.Kept`: an index that may have fallen behind its buffer.
* `WordIndex.update_follow_eq_ofBuffer`: updates at any points of a run.
-/

namespace Caret

namespace Lines

variable {α β : Type} {a b : Lines α} {o n : ℕ} {mods : List LineModification}

/-- What a function makes of each line. -/
def map (f : α → β) (a : Lines α) : Lines β := ⟨fun n => f (a.line n), a.count⟩

theorem Same.map (f : α → β) {gap : ℕ} (h : Same a b o n gap) :
    Same (a.map f) (b.map f) o n gap := fun i hi => congrArg f (h i hi)

theorem Aligned.map (f : α → β) (h : Aligned a b o n mods) :
    Aligned (a.map f) (b.map f) o n mods := by
  induction mods generalizing o n with
  | nil =>
    obtain ⟨gap, ho, hn, hs⟩ := h
    exact ⟨gap, ho, hn, fun i => congrArg f (hs i)⟩
  | cons m mods ih =>
    obtain ⟨gap, ho, hn, hs, h⟩ := h
    exact ⟨gap, ho, hn, hs.map f, ih h⟩

theorem take_drop_toList {k : ℕ} (h : n + k ≤ a.count) :
    (a.toList.drop n).take k = (List.range k).map fun i => a.line (n + i) := by
  apply List.ext_getElem?
  intro i
  rw [List.getElem?_take, List.getElem?_drop, List.getElem?_map]
  split
  · rename_i hi
    rw [getElem?_toList (by omega), List.getElem?_range hi, Option.map_some]
  · rename_i hi
    rw [List.getElem?_eq_none (by rw [List.length_range]; omega), Option.map_none]

/-- Lines that are the same all along. -/
theorem toList_congr {gap : ℕ} (h : Same a b 0 0 gap) (ha : a.count = gap) (hb : b.count = gap) :
    a.toList = b.toList := by
  unfold toList
  rw [ha, hb]
  refine List.map_congr_left fun i hi => ?_
  have := h i (List.mem_range.1 hi)
  rwa [Nat.zero_add] at this

end Lines

open WordCounts

namespace WordIndex

variable {split : Text → List Word} {s t origin : Text} {b : Buffer} {x : WordIndex}
  {mods : List LineModification}

/-- The words of a text by line. -/
def wordsByLine (split : Text → List Word) (t : Text) : Lines (List Word) :=
  t.byLine.map fun line => (split line).filter (·.length < Word.maxLength)

/-! ## Patches -/

/-- A patch has passed the old lines up to `o` and holds the new lines up to `n`. What it counts are
the words of these and of the old lines that are still to come. -/
structure Patch.At (a b : Lines (List Word)) (o n : ℕ) (p : Patch) : Prop where
  passed : p.passed = o
  old : p.old = a.toList.drop o
  new : p.new = b.toList.take n
  counts : p.counts.Tallies (p.new.flatten ++ p.old.flatten)

/-- **One modification.** Behind lines that are the same it takes the patch to its end. -/
theorem Patch.At.exists_patch {a : Lines (List Word)} {o n gap : ℕ} {p : Patch}
    {m : LineModification} (hp : p.At a (wordsByLine split t) o n) (ho : m.oldLine = o + gap)
    (hn : m.newLine = n + gap) (hsame : Lines.Same a (wordsByLine split t) o n gap)
    (hold : m.oldLine + m.removed ≤ a.count)
    (hnew : m.newLine + m.added ≤ (wordsByLine split t).count) :
    ∃ p', patch split t p m = .ok p' ∧
      p'.At a (wordsByLine split t) (m.oldLine + m.removed) (m.newLine + m.added) := by
  have hgap : m.oldLine - o = gap := by omega
  -- the lines that are kept, those that go and those that come
  have hkeep : (a.toList.drop o).take gap = ((wordsByLine split t).toList.drop n).take gap := by
    have := hsame.extract (by omega) (by omega)
    rwa [List.extract_eq_take_drop, List.extract_eq_take_drop, Nat.add_sub_cancel_left,
      Nat.add_sub_cancel_left] at this
  have hkept : p.new ++ p.old.take gap = (wordsByLine split t).toList.take m.newLine := by
    rw [hp.new, hp.old, hkeep, hn, List.take_add]
  have hrest : p.old.drop gap = a.toList.drop m.oldLine := by
    rw [hp.old, List.drop_drop, ho]
  have hadded : ((List.range m.added).map fun i => lineWords split t (m.newLine + i)) =
      ((wordsByLine split t).toList.drop m.newLine).take m.added :=
    (Lines.take_drop_toList hnew).symm
  have hlength : (p.new ++ p.old.take gap).length = m.newLine := by
    rw [hkept, List.length_take, Lines.toList_length]
    omega
  -- what is counted, with the lines that go in front
  have hperm : (p.new.flatten ++ p.old.flatten).Perm
      (((p.old.drop gap).take m.removed).flatten ++
        ((p.new ++ p.old.take gap).flatten ++ ((p.old.drop gap).drop m.removed).flatten)) := by
    have hsplit : p.old = p.old.take gap ++ ((p.old.drop gap).take m.removed ++
        (p.old.drop gap).drop m.removed) := by
      rw [List.take_append_drop, List.take_append_drop]
    conv_lhs => rw [hsplit]
    rw [List.flatten_append, List.flatten_append, List.flatten_append, ← List.append_assoc,
      ← List.append_assoc, ← List.append_assoc]
    exact List.perm_append_comm.append_right _
  obtain ⟨counts, hremove, htally⟩ := (hp.counts.perm hperm).exists_removeLines
  have hpatch : patch split t p m = .ok ⟨m.oldLine + m.removed, (p.old.drop gap).drop m.removed,
      p.new ++ p.old.take gap ++ ((wordsByLine split t).toList.drop m.newLine).take m.added,
      (((wordsByLine split t).toList.drop m.newLine).take m.added).foldl addAll counts⟩ := by
    unfold patch
    rw [Fault.unless_of (by rw [hp.passed]; omega), Fault.ok_bind]
    dsimp only
    rw [hp.passed, hgap, Fault.unless_of hlength, Fault.ok_bind, hremove, hadded]
    rfl
  refine ⟨_, hpatch, rfl, ?_, ?_, ?_⟩
  · dsimp only
    rw [hrest, List.drop_drop]
  · dsimp only
    rw [hkept, List.take_add]
  · refine (htally.addLines _).perm ?_
    dsimp only
    generalize p.new ++ p.old.take gap = kept
    rw [List.flatten_append, List.append_assoc, List.append_assoc]
    exact List.perm_append_comm.append_left _

/-- **The modifications of an update**, one after another. -/
theorem Patch.At.exists_patches {a : Lines (List Word)} {o n : ℕ} {p : Patch}
    (hp : p.At a (wordsByLine split t) o n) (h : Lines.Aligned a (wordsByLine split t) o n mods) :
    ∃ p', mods.foldlM (patch split t) p = .ok p' ∧
      p'.new ++ p'.old = (wordsByLine split t).toList ∧
      p'.counts.Tallies (wordsByLine split t).toList.flatten := by
  induction mods generalizing o n p with
  | nil =>
    -- the lines behind the last modification are the same
    obtain ⟨gap, ho, hn, hsame⟩ := h.same
    have hlines : p.new ++ p.old = (wordsByLine split t).toList := by
      have hdrop := hsame.extract ho.ge hn.ge
      rw [← ho, ← hn, ← Lines.toList_length a, ← Lines.toList_length (wordsByLine split t),
        ← List.drop_eq_extract, ← List.drop_eq_extract] at hdrop
      rw [hp.new, hp.old, hdrop, List.take_append_drop]
    refine ⟨p, rfl, hlines, ?_⟩
    rw [← hlines, List.flatten_append]
    exact hp.counts
  | cons m mods ih =>
    have hcount := h.mem_le_count m List.mem_cons_self
    obtain ⟨gap, ho, hn, hsame, h⟩ := h
    obtain ⟨p₁, hp₁, hat⟩ := hp.exists_patch ho hn hsame hcount.1 hcount.2
    obtain ⟨p', hp', hlines, hcounts⟩ := ih hat h
    refine ⟨p', ?_, hlines, hcounts⟩
    rw [List.foldlM_cons, hp₁, Fault.ok_bind, hp']

/-! ## Indexes -/

/-- **An index that holds the words of a text**: line by line, and counted as a whole. -/
structure Holds (split : Text → List Word) (x : WordIndex) (t : Text) : Prop where
  lines : x.lines = (wordsByLine split t).toList
  counts : x.counts.Tallies x.lines.flatten

theorem holds_ofBuffer (split : Text → List Word) (b : Buffer) :
    (ofBuffer split b).Holds split b.text :=
  ⟨rfl, Tallies.nil.addLines _⟩

/-- **There is only one index of a buffer** as it is now. -/
theorem Holds.eq_ofBuffer (h : x.Holds split b.text) (hw : x.watcher = .ofBuffer b) :
    x = ofBuffer split b := by
  have hlines : x.lines = (ofBuffer split b).lines := h.lines
  have hcounts : x.counts = (ofBuffer split b).counts :=
    (hlines ▸ h.counts).unique (holds_ofBuffer split b).counts
  obtain ⟨watcher, lines, counts⟩ := x
  cases hw
  cases hlines
  cases hcounts
  rfl

/-- **An update is a rebuild** once the modifications account for how the lines that the index holds
became those of the buffer. -/
theorem Holds.update_eq (h : x.Holds split s) (hb : x.watcher.buffer = b.id)
    (hmods : b.lineModifications x.watcher.timestamp = .ok mods)
    (ha : Lines.Aligned s.byLine b.text.byLine 0 0 mods) :
    x.update split b = .ok (ofBuffer split b) := by
  have hwatcher : { x.watcher with timestamp := b.timestamp } = LineWatcher.ofBuffer b := by
    rw [LineWatcher.ofBuffer, ← hb]
  have hquery : x.watcher.query b = .ok (mods, .ofBuffer b) := by
    unfold LineWatcher.query
    rw [Fault.unless_of hb, Fault.ok_bind, hmods, Fault.ok_bind, hwatcher]
    rfl
  have halign : Lines.Aligned (wordsByLine split s) (wordsByLine split b.text) 0 0 mods :=
    ha.map _
  unfold update
  rw [hquery, Fault.ok_bind]
  dsimp only
  split
  · -- no line was modified since
    rename_i hempty
    rw [List.isEmpty_iff.1 hempty] at halign
    obtain ⟨gap, ho, hn, hsame⟩ := halign.same
    rw [Nat.zero_add] at ho hn
    have hlines := h.lines.trans (Lines.toList_congr hsame ho hn)
    exact congrArg Except.ok (Holds.eq_ofBuffer ⟨hlines, h.counts⟩ rfl)
  · have hstart : Patch.At (wordsByLine split s) (wordsByLine split b.text) 0 0
        ⟨0, x.lines, [], x.counts⟩ := ⟨rfl, h.lines, rfl, h.counts⟩
    obtain ⟨p, hp, hlines, hcounts⟩ := hstart.exists_patches halign
    have hcount : (wordsByLine split b.text).toList.length = b.text.lineCount :=
      Lines.toList_length _
    rw [hp, Fault.ok_bind, hlines, Fault.unless_of hcount, Fault.ok_bind]
    exact congrArg Except.ok (Holds.eq_ofBuffer ⟨rfl, hcounts⟩ rfl)

end WordIndex

/-! ## Runs -/

/-- The line modifications since any timestamp of a run align the lines of that time with the present
ones. -/
theorem Reached.exists_aligned {origin : Text} {d : Draft} {timestamp : ℕ} (h : Reached origin d)
    (ht : timestamp ≤ d.buffer.timestamp) :
    ∃ mods, d.buffer.lineModifications timestamp = .ok mods ∧
      Lines.Aligned (d.textAt origin timestamp).byLine d.buffer.text.byLine 0 0 mods := by
  have hc := h.chronicle
  have hsize := hc.small timestamp ht
  obtain ⟨records, mods, hrecords, hmods, htracks⟩ :=
    (hc.trail_since ht).exists_steps (Text.lineCount_le hsize) hsize (Text.tracks_nil _)
  refine ⟨_, ?_, htracks.aligned.filter⟩
  unfold Buffer.lineModifications LineModification.fold
  rw [Buffer.logSince_eq ht, Fault.ok_bind, hrecords, Fault.ok_bind]
  unfold LineModification.steps at hmods
  rw [hmods]
  rfl

namespace WordIndex

variable {split : Text → List Word} {origin : Text} {d d' : Draft} {x : WordIndex}

/-- What can happen to a buffer that is indexed. -/
inductive Step
  | edit (command : Command)
  | update

/-- The commands among the steps. -/
def Step.command? : Step → Option Command
  | .edit command => some command
  | .update => none

/-- A buffer and an index of it after one step. -/
def step (split : Text → List Word) : Draft × WordIndex → Step → Except Fault (Draft × WordIndex)
  | (d, x), .edit command => do return (← d.perform command, x)
  | (d, x), .update => do return (d, ← x.update split d.buffer)

/-- A buffer and an index of it after some steps. -/
def follow (split : Text → List Word) (steps : List Step) (state : Draft × WordIndex) :
    Except Fault (Draft × WordIndex) := steps.foldlM (step split) state

/-- **The invariant of an index that follows its buffer.** It holds the words of the text at its
timestamp. -/
structure Kept (split : Text → List Word) (origin : Text) (d : Draft) (x : WordIndex) : Prop where
  reached : Reached origin d
  buffer : x.watcher.buffer = d.buffer.id
  past : x.watcher.timestamp ≤ d.buffer.timestamp
  holds : x.Holds split (d.textAt origin x.watcher.timestamp)

theorem Kept.ofBuffer (split : Text → List Word) (h : Reached origin d) :
    Kept split origin d (WordIndex.ofBuffer split d.buffer) := by
  refine ⟨h, rfl, le_rfl, ?_⟩
  have hlast : d.textAt origin (WordIndex.ofBuffer split d.buffer).watcher.timestamp =
      d.buffer.text := h.chronicle.last
  rw [hlast]
  exact holds_ofBuffer split d.buffer

theorem Kept.perform {command : Command} (h : Kept split origin d x)
    (hk : command.KeepsRecording d.buffer.options.flags.noUndo)
    (hp : d.perform command = .ok d') : Kept split origin d' x := by
  have hext := Draft.perform_extends hp
  refine ⟨(h.reached.perform hk hp).1, h.buffer.trans hext.id.symm,
    h.past.trans hext.timestamp_le, ?_⟩
  rw [h.reached.textAt_eq hext h.past]
  exact h.holds

/-- **An update is a rebuild.** -/
theorem Kept.update_eq (h : Kept split origin d x) :
    x.update split d.buffer = .ok (WordIndex.ofBuffer split d.buffer) := by
  obtain ⟨mods, hmods, halign⟩ := h.reached.exists_aligned h.past
  exact h.holds.update_eq h.buffer hmods halign

/-- Any steps that the buffer can go through keep the invariant. -/
theorem Kept.follow {steps : List Step} (h : Kept split origin d x)
    (hk : ∀ command ∈ steps.filterMap Step.command?,
      command.KeepsRecording d.buffer.options.flags.noUndo)
    (hr : d.run (steps.filterMap Step.command?) = .ok d') :
    ∃ x', WordIndex.follow split steps (d, x) = .ok (d', x') ∧ Kept split origin d' x' := by
  induction steps generalizing d x with
  | nil =>
    cases hr
    exact ⟨x, rfl, h⟩
  | cons s steps ih =>
    unfold WordIndex.follow
    rw [List.foldlM_cons]
    cases s with
    | update =>
      obtain ⟨x', hx', hkept⟩ := ih (Kept.ofBuffer split h.reached) hk hr
      refine ⟨x', ?_, hkept⟩
      rw [step, h.update_eq, Fault.ok_bind, Fault.pure_eq_ok, Fault.ok_bind]
      exact hx'
    | edit command =>
      unfold Draft.run at hr
      rw [List.filterMap_cons_some (f := Step.command?) rfl, List.foldlM_cons, Fault.bind_eq_ok] at hr
      obtain ⟨d₁, hd₁, hr⟩ := hr
      have hcommand := hk command List.mem_cons_self
      have hrec := (h.reached.perform hcommand hd₁).2
      obtain ⟨x', hx', hkept⟩ := ih (h.perform hcommand hd₁)
        (fun c hc => hrec ▸ hk c (List.mem_cons_of_mem _ hc)) hr
      refine ⟨x', ?_, hkept⟩
      rw [step, hd₁, Fault.ok_bind, Fault.pure_eq_ok, Fault.ok_bind]
      exact hx'

/-- **Updates at any points of a run.** An index built at one point of a run and updated at any later
ones can always be brought up to date, and then is the index of the present text: it has exactly the
words that occur on the lines, each with the number of its occurrences. -/
theorem update_follow_eq_ofBuffer (split : Text → List Word) (steps : List Step)
    (h : Reached origin d)
    (hk : ∀ command ∈ steps.filterMap Step.command?,
      command.KeepsRecording d.buffer.options.flags.noUndo)
    (hr : d.run (steps.filterMap Step.command?) = .ok d') :
    ∃ x, WordIndex.follow split steps (d, .ofBuffer split d.buffer) = .ok (d', x) ∧
      x.update split d'.buffer = .ok (.ofBuffer split d'.buffer) ∧
      ∀ w n, (w, n) ∈ (WordIndex.ofBuffer split d'.buffer).counts ↔
        0 < n ∧ (WordIndex.ofBuffer split d'.buffer).lines.flatten.count w = n := by
  obtain ⟨x, hx, hkept⟩ := (Kept.ofBuffer split h).follow hk hr
  have hcounts := (holds_ofBuffer split d'.buffer).counts
  refine ⟨x, hx, hkept.update_eq, fun w n => ?_⟩
  rw [hcounts.canonical.mem_iff, hcounts.count]

/-- The small run of `Reached.script` with an update on the way. -/
def sampleSteps : List Step :=
  [.edit (.insert ⟨0, 1⟩ ['x', '\n']), .update, .edit .commitGroup, .edit (.erase ⟨0, 0⟩ ⟨1, 0⟩),
    .edit .undo]

theorem update_follow_eq_ofBuffer_sample :
    ∃ x, WordIndex.follow Unicode.words sampleSteps
        ({ buffer := .ofText 0 ['a', 'b'] {} }, .ofBuffer Unicode.words (.ofText 0 ['a', 'b'] {})) =
        .ok (Reached.sample, x) ∧
      x.update Unicode.words Reached.sample.buffer =
        .ok ⟨⟨0, 3⟩, [[['a', 'x']], [['b']]], [(['a', 'x'], 1), (['b'], 1)]⟩ := by
  have hstart : Reached ['a', 'b'] { buffer := .ofText 0 ['a', 'b'] {} } :=
    ⟨0, {}, [], by decide, by simp, rfl⟩
  have hkeeps : ∀ command ∈ sampleSteps.filterMap Step.command?, command.KeepsRecording false := by
    show ∀ command ∈ Reached.script, command.KeepsRecording false
    simp [Reached.script, Command.KeepsRecording]
  obtain ⟨x, hx, hupdate, -⟩ := update_follow_eq_ofBuffer Unicode.words sampleSteps hstart hkeeps rfl
  have heval : ofBuffer Unicode.words Reached.sample.buffer =
      ⟨⟨0, 3⟩, [[['a', 'x']], [['b']]], [(['a', 'x'], 1), (['b'], 1)]⟩ := by decide +kernel
  exact ⟨x, hx, heval ▸ hupdate⟩

end WordIndex

end Caret
