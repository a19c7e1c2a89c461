import Caret.Proofs.Exchange
import Caret.Proofs.Publication

/-!
# Refused edits

The checked edits are refused before anything is done: when the buffer is read-only, when a coordinate
is not a position, or when two of them are in the wrong order. All else is carried out to the end, as
long as the listeners can take it. Replacing is erasing and inserting, and where the erased text was
there is still a position to insert at.

* `Request`: what callers ask for.
* `Request.resume_of_refusal`, `Request.exists_resume`: what requests do to a draft.
* `Workspace.Attends`, `WorkspaceM.exists_tellAll`: listeners that can be told.
* `Request.refused_or_done`: requests in a workspace.
-/

namespace Caret

/-- An edit of a buffer that is asked for. -/
inductive Request
  | insert (start : Coord) (new : Text)
  | erase (start stop : Coord)
  | replace (start stop : Coord) (new : Text)
  deriving DecidableEq, Repr, Inhabited

namespace Request

/-- Where the text begins that is to give way. -/
def start : Request → Coord
  | insert start _ => start
  | erase start _ => start
  | replace start _ _ => start

/-- Where the text ends that is to give way. -/
def stop : Request → Coord
  | insert start _ => start
  | erase _ stop => stop
  | replace _ stop _ => stop

/-- The text that is to take its place. -/
def new : Request → Text
  | insert _ new => new
  | erase _ _ => []
  | replace _ _ new => new

/-- The edit itself. What is left of an erased text is an empty span. -/
def act : Request → EditM Span
  | insert start new => EditM.insert start new
  | erase start stop => (fun c => ⟨c, c⟩) <$> EditM.erase start stop
  | replace start stop new => EditM.replace start stop new

/-- The text that is asked for is within capacity. -/
def Fits (q : Request) (t : Text) : Prop :=
  ∀ before mid after, t = before ++ mid ++ after → q.start = before.extent →
    q.stop = (before ++ mid).extent → (before ++ q.new ++ after).size < Text.capacity

/-- **What a request asks for**: the text between two positions gives way to another one, which is
then what lies between the two coordinates that come back. -/
def Done (q : Request) (t : Text) (e : Span) (t' : Text) : Prop :=
  ∃ before mid after, t = before ++ mid ++ after ∧ q.start = before.extent ∧
    q.stop = (before ++ mid).extent ∧ t' = before ++ q.new ++ after ∧
    e = ⟨before.extent, (before ++ q.new).extent⟩

variable {q : Request} {d : Draft} {e : EditError}

/-- A text leaves room for another one if there is room for both of them. -/
theorem fits_of_size_add_lt {t : Text} (h : t.size + q.new.size < Text.capacity) : q.Fits t := by
  rintro before mid after rfl - -
  simp only [Text.size_append] at h ⊢
  omega

/-- **What comes back** are positions, and between them is the text that was given. -/
theorem Done.delimits {t t' : Text} {span : Span} (h : q.Done t span t') (hfits : q.Fits t) :
    t'.Valid span.start ∧ t'.Valid span.stop ∧ t'.between span.start span.stop = .ok q.new := by
  obtain ⟨before, mid, after, ht, hstart, hstop, rfl, rfl⟩ := h
  have hs := hfits before mid after ht hstart hstop
  refine ⟨?_, Text.valid_extent_append _ _, EditM.between_extent hs⟩
  rw [List.append_assoc]
  exact Text.valid_extent_append before (q.new ++ after)

/-! ## Drafts -/

/-- **A request is refused** before anything is done. -/
theorem resume_of_refusal (h : d.buffer.refusal q.start q.stop = some e) :
    q.act.resume d = (.error (.error e), d) := by
  have herase : (EditM.erase q.start q.stop).resume d = (.error (.error e), d) := by
    rw [EditM.resume_erase_eq, h]
  cases q with
  | insert start new =>
    have hrefusal : d.buffer.refusal start start = some e := h
    unfold act
    rw [EditM.resume_insert_eq, hrefusal]
  | erase start stop =>
    unfold Request.start Request.stop at herase
    unfold act
    rw [EditM.resume_map, herase]
  | replace start stop new =>
    -- nothing is erased, and so nothing is put in
    exact EditM.resume_bind_error herase

/-- **A request is carried out** if it is not refused. -/
theorem exists_resume (hs : d.buffer.text.size < Text.capacity) (hfits : q.Fits d.buffer.text)
    (h : d.buffer.refusal q.start q.stop = none) :
    ∃ span d', q.act.resume d = (.ok span, d') ∧ q.Done d.buffer.text span d'.buffer.text := by
  obtain ⟨hw, hvalid, hvalid', hle⟩ := Buffer.refusal_eq_none_iff.1 h
  obtain ⟨before, mid, after, ht, hstart, hstop⟩ := Text.exists_pieces hvalid hvalid' hle
  have hs' := hfits before mid after ht hstart hstop
  rw [ht] at hs
  refine ⟨⟨before.extent, (before ++ q.new).extent⟩, ?_⟩
  suffices hdone : ∃ d', q.act.resume d = (.ok ⟨before.extent, (before ++ q.new).extent⟩, d') ∧
      d'.buffer.text = before ++ q.new ++ after by
    obtain ⟨d', hresume, htext⟩ := hdone
    exact ⟨d', hresume, before, mid, after, ht, hstart, hstop, htext, rfl⟩
  cases q with
  | insert start new =>
    cases hstart
    -- both ends are the same position, so that nothing is in between
    have hmid : mid = [] := by
      by_contra hne
      exact absurd hstop (Text.extent_lt_append before hne).ne
    subst hmid
    rw [List.append_nil] at ht
    obtain ⟨d', hresume, hbecame⟩ := EditM.exists_resume_insert ht hw hs'
    exact ⟨d', hresume, hbecame.text⟩
  | erase start stop =>
    cases hstart
    cases hstop
    obtain ⟨d', hresume, hbecame⟩ := EditM.exists_resume_erase ht hw hs
    refine ⟨d', ?_, ?_⟩
    · unfold act new
      rw [EditM.resume_map, hresume, List.append_nil]
    · unfold new
      rw [hbecame.text, List.append_nil]
  | replace start stop new =>
    cases hstart
    cases hstop
    obtain ⟨d', hresume, hbecame⟩ := EditM.exists_resume_replace ht hw hs hs'
    exact ⟨d', hresume, hbecame.text⟩

end Request

/-! ## Listeners -/

/-- **Listeners that can be told**: none of them is held, and all live lists can follow. -/
structure Workspace.Attends (w : Workspace) (held : Option ListenerKey) (calls : List Call) : Prop where
  free : ∀ c ∈ calls, held ≠ some c.entry.listener
  follows : ∀ l ∈ w.liveLists.values, ∃ l', l.followCalls calls = .ok l'

/-- Changing all values where each of them can be changed. -/
theorem Table.exists_mapValues {α : Type} {f : α → Except Fault α} {t : Table α}
    (h : ∀ a ∈ t.values, ∃ b, f a = .ok b) :
    ∃ t', t.mapValues f = .ok t' ∧ ∀ b ∈ t'.values, ∃ a ∈ t.values, f a = .ok b := by
  have hentry : ∀ entry ∈ t, ∃ entry' : String × α, (do return (entry.1, ← f entry.2)) = Except.ok entry' := by
    intro entry hmem
    obtain ⟨b, hb⟩ := h entry.2 (List.mem_map_of_mem hmem)
    exact ⟨(entry.1, b), by rw [hb]; rfl⟩
  obtain ⟨t', ht', hmap⟩ := Fault.exists_mapM_eq_ok hentry
  refine ⟨t', ht', fun b hb => ?_⟩
  obtain ⟨entry', hmem', rfl⟩ := List.mem_map.1 hb
  have hok := List.mem_map_of_mem (f := Except.ok (ε := Fault)) hmem'
  rw [hmap] at hok
  obtain ⟨entry, hmem, heq⟩ := List.mem_map.1 hok
  obtain ⟨c, hc, hpair⟩ := Fault.bind_eq_ok.1 heq
  cases hpair
  exact ⟨entry.2, List.mem_map_of_mem hmem, hc⟩

namespace WorkspaceM

variable {w : Workspace} {name : String} {host : Host} {held : Option ListenerKey} {c : Call}
  {calls : List Call}

/-- **One listener told**, while the others wait. -/
theorem exists_tell (h : w.Attends held (c :: calls)) :
    ∃ w', (tell held c).resume w = (.ok (), w') ∧ w'.Attends held calls := by
  have hfollow : ∀ l ∈ w.liveLists.values, ∃ l', l.followCall c = .ok l' := by
    intro l hl
    obtain ⟨r, hr⟩ := h.follows l hl
    obtain ⟨l', hl', -⟩ := Fault.bind_eq_ok.1 (LiveList.followCalls_cons _ c calls ▸ hr)
    exact ⟨l', hl'⟩
  obtain ⟨liveLists, hlive, hfollowed⟩ := Table.exists_mapValues hfollow
  obtain ⟨recorders, hrecorders⟩ : ∃ recorders, w.recorders.mapValues (fun recorder =>
      pure (if recorder.key = c.entry.listener then recorder.see c.revision else recorder)) = .ok recorders :=
    ⟨_, Table.mapValues_pure⟩
  refine ⟨{ w with liveLists, recorders }, ?_, ?_, ?_⟩
  · unfold LiveList.followCall at hlive
    unfold tell notify
    rw [if_neg (h.free c List.mem_cons_self), resume_bind_ok (show resume get w = (.ok w, w) from rfl), hlive,
      hrecorders]
    rfl
  · exact fun c' hc' => h.free c' (List.mem_cons_of_mem c hc')
  · intro l' hl'
    obtain ⟨l, hl, hstep⟩ := hfollowed l' hl'
    obtain ⟨r, hr⟩ := h.follows l hl
    obtain ⟨l'', hstep', hrest⟩ := Fault.bind_eq_ok.1 (LiveList.followCalls_cons _ c calls ▸ hr)
    cases Except.ok.inj (hstep.symm.trans hstep')
    exact ⟨r, hrest⟩

/-- **All listeners told**. -/
theorem exists_tellAll (h : w.Attends held calls) :
    ∃ w', (calls.forM (tell held)).resume w = (.ok (), w') ∧ Heard calls w w' := by
  suffices htold : ∃ w', (calls.forM (tell held)).resume w = (.ok (), w') by
    obtain ⟨w', hw'⟩ := htold
    exact ⟨w', hw', ends_tellAll.ok hw'⟩
  induction calls generalizing w with
  | nil => exact ⟨w, rfl⟩
  | cons c calls ih =>
    obtain ⟨w₁, htell, hattends⟩ := exists_tell h
    obtain ⟨w', hw'⟩ := ih hattends
    exact ⟨w', (resume_bind_ok htell).trans hw'⟩

/-- An edit that changes nothing and tells nothing. -/
theorem resume_editHolding_of_exec {α : Type} {act : EditM α} {outcome : Except Failure α}
    (hget : w.hosts.get? name = some host) (hexec : act.exec host.buffer = (outcome, { buffer := host.buffer })) :
    (editHolding held name act).resume w = (outcome, w) := by
  have hput : ({ w with hosts := w.hosts.put name host } : Workspace) = w := by
    rw [Table.put_of_get? hget]
  unfold editHolding
  rw [resume_bind_ok (resume_named hget), hexec]
  exact congrArg (Prod.mk outcome) hput

/-- **An edit that comes to an end** and whose listeners attend. -/
theorem exists_editHolding {α : Type} {act : EditM α} {a : α} {d : Draft}
    (hget : w.hosts.get? name = some host) (hexec : act.exec host.buffer = (.ok a, d))
    (hattends : w.Attends held (Call.all (host.registry.prune w.listenerAlive).entries d.revisions)) :
    ∃ w' host', (editHolding held name act).resume w = (.ok a, w') ∧
      w'.hosts.get? name = some host' ∧ host'.buffer = d.buffer := by
  obtain ⟨w₁, hedit, -, hlives, -, -, hhost⟩ : ∃ w₁, (editHolding held name act).resume w = _ ∧ _ :=
    resume_editHolding hget
  rw [hexec] at hedit hhost
  have hattends₁ : w₁.Attends held (Call.all (host.registry.prune w.listenerAlive).entries d.revisions) :=
    ⟨hattends.free, hlives ▸ hattends.follows⟩
  obtain ⟨w', htold, hheard⟩ := exists_tellAll hattends₁
  refine ⟨w', _, ?_, hheard.hosts ▸ hhost, rfl⟩
  rw [hedit, resume_bind_ok htold]
  rfl

end WorkspaceM

namespace Request

variable {w : Workspace} {name : String} {host : Host} {held : Option ListenerKey}

/-- The calls that an edit leads to. -/
def calls (q : Request) (w : Workspace) (host : Host) : List Call :=
  Call.all (host.registry.prune w.listenerAlive).entries (q.act.exec host.buffer).2.revisions

/-- **Requests are refused exactly when they should, and refused requests change nothing.** When the
buffer is read-only, a coordinate is not a position, or the end precedes the begin, there is an error,
and the workspace is the one from before: text, log, history, listeners and all else. Any other request
is carried out. The text between the two coordinates gives way to the one that was given, which is
then between the two coordinates that come back. -/
theorem refused_or_done (q : Request) (hget : w.hosts.get? name = some host)
    (hsmall : host.buffer.text.size < Text.capacity) (hfits : q.Fits host.buffer.text)
    (hattends : w.Attends held (q.calls w host)) :
    (host.buffer.Refuses q.start q.stop → ∃ e, host.buffer.refusal q.start q.stop = some e ∧
      (WorkspaceM.editHolding held name q.act).resume w = (.error (.error e), w)) ∧
    (¬host.buffer.Refuses q.start q.stop → ∃ span w' host',
      (WorkspaceM.editHolding held name q.act).resume w = (.ok span, w') ∧
      w'.hosts.get? name = some host' ∧ q.Done host.buffer.text span host'.buffer.text ∧
      host'.buffer.text.Valid span.start ∧ host'.buffer.text.Valid span.stop ∧
      host'.buffer.text.between span.start span.stop = .ok q.new) := by
  constructor
  · intro h
    obtain ⟨e, he⟩ := Buffer.exists_refusal_iff.2 h
    refine ⟨e, he, WorkspaceM.resume_editHolding_of_exec hget ?_⟩
    exact resume_of_refusal (d := { buffer := host.buffer }) he
  · intro h
    rw [← Buffer.exists_refusal_iff, ← Option.ne_none_iff_exists', not_not] at h
    obtain ⟨span, d, hresume, hdone⟩ := exists_resume (d := { buffer := host.buffer }) hsmall hfits h
    have hexec : q.act.exec host.buffer = (.ok span, d) := hresume
    unfold calls at hattends
    rw [hexec] at hattends
    obtain ⟨w', host', hedit, hget', hbuffer⟩ := WorkspaceM.exists_editHolding hget hexec hattends
    rw [← hbuffer] at hdone
    exact ⟨span, w', host', hedit, hget', hdone, hdone.delimits hfits⟩

/-- A buffer with a live list behind its second character. -/
def sampleHost : Host :=
  { buffer := Buffer.ofText 0 ['a', 'é', 'b'] {}
    registry := { entries := [⟨0, 7⟩], nextId := 1, registered := 1 } }

def sampleWorkspace : Workspace :=
  { hosts := [("b", sampleHost)]
    liveLists := [("l", ⟨7, ⟨[Selection.point ⟨0, 3⟩], 0⟩, 0, some 0⟩)] }

/-- A replacement with its ends in the wrong order, and in the right one. -/
theorem refused_or_done_sample :
    (∃ e, (WorkspaceM.editHolding none "b" (replace ⟨0, 3⟩ ⟨0, 1⟩ ['x', '\n']).act).resume sampleWorkspace =
      (.error (.error e), sampleWorkspace)) ∧
    ∃ span w' host', (WorkspaceM.editHolding none "b" (replace ⟨0, 1⟩ ⟨0, 3⟩ ['x', '\n']).act).resume
        sampleWorkspace = (.ok span, w') ∧
      w'.hosts.get? "b" = some host' ∧
      (replace ⟨0, 1⟩ ⟨0, 3⟩ ['x', '\n']).Done ['a', 'é', 'b'] span host'.buffer.text := by
  have hattends : ∀ q : Request, (∃ l, LiveList.followCalls ⟨7, ⟨[Selection.point ⟨0, 3⟩], 0⟩, 0, some 0⟩
      (q.calls sampleWorkspace sampleHost) = .ok l) →
      sampleWorkspace.Attends none (q.calls sampleWorkspace sampleHost) := by
    intro q hfollows
    exact ⟨fun _ _ h => (nomatch h), fun l hl => by rw [List.mem_singleton.1 hl]; exact hfollows⟩
  obtain ⟨hrefused, -⟩ := refused_or_done (replace ⟨0, 3⟩ ⟨0, 1⟩ ['x', '\n'])
    (show sampleWorkspace.hosts.get? "b" = some sampleHost from rfl) (by decide)
    (fits_of_size_add_lt (by decide)) (hattends _ ⟨_, rfl⟩)
  obtain ⟨-, hdone⟩ := refused_or_done (replace ⟨0, 1⟩ ⟨0, 3⟩ ['x', '\n'])
    (show sampleWorkspace.hosts.get? "b" = some sampleHost from rfl) (by decide)
    (fits_of_size_add_lt (by decide)) (hattends _ ⟨_, rfl⟩)
  obtain ⟨e, -, hunchanged⟩ := hrefused (.inr (.inr (.inr (by decide))))
  obtain ⟨span, w', host', hedit, hget, hreplaced, -⟩ := hdone (by unfold Buffer.Refuses; decide)
  exact ⟨⟨e, hunchanged⟩, span, w', host', hedit, hget, hreplaced⟩

end Request

end Caret
