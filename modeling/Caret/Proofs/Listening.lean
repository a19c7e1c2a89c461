import Caret.Proofs.Log
import Caret.Proofs.Publication
import Caret.Workspace.Observers

/-!
# What listeners are told

Runs on one buffer, in which the buffer is edited and listeners are registered, removed, made and lost
in any order.

* `Deed`, `Deed.run`, `Deed.callsOf`: what is done, and the calls that come of it.
* `Deed.Passes`: what any part of a run does to the buffer, its registry and the calls.
* `Deed.calls_of_kept`: the calls on account of a registration while it lasts.
* `Deed.run_heard`: each registration is told of each change that it lasts for, once and in order.
-/

namespace Caret

/-! ## Revisions and the log -/

/-- The revisions are those of the log, each with a timestamp of its own. -/
structure Draft.Numbered (d : Draft) : Prop where
  log : d.buffer.log = d.revisions.map Revision.change
  timestamps : ∀ i r, d.revisions[i]? = some r → r.after.timestamp = i + 1

theorem Draft.Numbered.length {d : Draft} (h : d.Numbered) : d.revisions.length = d.buffer.timestamp := by
  have hlog := congrArg List.length h.log
  rw [List.length_map] at hlog
  exact hlog.symm

theorem Draft.Numbered.advance {d : Draft} (h : d.Numbered) (t : Text) (change : Change) :
    (d.advance t change).Numbered := by
  refine ⟨by simp [Draft.advance, h.log], fun i r hi => ?_⟩
  unfold Draft.advance at hi
  rcases Nat.lt_or_ge i d.revisions.length with hlt | hge
  · rw [List.getElem?_append_left hlt] at hi
    exact h.timestamps i r hi
  · rw [List.getElem?_append_right hge] at hi
    obtain ⟨hzero, rfl⟩ := List.getElem?_eq_some_iff.1 hi
    have hi' : i = d.revisions.length := by
      have hlen : i - d.revisions.length < 1 := hzero
      omega
    simp [Buffer.timestamp, h.log, hi']

theorem Draft.numbered_invariant : Draft.Invariant Draft.Numbered where
  adjust _ _ h _ _ hlog := ⟨hlog.trans h.log, h.timestamps⟩
  insertAt _ change _ _ text h _ := h.advance text change
  removeRange _ change _ _ text h _ := h.advance text change

namespace Reached

variable {origin : Text} {d : Draft} {i : ℕ} {r : Revision}

theorem numbered (h : Reached origin d) : d.Numbered := by
  obtain ⟨id, options, script, -, -, hr⟩ := h
  exact Draft.numbered_invariant.run ⟨rfl, fun i r hi => by cases hi⟩ hr

theorem length_revisions (h : Reached origin d) : d.revisions.length = d.buffer.timestamp :=
  h.numbered.length

/-- **A revision is a change of the log** with the buffer as it was right after it. -/
theorem revision (h : Reached origin d) (hi : d.revisions[i]? = some r) :
    d.buffer.log[i]? = some r.change ∧ r.after.timestamp = i + 1 ∧ r.after.text = d.textAt origin (i + 1) := by
  refine ⟨?_, h.numbered.timestamps i r hi, ?_⟩
  · rw [h.numbered.log, List.getElem?_map, hi]
    rfl
  · unfold Draft.textAt Draft.texts
    rw [List.getElem?_cons_succ, List.getElem?_map, hi]
    rfl

theorem pairwise_revisions (h : Reached origin d) :
    d.revisions.Pairwise fun r r' => r.after.timestamp < r'.after.timestamp := by
  refine List.pairwise_iff_getElem.2 fun i j hi hj hij => ?_
  rw [h.numbered.timestamps i _ (List.getElem?_eq_getElem hi),
    h.numbered.timestamps j _ (List.getElem?_eq_getElem hj)]
  omega

end Reached

namespace WorkspaceM

/-- Releases a registration on the buffer under a name, and answers whether the buffer had it. -/
def unregister (name : String) (id : ListenerId) : WorkspaceM Bool := do
  let h ← named (·.hosts) name
  match h.registry.remove id with
  | some registry =>
    setRegistry name h registry
    return true
  | none => return false

/-- This is how a recorder releases its registrations. -/
theorem resume_unrecord {w : Workspace} {name buffer : String} {recorder : Recorder} {i : ℕ}
    {id : ListenerId} (hget : w.recorders.get? name = some recorder)
    (hid : recorder.registrations[i]? = some id) :
    (unrecord name buffer i).resume w = (unregister buffer id).resume w := by
  unfold unrecord unregister
  rw [resume_bind_ok (resume_named hget), hid]
  rfl

theorem resume_register {w : Workspace} {name : String} {host : Host}
    (hget : w.hosts.get? name = some host) (key : ListenerKey) :
    (register name key).resume w = (.ok host.registry.nextId, { w with
      hosts := w.hosts.put name { host with registry := host.registry.add w.listenerAlive key }
      journal := w.journal.noteAll (pruneNotes host.buffer.id (host.registry.deadCount w.listenerAlive)) }) := by
  unfold register
  rw [resume_bind_ok (resume_named hget)]
  rfl

end WorkspaceM

/-- What may be done with a buffer and its listeners. -/
inductive Deed
  | edit (command : Command)
  | register (key : ListenerKey)
  | remove (id : ListenerId)
  /-- Anything that leaves the buffer and its registrations alone, such as listeners that come into being
  and others that are lost. -/
  | meanwhile (f : Workspace → Workspace)

namespace Deed

/-- The workspace in which a computation ended, if it broke no contract. -/
def settled {α : Type} : Except Failure α × Workspace → Option Workspace
  | (.error (.fault _), _) => none
  | (_, w) => some w

/-- The workspace after a deed. -/
def perform (name : String) (w : Workspace) : Deed → Option Workspace
  | edit command => settled ((WorkspaceM.edit name command.act).resume w)
  | register key => settled ((WorkspaceM.register name key).resume w)
  | remove id => settled ((WorkspaceM.unregister name id).resume w)
  | meanwhile f => if (f w).hosts.get? name = w.hosts.get? name then some (f w) else none

/-- The calls that come of a deed. -/
def calls (name : String) (w : Workspace) : Deed → List Call
  | edit command =>
    match w.hosts.get? name with
    | some host => Call.all (host.registry.prune w.listenerAlive).entries
        (command.act.exec host.buffer).2.revisions
    | none => []
  | _ => []

/-- The workspace after deeds. -/
def run (name : String) (w : Workspace) (deeds : List Deed) : Option Workspace :=
  deeds.foldlM (perform name) w

/-- The calls that come of deeds. -/
def callsOf (name : String) : Workspace → List Deed → List Call
  | _, [] => []
  | w, deed :: deeds => deed.calls name w ++
    match deed.perform name w with
    | some w' => callsOf name w' deeds
    | none => []

/-- Whether a listener is alive all the time. -/
def staysAlive (name : String) (key : ListenerKey) : Workspace → List Deed → Bool
  | w, [] => w.listenerAlive key
  | w, deed :: deeds => w.listenerAlive key &&
    match deed.perform name w with
    | some w' => staysAlive name key w' deeds
    | none => true

/-- What is asked of the buffer itself. -/
def commands : Deed → List Command
  | edit command => [command]
  | _ => []

/-- The deed does not switch whether edits are recorded. -/
def KeepsRecording (noUndo : Bool) : Deed → Prop
  | edit command => command.KeepsRecording noUndo
  | _ => True

variable {name : String} {w w' w'' : Workspace} {deed : Deed} {deeds deeds' : List Deed}

theorem run_cons (hr : run name w (deed :: deeds) = some w'') :
    ∃ w', deed.perform name w = some w' ∧ run name w' deeds = some w'' ∧
      callsOf name w (deed :: deeds) = deed.calls name w ++ callsOf name w' deeds := by
  unfold run at hr
  rw [List.foldlM_cons, Option.bind_eq_bind, Option.bind_eq_some_iff] at hr
  obtain ⟨w', hp, hr⟩ := hr
  refine ⟨w', hp, hr, ?_⟩
  rw [callsOf, hp]

theorem run_append (hr : run name w (deeds ++ deeds') = some w'') :
    ∃ w', run name w deeds = some w' ∧ run name w' deeds' = some w'' ∧
      callsOf name w (deeds ++ deeds') = callsOf name w deeds ++ callsOf name w' deeds' := by
  induction deeds generalizing w with
  | nil => exact ⟨w, rfl, hr, rfl⟩
  | cons deed deeds ih =>
    rw [List.cons_append] at hr ⊢
    obtain ⟨w₁, hp, hr, hcalls⟩ := run_cons hr
    obtain ⟨w', hr₁, hr', hcalls'⟩ := ih hr
    refine ⟨w', ?_, hr', ?_⟩
    · unfold run at hr₁ ⊢
      rw [List.foldlM_cons, hp]
      exact hr₁
    · have hfirst : callsOf name w (deed :: deeds) = deed.calls name w ++ callsOf name w₁ deeds := by
        rw [callsOf, hp]
      rw [hcalls, hcalls', hfirst, List.append_assoc]

/-! ## One deed -/

/-- A buffer with its past and its registry. -/
structure Watched (origin : Text) (name : String) (d : Draft) (w : Workspace) (host : Host) : Prop where
  reached : Reached origin d
  found : w.hosts.get? name = some host
  buffer : host.buffer = d.buffer
  sound : host.registry.Sound

/-- What a deed makes of a registry. -/
def registryAfter (alive : ListenerKey → Bool) (told : List Revision) (r : Registry) : Deed → Registry
  | edit _ => if told = [] then r else r.prune alive
  | register key => r.add alive key
  | remove id => (r.remove id).getD r
  | meanwhile _ => r

/-- What a deed makes of a buffer. -/
def bufferAfter (b : Buffer) : Deed → Buffer
  | edit command => (command.act.exec b).2.buffer
  | _ => b

/-- The revisions that a deed adds. -/
def told (b : Buffer) : Deed → List Revision
  | edit command => (command.act.exec b).2.revisions
  | _ => []

variable {origin : Text} {d d' : Draft} {host host' : Host} {key : ListenerKey} {id : ListenerId}
  {alive : ListenerKey → Bool} {told : List Revision} {r : Registry} {e : Entry}

/-- **What a deed does.** An edit adds revisions, of which all living listeners are told. -/
structure Does (name : String) (deed : Deed) (d : Draft) (w : Workspace) (host : Host) (told : List Revision)
    (d' : Draft) (host' : Host) : Prop where
  edited : d.run deed.commands = .ok d'
  revisions : d'.revisions = d.revisions ++ told
  recording : d'.buffer.options.flags.noUndo = d.buffer.options.flags.noUndo
  calls : deed.calls name w = Call.all (host.registry.prune w.listenerAlive).entries told
  registry : host'.registry = deed.registryAfter w.listenerAlive told host.registry

theorem settled_eq_some {α : Type} {x : Except Failure α × Workspace} (h : settled x = some w') :
    ∃ outcome, x = (outcome, w') ∧ ∀ f, outcome ≠ .error (.fault f) := by
  obtain ⟨outcome, w''⟩ := x
  match outcome, h with
  | .ok a, h =>
    cases h
    exact ⟨_, rfl, fun f hf => by cases hf⟩
  | .error (.error e), h =>
    cases h
    exact ⟨_, rfl, fun f hf => by cases hf⟩

/-- **What a deed leaves**, whatever the past of the buffer and of its registry. -/
theorem exists_host (hfound : w.hosts.get? name = some host) (hp : deed.perform name w = some w') :
    ∃ host', w'.hosts.get? name = some host' ∧ host'.buffer = deed.bufferAfter host.buffer ∧
      host'.registry = deed.registryAfter w.listenerAlive (deed.told host.buffer) host.registry := by
  cases deed with
  | edit command =>
    obtain ⟨outcome, hr, hok⟩ := settled_eq_some hp
    obtain ⟨-, -, hhost, -⟩ := WorkspaceM.of_resume_edit hfound hr hok
    exact ⟨_, hhost, rfl, rfl⟩
  | register key =>
    obtain ⟨outcome, hr, -⟩ := settled_eq_some hp
    rw [WorkspaceM.resume_register hfound] at hr
    obtain ⟨-, rfl⟩ := Prod.mk.inj hr
    exact ⟨_, Table.get?_put, rfl, rfl⟩
  | remove id =>
    obtain ⟨outcome, hr, -⟩ := settled_eq_some hp
    unfold WorkspaceM.unregister at hr
    rw [WorkspaceM.resume_bind_ok (WorkspaceM.resume_named hfound)] at hr
    cases hremove : host.registry.remove id with
    | none =>
      rw [hremove] at hr
      obtain ⟨-, rfl⟩ := Prod.mk.inj hr
      refine ⟨host, hfound, rfl, ?_⟩
      show _ = (host.registry.remove id).getD host.registry
      rw [hremove]
      rfl
    | some registry =>
      rw [hremove] at hr
      obtain ⟨-, rfl⟩ := Prod.mk.inj hr
      refine ⟨{ host with registry }, Table.get?_put, rfl, ?_⟩
      show _ = (host.registry.remove id).getD host.registry
      rw [hremove]
      rfl
  | meanwhile f =>
    obtain ⟨hsame, hw⟩ := Option.ite_none_right_eq_some.1
      (show (if (f w).hosts.get? name = w.hosts.get? name then some (f w) else none) = some w' from hp)
    cases hw
    exact ⟨host, hsame.trans hfound, rfl, rfl⟩

theorem sound_registryAfter (hr : r.Sound) : (deed.registryAfter alive told r).Sound := by
  cases deed with
  | edit command =>
    show (if told = [] then r else r.prune alive).Sound
    split
    · exact hr
    · exact hr.prune
  | register key => exact hr.add
  | remove id =>
    show ((r.remove id).getD r).Sound
    cases hremove : r.remove id with
    | none => exact hr
    | some r' => exact (hr.remove hremove).1
  | meanwhile f => exact hr

/-- An edit, seen from the past of the buffer. -/
theorem resume_act_eq (hb : host.buffer = d.buffer) (command : Command) :
    (command.act.resume d).1 = (command.act.exec host.buffer).1 ∧
      (command.act.resume d).2.buffer = (command.act.exec host.buffer).2.buffer ∧
      (command.act.resume d).2.revisions = d.revisions ++ (command.act.exec host.buffer).2.revisions :=
  (Draft.bisimulation_revisions d.revisions).act command { buffer := host.buffer } d
    ⟨hb.symm, (List.append_nil _).symm⟩

/-- **One deed.** -/
theorem exists_does (h : Watched origin name d w host)
    (hk : deed.KeepsRecording d.buffer.options.flags.noUndo) (hp : deed.perform name w = some w') :
    ∃ told d' host', Watched origin name d' w' host' ∧ deed.Does name d w host told d' host' := by
  obtain ⟨host', hfound, hbuffer', hregistry⟩ := exists_host h.found hp
  have hsound : host'.registry.Sound := hregistry ▸ sound_registryAfter h.sound
  cases deed with
  | edit command =>
    obtain ⟨outcome, hr, hok⟩ := settled_eq_some hp
    obtain ⟨houtcome, -, -, -⟩ := WorkspaceM.of_resume_edit h.found hr hok
    obtain ⟨hsame, hbuffer, hrevisions⟩ := resume_act_eq h.buffer command
    have hperform : d.perform command = .ok (command.act.resume d).2 := by
      unfold Draft.perform
      generalize command.act.resume d = result at hsame ⊢
      obtain ⟨r, d'⟩ := result
      obtain rfl : r = outcome := hsame.trans houtcome.symm
      match r, hok with
      | .ok _, _ => rfl
      | .error (.error _), _ => rfl
      | .error (.fault f), hok => exact absurd rfl (hok f)
    obtain ⟨hreached, hrecording⟩ := h.reached.perform hk hperform
    refine ⟨_, _, host', ⟨hreached, hfound, hbuffer'.trans hbuffer.symm, hsound⟩, ?_, hrevisions, hrecording, ?_,
      hregistry⟩
    · unfold Draft.run commands
      rw [List.foldlM_cons, hperform]
      rfl
    · unfold calls
      rw [h.found]
  | register _ | remove _ | meanwhile _ =>
    exact ⟨[], d, host', ⟨h.reached, hfound, hbuffer'.trans h.buffer, hsound⟩, rfl,
      (List.append_nil _).symm, rfl, rfl, hregistry⟩

/-! ## Parts of a run -/

/-- **What deeds do.** -/
structure Passes (d : Draft) (host : Host) (calls : List Call) (d' : Draft) (host' : Host) : Prop where
  goesOn : d.Extends d'
  nextId : host.registry.nextId ≤ host'.registry.nextId
  /-- Calls are about the changes made meanwhile. -/
  within : ∀ c ∈ calls, c.revision ∈ d'.revisions ∧ c.entry.id < host'.registry.nextId ∧
    d.buffer.timestamp < c.revision.after.timestamp ∧ c.revision.after.timestamp ≤ d'.buffer.timestamp
  ordered : calls.Pairwise Call.Before
  /-- A registration that is gone does not come back. -/
  gone : ∀ id < host.registry.nextId, (∀ e ∈ host.registry.entries, e.id ≠ id) →
    (∀ c ∈ calls, c.entry.id ≠ id) ∧ ∀ e ∈ host'.registry.entries, e.id ≠ id

namespace Passes

variable {calls calls' : List Call} {d'' : Draft} {host'' : Host}

theorem refl (d : Draft) (host : Host) : Passes d host [] d host :=
  ⟨.refl d, le_rfl, by simp, .nil, fun id _ hgone => ⟨by simp, hgone⟩⟩

theorem trans (h : Passes d host calls d' host') (h' : Passes d' host' calls' d'' host'') :
    Passes d host (calls ++ calls') d'' host'' := by
  refine ⟨h.goesOn.trans h'.goesOn, h.nextId.trans h'.nextId, ?_, ?_, ?_⟩
  · intro c hc
    rcases List.mem_append.1 hc with hc | hc
    · obtain ⟨hmem, hid, hlow, hhigh⟩ := h.within c hc
      exact ⟨h'.goesOn.revisions.subset hmem, hid.trans_le h'.nextId, hlow,
        hhigh.trans h'.goesOn.timestamp_le⟩
    · obtain ⟨hmem, hid, hlow, hhigh⟩ := h'.within c hc
      exact ⟨hmem, hid, h.goesOn.timestamp_le.trans_lt hlow, hhigh⟩
  · refine List.pairwise_append.2 ⟨h.ordered, h'.ordered, fun c hc c' hc' => .inl ?_⟩
    exact (h.within c hc).2.2.2.trans_lt (h'.within c' hc').2.2.1
  · intro id hid hgone
    obtain ⟨hcalls, hgone'⟩ := h.gone id hid hgone
    obtain ⟨hcalls', hgone''⟩ := h'.gone id (hid.trans_le h.nextId) hgone'
    refine ⟨fun c hc => ?_, hgone''⟩
    rcases List.mem_append.1 hc with hc | hc
    · exact hcalls c hc
    · exact hcalls' c hc

end Passes

/-- What is registered after a deed was so before, or has a number that had not been given out. -/
theorem mem_registryAfter (hr : r.Sound) (he : e ∈ (deed.registryAfter alive told r).entries) :
    e ∈ r.entries ∨ e.id = r.nextId := by
  cases deed with
  | edit command =>
    refine .inl ?_
    by_cases htold : told = []
    · rw [show (edit command).registryAfter alive told r = r from if_pos htold] at he
      exact he
    · rw [show (edit command).registryAfter alive told r = r.prune alive from if_neg htold] at he
      exact List.mem_of_mem_filter he
  | register key =>
    rcases List.mem_append.1 he with he | he
    · exact .inl (List.mem_of_mem_filter he)
    · exact .inr (by rw [List.mem_singleton.1 he])
  | remove id =>
    refine .inl ?_
    cases hremove : r.remove id with
    | none =>
      rw [show (remove id).registryAfter alive told r = (r.remove id).getD r from rfl, hremove] at he
      exact he
    | some r' =>
      rw [show (remove id).registryAfter alive told r = (r.remove id).getD r from rfl, hremove,
        Option.getD_some, (hr.remove hremove).2] at he
      exact List.mem_of_mem_filter he
  | meanwhile f => exact .inl he

theorem nextId_registryAfter : r.nextId ≤ (deed.registryAfter alive told r).nextId := by
  cases deed with
  | edit command =>
    show r.nextId ≤ (if told = [] then r else r.prune alive).nextId
    split <;> exact le_rfl
  | register key => exact Nat.le_succ _
  | remove id =>
    show r.nextId ≤ ((r.remove id).getD r).nextId
    unfold Registry.remove
    split <;> exact le_rfl
  | meanwhile f => exact le_rfl

/-- A registration of a living listener lasts until it is removed. -/
theorem mem_registryAfter_of_alive (hr : r.Sound) (he : e ∈ r.entries) (halive : alive e.listener = true)
    (hkept : deed ≠ .remove e.id) : e ∈ (deed.registryAfter alive told r).entries := by
  have hpruned : e ∈ (r.prune alive).entries := List.mem_filter.2 ⟨he, halive⟩
  cases deed with
  | edit command =>
    show e ∈ (if told = [] then r else r.prune alive).entries
    split
    · exact he
    · exact hpruned
  | register key => exact List.mem_append_left _ hpruned
  | remove id =>
    show e ∈ ((r.remove id).getD r).entries
    cases hremove : r.remove id with
    | none => exact he
    | some r' =>
      rw [Option.getD_some, (hr.remove hremove).2]
      refine List.mem_filter.2 ⟨he, ?_⟩
      have hne : e.id ≠ id := fun hid => hkept (by rw [hid])
      simpa using hne
  | meanwhile f => exact he

theorem Does.passes (h : Watched origin name d w host) (h' : Watched origin name d' w' host')
    (hd : deed.Does name d w host told d' host') : Passes d host (deed.calls name w) d' host' := by
  have hsound : (host.registry.prune w.listenerAlive).Sound := h.sound.prune
  have htold : told.Sublist d'.revisions := hd.revisions ▸ List.sublist_append_right _ _
  refine ⟨Draft.run_extends hd.edited, hd.registry ▸ nextId_registryAfter, fun c hc => ?_, ?_, fun id hid hgone => ?_⟩
  · rw [hd.calls] at hc
    obtain ⟨hentry, hrevision⟩ := Call.mem_all.1 hc
    obtain ⟨i, hi⟩ := List.getElem?_of_mem hrevision
    have hi' : d'.revisions[d.revisions.length + i]? = some c.revision := by
      rw [hd.revisions, List.getElem?_append_right (Nat.le_add_right _ _), Nat.add_sub_cancel_left, hi]
    have hlt : d.revisions.length + i < d'.revisions.length := (List.getElem?_eq_some_iff.1 hi').1
    have htimestamp := (h'.reached.revision hi').2.1
    rw [h.reached.length_revisions] at htimestamp hlt
    rw [h'.reached.length_revisions] at hlt
    refine ⟨htold.subset hrevision, ?_, by omega, by omega⟩
    have hid := h.sound.below c.entry (List.mem_of_mem_filter hentry)
    exact hid.trans_le (hd.registry ▸ nextId_registryAfter)
  · rw [hd.calls]
    exact Call.pairwise_all hsound.ordered (h'.reached.pairwise_revisions.sublist htold)
  · refine ⟨fun c hc => ?_, fun e he => ?_⟩
    · rw [hd.calls] at hc
      exact hgone c.entry (List.mem_of_mem_filter (Call.mem_all.1 hc).1)
    · rw [hd.registry] at he
      rcases mem_registryAfter h.sound he with he | hnew
      · exact hgone e he
      · exact fun hsame => hid.ne (hsame.symm.trans hnew)

/-- **The calls on account of a registration that lasts** are about all that is changed. -/
theorem Does.kept (h : Watched origin name d w host) (hd : deed.Does name d w host told d' host')
    (he : e ∈ host.registry.entries) (halive : w.listenerAlive e.listener = true)
    (hkept : deed ≠ .remove e.id) :
    e ∈ host'.registry.entries ∧ ((deed.calls name w).filter (·.entry == e)).map Call.revision = told := by
  have hpruned : e ∈ (host.registry.prune w.listenerAlive).entries := List.mem_filter.2 ⟨he, halive⟩
  refine ⟨hd.registry ▸ mem_registryAfter_of_alive h.sound he halive hkept, ?_⟩
  rw [hd.calls, Call.filter_all (· == e), h.sound.prune.filter_beq hpruned, Call.map_revision_all]

/-- **A part of a run**: what it does, and what it means for registrations that last. -/
theorem exists_passes (h : Watched origin name d w host)
    (hk : ∀ deed ∈ deeds, deed.KeepsRecording d.buffer.options.flags.noUndo)
    (hr : run name w deeds = some w') :
    ∃ d' host', Watched origin name d' w' host' ∧ d.run (deeds.flatMap commands) = .ok d' ∧
      d'.buffer.options.flags.noUndo = d.buffer.options.flags.noUndo ∧
      Passes d host (callsOf name w deeds) d' host' ∧
      ∀ e ∈ host.registry.entries, staysAlive name e.listener w deeds = true → .remove e.id ∉ deeds →
        e ∈ host'.registry.entries ∧ d'.revisions = d.revisions ++
          ((callsOf name w deeds).filter (·.entry == e)).map Call.revision := by
  induction deeds generalizing d w host with
  | nil =>
    cases hr
    exact ⟨d, host, h, rfl, rfl, .refl d host, fun e he _ _ => ⟨he, (List.append_nil _).symm⟩⟩
  | cons deed deeds ih =>
    obtain ⟨w₁, hp, hr, hcalls⟩ := run_cons hr
    obtain ⟨told, d₁, host₁, h₁, hdoes⟩ := exists_does h (hk deed List.mem_cons_self) hp
    have hk₁ : ∀ deed ∈ deeds, deed.KeepsRecording d₁.buffer.options.flags.noUndo := fun deed hdeed =>
      hdoes.recording ▸ hk deed (List.mem_cons_of_mem _ hdeed)
    obtain ⟨d', host', h', hedited, hrecording, hpasses, hkept⟩ := ih h₁ hk₁ hr
    refine ⟨d', host', h', ?_, hrecording.trans hdoes.recording, ?_, fun e he halive hremove => ?_⟩
    · have hfirst := hdoes.edited
      unfold Draft.run at hfirst hedited ⊢
      rw [List.flatMap_cons, List.foldlM_append, hfirst]
      exact hedited
    · rw [hcalls]
      exact (hdoes.passes h h₁).trans hpasses
    · rw [staysAlive, hp, Bool.and_eq_true] at halive
      have hne : deed ≠ .remove e.id := fun hsame => hremove (hsame ▸ List.mem_cons_self)
      obtain ⟨he₁, htold⟩ := hdoes.kept h he halive.1 hne
      obtain ⟨he', hrevisions⟩ := hkept e he₁ halive.2 fun hmem => hremove (List.mem_cons_of_mem _ hmem)
      refine ⟨he', ?_⟩
      rw [hrevisions, hdoes.revisions, hcalls, List.filter_append, List.map_append, htold, List.append_assoc]

/-! ## Registrations -/

/-- A registration made in the course of a run, whose listener stays alive while it lasts: until it is
removed, or until the run ends. -/
structure Registration (name : String) (w₀ : Workspace) (deeds : List Deed) where
  listener : ListenerKey
  /-- What is done before it is made, while it lasts, and from its removal on. -/
  before : List Deed
  during : List Deed
  after : List Deed
  /-- The workspace before it is made, right after that, and when it has lasted. -/
  made : Workspace
  begun : Workspace
  ended : Workspace
  /-- The buffer before the registration and when it has lasted. -/
  first : Host
  last : Host
  deeds_eq : deeds = before ++ .register listener :: (during ++ after)
  run_before : run name w₀ before = some made
  perform_register : (register listener).perform name made = some begun
  run_during : run name begun during = some ended
  found_first : made.hosts.get? name = some first
  found_last : ended.hosts.get? name = some last
  alive : staysAlive name listener begun during = true
  kept : remove first.registry.nextId ∉ during
  removed : after = [] ∨ ∃ rest, after = remove first.registry.nextId :: rest

namespace Registration

variable {w₀ : Workspace} (g : Registration name w₀ deeds)

/-- The entry that the registry keeps of it. -/
def entry : Entry := ⟨g.first.registry.nextId, g.listener⟩

/-- The timestamps at which it is made and removed. -/
def start : ℕ := g.first.buffer.timestamp

def stop : ℕ := g.last.buffer.timestamp

end Registration

/-- **No calls after a removal.** -/
theorem calls_after_removal (h : Watched origin name d w host) (he : e ∈ host.registry.entries)
    (hk : ∀ deed ∈ deeds, deed.KeepsRecording d.buffer.options.flags.noUndo)
    (hr : run name w deeds = some w') (hremoved : deeds = [] ∨ ∃ rest, deeds = .remove e.id :: rest) :
    ∃ d', d.run (deeds.flatMap commands) = .ok d' ∧ d.revisions <+: d'.revisions ∧
      ∀ c ∈ callsOf name w deeds, c.entry ≠ e := by
  rcases hremoved with rfl | ⟨rest, rfl⟩
  · exact ⟨d, rfl, List.prefix_rfl, fun c hc => by cases hc⟩
  obtain ⟨w₁, hp, hr, hcalls⟩ := run_cons hr
  obtain ⟨told, d₁, host₁, h₁, hdoes⟩ := exists_does h (hk _ List.mem_cons_self) hp
  obtain rfl : d = d₁ := Except.ok.inj hdoes.edited
  obtain ⟨d', host', -, hedited, -, hpasses, -⟩ :=
    exists_passes h₁ (fun deed hdeed => hk deed (List.mem_cons_of_mem _ hdeed)) hr
  have hgone : ∀ e' ∈ host₁.registry.entries, e'.id ≠ e.id := by
    have hregistry : host₁.registry = (host.registry.remove e.id).getD host.registry := hdoes.registry
    rw [h.sound.remove_of_mem he, Option.getD_some] at hregistry
    intro e' he'
    rw [hregistry] at he'
    simpa using (List.mem_filter.1 he').2
  have hbelow : e.id < host₁.registry.nextId := by
    rw [hdoes.registry]
    exact (h.sound.below e he).trans_le nextId_registryAfter
  refine ⟨d', hedited, hpasses.goesOn.revisions, fun c hc hsame => ?_⟩
  rw [hcalls] at hc
  exact (hpasses.gone e.id hbelow hgone).1 c hc (congrArg Entry.id hsame)

/-- **A registration is told of each change that it lasts for**, once and in order. -/
theorem Registration.calls_eq {w₀ : Workspace} (g : Registration name w₀ deeds)
    (h : Watched origin name d w₀ host)
    (hk : ∀ deed ∈ deeds, deed.KeepsRecording d.buffer.options.flags.noUndo)
    (hr : run name w₀ deeds = some w') :
    ∃ d', d.run (deeds.flatMap commands) = .ok d' ∧
      ((callsOf name w₀ deeds).filter (·.entry == g.entry)).map Call.revision =
        (d'.revisions.take g.stop).drop g.start := by
  obtain ⟨listener, before, during, after, made, begun, ended, first, last, rfl, hbefore, hregister, hduring,
    hfirst, hlast, halive, hkept, hremoved⟩ := g
  -- the run cut in parts
  obtain ⟨w₁, hr₁, hr, hcalls₁⟩ := run_append hr
  obtain rfl := Option.some.inj (hr₁.symm.trans hbefore)
  obtain ⟨w₂, hp, hr, hcalls₂⟩ := run_cons hr
  obtain rfl := Option.some.inj (hp.symm.trans hregister)
  obtain ⟨w₃, hr₃, hr, hcalls₃⟩ := run_append hr
  obtain rfl := Option.some.inj (hr₃.symm.trans hduring)
  have hbegin {deed : Deed} (hdeed : deed ∈ before) := hk deed (List.mem_append_left _ hdeed)
  have hrest {deed : Deed} (hdeed : deed ∈ during ++ after) :=
    hk deed (List.mem_append_right _ (List.mem_cons_of_mem _ hdeed))
  -- before the registration its number was not given out
  obtain ⟨d₁, host₁, h₁, hedited₁, hrecording₁, hpasses₁, -⟩ := exists_passes h (fun _ => hbegin) hr₁
  obtain rfl := Option.some.inj (h₁.found.symm.trans hfirst)
  have hfree : (register listener).KeepsRecording d₁.buffer.options.flags.noUndo := trivial
  obtain ⟨told, d₂, host₂, h₂, hdoes⟩ := exists_does h₁ hfree hp
  obtain rfl : d₁ = d₂ := Except.ok.inj hdoes.edited
  have hentry : (⟨host₁.registry.nextId, listener⟩ : Entry) ∈ host₂.registry.entries := by
    rw [hdoes.registry]
    exact List.mem_append_right _ (List.mem_singleton_self _)
  -- while it lasts
  obtain ⟨d₃, host₃, h₃, hedited₃, hrecording₃, -, hkept₃⟩ := exists_passes h₂
    (fun deed hdeed => hrecording₁ ▸ hrest (List.mem_append_left _ hdeed)) hr₃
  obtain rfl := Option.some.inj (h₃.found.symm.trans hlast)
  obtain ⟨hentry₃, hrevisions⟩ := hkept₃ _ hentry halive hkept
  -- afterwards
  obtain ⟨d', hedited', hprefix, hafter⟩ := calls_after_removal h₃ hentry₃
    (fun deed hdeed => hrecording₃ ▸ hrecording₁ ▸ hrest (List.mem_append_right _ hdeed)) hr hremoved
  refine ⟨d', ?_, ?_⟩
  · unfold Draft.run at hedited₁ hedited₃ hedited' ⊢
    rw [List.flatMap_append, List.foldlM_append, hedited₁, List.flatMap_cons, List.flatMap_append]
    show ((during.flatMap commands ++ after.flatMap commands).foldlM Draft.perform d₁) = _
    rw [List.foldlM_append, hedited₃]
    exact hedited'
  · have hnone {calls : List Call} (hc : ∀ c ∈ calls, c.entry ≠ ⟨host₁.registry.nextId, listener⟩) :
        calls.filter (·.entry == ⟨host₁.registry.nextId, listener⟩) = [] :=
      List.filter_eq_nil_iff.2 fun c hmem => by simpa using hc c hmem
    have hearlier : ∀ c ∈ callsOf name w₀ before, c.entry ≠ ⟨host₁.registry.nextId, listener⟩ := by
      intro c hc hsame
      have hbelow := (hpasses₁.within c hc).2.1
      rw [hsame] at hbelow
      exact lt_irrefl _ hbelow
    have hcalls : (callsOf name w₀ (before ++ register listener :: (during ++ after))).filter
        (·.entry == ⟨host₁.registry.nextId, listener⟩) =
          (callsOf name w₂ during).filter (·.entry == ⟨host₁.registry.nextId, listener⟩) := by
      rw [hcalls₁, hcalls₂, hcalls₃, List.filter_append, List.filter_append, List.filter_append,
        hnone hearlier, hnone hafter, List.append_nil]
      rfl
    have hstart : host₁.buffer.timestamp = d₁.revisions.length := by
      rw [h₁.buffer, h₁.reached.length_revisions]
    have hstop : host₃.buffer.timestamp = d₃.revisions.length := by
      rw [h₃.buffer, h₃.reached.length_revisions]
    show ((callsOf name w₀ _).filter (·.entry == ⟨host₁.registry.nextId, listener⟩)).map Call.revision =
      (d'.revisions.take host₃.buffer.timestamp).drop host₁.buffer.timestamp
    rw [hcalls, hstart, hstop, ← List.prefix_iff_eq_take.1 hprefix, hrevisions, List.drop_left]

/-! ## The whole run -/

/-- **What listeners are told in a run** that has come to `w`, in which the buffer has gone through `d`. -/
structure LogHeard (origin : Text) (name : String) (w₀ : Workspace) (deeds : List Deed) (d : Draft)
    (w : Workspace) (host : Host) : Prop where
  /-- A registration is told of all changes that are made while it lasts, in order and once each. -/
  told : ∀ g : Registration name w₀ deeds,
    ((callsOf name w₀ deeds).filter (·.entry == g.entry)).map Call.revision =
      (d.revisions.take g.stop).drop g.start
  /-- Nothing is told but changes. -/
  revised : ∀ c ∈ callsOf name w₀ deeds, c.revision ∈ d.revisions
  /-- Earlier changes are told before later ones, and each change in the order of the registrations. -/
  ordered : (callsOf name w₀ deeds).Pairwise Call.Before
  /-- When a change is told, the buffer has the timestamp and the text that it has after that change. -/
  count : d.revisions.length = d.buffer.timestamp
  present : ∀ i r, d.revisions[i]? = some r →
    d.buffer.log[i]? = some r.change ∧ r.after.timestamp = i + 1 ∧ r.after.text = d.textAt origin (i + 1)
  /-- An edit is the calls that come of it, after the buffer was edited. -/
  carriedOut : ∀ command, ∃ w₁,
    (WorkspaceM.edit name command.act).resume w = (((edit command).calls name w).forM (WorkspaceM.tell none) >>=
      fun _ => ExceptT.mk (pure (command.act.exec host.buffer).1)).resume w₁ ∧ w₁.recorders = w.recorders
  /-- A recorder writes down what it is told, and nothing else. -/
  written : ∀ command outcome w', (WorkspaceM.edit name command.act).resume w = (outcome, w') →
    (∀ f, outcome ≠ .error (.fault f)) →
      w'.recorders = w.recorders.map fun entry =>
        (entry.1, WorkspaceM.hear ((edit command).calls name w) entry.2)
  /-- An edit that is refused or comes to nothing is not told to anybody. -/
  quiet : ∀ command outcome w', (WorkspaceM.edit name command.act).resume w = (outcome, w') →
    (∃ e, outcome = .error (.error e)) ∨ outcome = .ok () ∧ command.changes host.buffer = 0 →
      (edit command).calls name w = []

/-- Edits that are refused or come to nothing are not told. -/
theorem calls_of_quiet {command : Command} {outcome : Except Failure Unit} (h : Watched origin name d w host)
    (hr : (WorkspaceM.edit name command.act).resume w = (outcome, w'))
    (hquiet : (∃ e, outcome = .error (.error e)) ∨ outcome = .ok () ∧ command.changes host.buffer = 0) :
    (edit command).calls name w = [] := by
  have hok : ∀ f, outcome ≠ .error (.fault f) := by
    rintro f rfl
    rcases hquiet with ⟨e, he⟩ | ⟨ho, -⟩
    · cases he
    · cases ho
  obtain ⟨houtcome, -, -, -⟩ := WorkspaceM.of_resume_edit h.found hr hok
  obtain ⟨hsame, -, hrevisions⟩ := resume_act_eq h.buffer command
  have hresume : command.act.resume d = (outcome, (command.act.resume d).2) :=
    Prod.ext (hsame.trans houtcome.symm) rfl
  have hlength : (command.act.resume d).2.revisions.length = d.revisions.length := by
    rcases hquiet with ⟨e, rfl⟩ | ⟨rfl, hnothing⟩
    · rw [EditM.eq_of_act_refused h.reached.sound hresume]
    · have hafter : (command.act.resume d).2.Numbered :=
        Draft.numbered_invariant.act command d h.reached.numbered
      have htimestamp := EditM.timestamp_of_act h.reached.sound hresume
      rw [← h.buffer, hnothing, h.buffer, Nat.add_zero] at htimestamp
      rw [hafter.length, h.reached.numbered.length, htimestamp]
  have hnone : (command.act.exec host.buffer).2.revisions = [] := by
    rw [hrevisions, List.length_append] at hlength
    exact List.length_eq_zero_iff.1 (by omega)
  unfold calls
  rw [h.found]
  show Call.all _ (command.act.exec host.buffer).2.revisions = []
  rw [hnone]
  rfl

/-- **Listeners see the log exactly.** A run on a fresh buffer without listeners, among whatever else goes
on, is for the buffer the run of its edits alone; and each registration is told of just the changes that
it lasts for. -/
theorem run_heard {w₀ : Workspace} {buffer : BufferId} {options : Options} (hs : origin.size < Text.capacity)
    (hstart : w₀.hosts.get? name = some { buffer := Buffer.ofText buffer origin options })
    (hk : ∀ deed ∈ deeds, deed.KeepsRecording options.flags.noUndo) (hr : run name w₀ deeds = some w) :
    ∃ d host, Draft.run { buffer := Buffer.ofText buffer origin options } (deeds.flatMap commands) = .ok d ∧
      w.hosts.get? name = some host ∧ host.buffer = d.buffer ∧
      LogHeard origin name w₀ deeds d w host := by
  have hfresh : Watched origin name { buffer := Buffer.ofText buffer origin options } w₀
      { buffer := Buffer.ofText buffer origin options } :=
    ⟨⟨buffer, options, [], hs, by simp, rfl⟩, hstart, rfl, Registry.sound_empty⟩
  obtain ⟨d, host, h, hedited, -, hpasses, -⟩ := exists_passes hfresh hk hr
  refine ⟨d, host, hedited, h.found, h.buffer, ?_⟩
  constructor
  case told =>
    intro g
    obtain ⟨d', hedited', hcalls⟩ := g.calls_eq hfresh hk hr
    obtain rfl := Except.ok.inj (hedited.symm.trans hedited')
    exact hcalls
  case revised => exact fun c hc => (hpasses.within c hc).1
  case ordered => exact hpasses.ordered
  case count => exact h.reached.length_revisions
  case present => exact fun i r hi => h.reached.revision hi
  case carriedOut =>
    intro command
    obtain ⟨w₁, hedit, -, -, -, hrecorders, -⟩ : ∃ w₁,
        (WorkspaceM.editHolding none name command.act).resume w = _ ∧ _ := WorkspaceM.resume_editHolding h.found
    refine ⟨w₁, ?_, hrecorders⟩
    unfold calls
    rw [h.found]
    exact hedit
  case written =>
    intro command outcome w' hedit hok
    obtain ⟨-, hrecorders, -, -⟩ := WorkspaceM.of_resume_edit h.found hedit hok
    unfold calls
    rw [h.found]
    exact hrecorders
  case quiet => exact fun command outcome w' hedit hquiet => calls_of_quiet h hedit hquiet

/-- A buffer, and a recorder that is not registered yet. -/
def sampleWorkspace : Workspace :=
  { nextListener := 1
    hosts := [("b", { buffer := Buffer.ofText 0 ['a'] {} })]
    recorders := [("n", { key := 0 })] }

/-- The recorder is registered, and once more after an edit; then the first registration is removed. -/
def sampleDeeds : List Deed :=
  [.register 0, .edit (.insert 0 ['x']), .register 0, .edit (.erase 0 ⟨0, 1⟩), .remove 0, .edit .undo]

/-- The workspace after the first deeds. -/
def sampleAfter (n : ℕ) : Workspace := (run "b" sampleWorkspace (sampleDeeds.take n)).getD sampleWorkspace

theorem run_sampleAfter : run "b" (sampleAfter 1)
    [.edit (.insert 0 ['x']), .register 0, .edit (.erase 0 ⟨0, 1⟩)] = some (sampleAfter 4) := by
  have hsome : (run "b" sampleWorkspace (sampleDeeds.take 4)).isSome := by decide +kernel
  obtain ⟨w, hr⟩ := Option.isSome_iff_exists.1 hsome
  have hlast : sampleAfter 4 = w := by
    unfold sampleAfter
    rw [hr]
    rfl
  obtain ⟨w', hp, hr', -⟩ := run_cons hr
  obtain rfl : sampleAfter 1 = w' := Option.some.inj hp
  rw [hlast]
  exact hr'

/-- The first registration. -/
def sampleRegistration : Registration "b" sampleWorkspace sampleDeeds where
  listener := 0
  before := []
  during := [.edit (.insert 0 ['x']), .register 0, .edit (.erase 0 ⟨0, 1⟩)]
  after := [.remove 0, .edit .undo]
  made := sampleWorkspace
  begun := sampleAfter 1
  ended := sampleAfter 4
  first := { buffer := Buffer.ofText 0 ['a'] {} }
  last := ((sampleAfter 4).hosts.get? "b").getD default
  deeds_eq := rfl
  run_before := rfl
  perform_register := rfl
  run_during := run_sampleAfter
  found_first := rfl
  found_last := by decide +kernel
  alive := by decide +kernel
  kept := by simp
  removed := .inr ⟨_, rfl⟩

theorem run_heard_sample : ∃ w d host, run "b" sampleWorkspace sampleDeeds = some w ∧
    LogHeard ['a'] "b" sampleWorkspace sampleDeeds d w host ∧
    (callsOf "b" sampleWorkspace sampleDeeds).map (fun c => (c.entry.id, c.revision.after.timestamp)) =
      [(0, 1), (0, 2), (1, 2), (1, 3), (1, 4)] ∧
    sampleRegistration.start = 0 ∧ sampleRegistration.stop = 2 := by
  have hsome : (run "b" sampleWorkspace sampleDeeds).isSome := by decide +kernel
  obtain ⟨w, hr⟩ := Option.isSome_iff_exists.1 hsome
  obtain ⟨d, host, -, -, -, hheard⟩ := run_heard (by decide) rfl (by simp [sampleDeeds, KeepsRecording,
    Command.KeepsRecording]) hr
  exact ⟨w, d, host, hr, hheard, by decide +kernel, rfl, by decide +kernel⟩

end Deed

end Caret
