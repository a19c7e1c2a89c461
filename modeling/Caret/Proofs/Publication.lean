import Caret.Proofs.Continuation
import Caret.Proofs.Registration
import Caret.Proofs.WorkspaceM

/-!
# Edits made known

What an edit of a buffer in a workspace comes to: the edit itself, after which each registration of a
living listener is told of each revision, one revision after the other.

* `Call`, `LiveList.followCalls`: a listener told of a revision on account of a registration, and what calls
  make of a live list.
* `WorkspaceM.resume_editHolding`: an edit is a sequence of calls.
* `WorkspaceM.ends_tellAll`: what calls leave as it is, and what recorders and live lists make of them.
-/

namespace Caret

/-- A listener told of a revision on account of one of its registrations. -/
structure Call where
  entry : Entry
  revision : Revision
  deriving DecidableEq, Repr, Inhabited

namespace Call

variable {entries : List Entry} {revisions : List Revision} {r : Revision} {c : Call}

/-- Each registration told of each revision, one revision after the other. -/
def all (entries : List Entry) (revisions : List Revision) : List Call :=
  revisions.flatMap fun r => entries.map fun e => ⟨e, r⟩

/-- What a recorder sees of a call. -/
def sighting (c : Call) : Sighting :=
  ⟨c.revision.change, c.revision.after.text.size, c.revision.after.timestamp⟩

@[simp] theorem all_nil : all entries [] = [] := rfl

theorem all_cons : all entries (r :: revisions) = entries.map (⟨·, r⟩) ++ all entries revisions := rfl

theorem mem_all : c ∈ all entries revisions ↔ c.entry ∈ entries ∧ c.revision ∈ revisions := by
  unfold all
  rw [List.mem_flatMap]
  constructor
  · rintro ⟨r, hr, hc⟩
    obtain ⟨e, he, rfl⟩ := List.mem_map.1 hc
    exact ⟨he, hr⟩
  · rintro ⟨he, hr⟩
    exact ⟨c.revision, hr, List.mem_map.2 ⟨c.entry, he, rfl⟩⟩

/-- The calls on account of some registrations only. -/
theorem filter_all (p : Entry → Bool) :
    (all entries revisions).filter (fun c => p c.entry) = all (entries.filter p) revisions := by
  unfold all
  rw [List.filter_flatMap]
  congr 1
  funext r
  rw [List.filter_map]
  rfl

theorem map_revision_all {e : Entry} : (all [e] revisions).map revision = revisions := by
  induction revisions with
  | nil => rfl
  | cons r revisions ih => rw [all_cons, List.map_append, ih]; rfl

/-- One call is made before another: about an earlier change, or about the same one on account of an
earlier registration. -/
def Before (c c' : Call) : Prop :=
  c.revision.after.timestamp < c'.revision.after.timestamp ∨
    c.revision.after.timestamp = c'.revision.after.timestamp ∧ c.entry.id < c'.entry.id

theorem pairwise_all (he : entries.Pairwise (·.id < ·.id))
    (hr : revisions.Pairwise fun r r' => r.after.timestamp < r'.after.timestamp) :
    (all entries revisions).Pairwise Before := by
  induction revisions with
  | nil => exact .nil
  | cons r revisions ih =>
    obtain ⟨hfirst, hrest⟩ := List.pairwise_cons.1 hr
    rw [all_cons, List.pairwise_append]
    refine ⟨?_, ih hrest, fun c hc c' hc' => .inl ?_⟩
    · rw [List.pairwise_map]
      exact he.imp fun hlt => .inr ⟨rfl, hlt⟩
    · obtain ⟨e, -, rfl⟩ := List.mem_map.1 hc
      exact hfirst c'.revision (mem_all.1 hc').2

end Call

namespace LiveList

variable {l r : LiveList} {c : Call}

/-- A live list after those of some calls that are to it. -/
def followCalls (l : LiveList) (calls : List Call) : Except Fault LiveList :=
  (calls.filter (·.entry.listener == l.key)).foldlM (fun l c => l.follow c.revision.change) l

/-- What one call makes of a live list. -/
def followCall (c : Call) (l : LiveList) : Except Fault LiveList :=
  if l.key = c.entry.listener then l.follow c.revision.change else pure l

theorem key_of_followCall (h : l.followCall c = .ok r) : r.key = l.key := by
  unfold followCall at h
  split at h
  · exact congrArg Prod.fst (binding_of_follow h)
  · cases h
    rfl

/-- One call and the others after it. -/
theorem followCalls_cons (l : LiveList) (c : Call) (calls : List Call) :
    l.followCalls (c :: calls) = l.followCall c >>= (·.followCalls calls) := by
  -- the list keeps its key, so that the calls to it are the same as before
  have hrest : (l.followCall c >>= (·.followCalls calls)) = l.followCall c >>= fun l' =>
      (calls.filter (·.entry.listener == l.key)).foldlM (fun l c => l.follow c.revision.change) l' := by
    cases hstep : l.followCall c with
    | error f => rfl
    | ok l' => rw [Fault.ok_bind, Fault.ok_bind, followCalls, key_of_followCall hstep]
  rw [hrest]
  unfold followCalls followCall
  by_cases hkey : l.key = c.entry.listener
  · rw [List.filter_cons_of_pos (by simpa using hkey.symm), List.foldlM_cons, if_pos hkey]
  · rw [List.filter_cons_of_neg (by simpa using Ne.symm hkey), if_neg hkey]
    rfl

theorem followCalls_append (l : LiveList) (calls calls' : List Call) :
    l.followCalls (calls ++ calls') = l.followCalls calls >>= (·.followCalls calls') := by
  induction calls generalizing l with
  | nil =>
    unfold followCalls
    rfl
  | cons c calls ih =>
    rw [List.cons_append, followCalls_cons, followCalls_cons]
    cases l.followCall c with
    | error f => rfl
    | ok l' => rw [Fault.ok_bind, Fault.ok_bind, ih]

end LiveList

/-! ## Pruning -/

namespace Registry

variable {alive : ListenerKey → Bool} {r : Registry}

theorem deadCount_prune : (r.prune alive).deadCount alive = 0 := by
  refine List.countP_eq_zero.2 fun e he => ?_
  have halive := (List.mem_filter.1 he).2
  simpa using halive

/-- Nothing is left to be pruned after pruning. -/
theorem prune_prune : (r.prune alive).prune alive = r.prune alive := by
  unfold prune
  simp only [List.filter_filter, Bool.and_self, Nat.sub_self, Nat.add_zero]

end Registry

namespace Table

variable {α : Type} {t : Table α} {name : String} {a : α}

theorem get?_put : (t.put name a).get? name = some a := by
  induction t with
  | nil => simp [put, get?]
  | cons entry t ih =>
    obtain ⟨n, c⟩ := entry
    by_cases hn : n = name
    · simp [put, get?, hn]
    · have hne : (name == n) = false := beq_false_of_ne (Ne.symm hn)
      unfold get? at ih ⊢
      simp [put, hn, List.lookup_cons, hne, ih]

/-- A name keeps its value. -/
theorem put_of_get? (h : t.get? name = some a) : t.put name a = t := by
  induction t with
  | nil => cases h
  | cons entry t ih =>
    obtain ⟨n, c⟩ := entry
    unfold get? at h ih
    rw [List.lookup_cons] at h
    by_cases hn : name = n
    · rw [beq_iff_eq.2 hn] at h
      cases h
      simp [put, hn]
    · rw [beq_false_of_ne hn] at h
      simp [put, Ne.symm hn, ih h]

/-- Changing all values where nothing can fail. -/
theorem mapValues_pure {g : α → α} :
    t.mapValues (fun a => pure (g a)) = .ok (t.map fun entry => (entry.1, g entry.2)) := by
  unfold mapValues
  simp only [pure_bind]
  exact List.mapM_pure

end Table

namespace Workspace

variable {w : Workspace} {name : String} {host : Host}

/-- A workspace in which a buffer was told of its dead listeners. -/
def settle (w : Workspace) (name : String) (host : Host) : Workspace :=
  { w with
    hosts := w.hosts.put name { host with registry := host.registry.prune w.listenerAlive }
    journal := w.journal.noteAll
      (WorkspaceM.pruneNotes host.buffer.id (host.registry.deadCount w.listenerAlive)) }

/-- Who is alive is told by the keys of live lists and recorders. -/
theorem listenerAlive_congr {w' : Workspace}
    (hlives : w'.liveLists.values.map LiveList.key = w.liveLists.values.map LiveList.key)
    (hrecorders : w'.recorders.values.map Recorder.key = w.recorders.values.map Recorder.key) :
    w'.listenerAlive = w.listenerAlive := by
  have hany {α : Type} (f : α → ListenerKey) (key : ListenerKey) (l : List α) :
      l.any (f · == key) = (l.map f).any (· == key) := by
    rw [List.any_map]
    rfl
  funext key
  unfold listenerAlive
  rw [hany LiveList.key, hany LiveList.key, hlives, hany Recorder.key, hany Recorder.key, hrecorders]

theorem settle_of_pruned (hget : w.hosts.get? name = some host)
    (hpruned : host.registry.prune w.listenerAlive = host.registry) : w.settle name host = w := by
  have hdead : host.registry.deadCount w.listenerAlive = 0 := by
    rw [← hpruned]
    exact Registry.deadCount_prune
  unfold settle
  rw [hpruned, Table.put_of_get? hget, hdead]
  rfl

end Workspace

namespace WorkspaceM

open Workspace

variable {w : Workspace} {name : String} {host : Host} {held : Option ListenerKey} {r : Revision}
  {calls : List Call}

/-! ## Calls -/

/-- One call. -/
def tell (held : Option ListenerKey) (c : Call) : WorkspaceM Unit := notify held c.revision c.entry.listener

/-- The recorder after calls to several listeners, of which some may be to it. -/
def hear (calls : List Call) (recorder : Recorder) : Recorder :=
  { recorder with
    seen := recorder.seen ++ (calls.filter (·.entry.listener == recorder.key)).map Call.sighting }

theorem hear_one {c : Call} {recorder : Recorder} :
    hear [c] recorder =
      if recorder.key = c.entry.listener then recorder.see c.revision else recorder := by
  unfold hear
  by_cases hkey : recorder.key = c.entry.listener
  · rw [if_pos hkey, List.filter_cons_of_pos (p := fun c : Call => c.entry.listener == recorder.key)
      (beq_iff_eq.2 hkey.symm)]
    rfl
  · rw [if_neg hkey, List.filter_cons_of_neg (p := fun c : Call => c.entry.listener == recorder.key)
      (by simpa using Ne.symm hkey)]
    simp

/-- What calls leave of a workspace. -/
structure Heard (calls : List Call) (w w' : Workspace) : Prop where
  hosts : w'.hosts = w.hosts
  journal : w'.journal = w.journal
  lists : w'.lists = w.lists
  alive : w'.listenerAlive = w.listenerAlive
  recorders : w'.recorders = w.recorders.map fun entry => (entry.1, hear calls entry.2)
  lives : ∀ name l, w.liveLists.get? name = some l →
    ∃ l', w'.liveLists.get? name = some l' ∧ l.followCalls calls = .ok l'

theorem heard_nil (w : Workspace) : Heard [] w w := by
  refine ⟨rfl, rfl, rfl, rfl, ?_, fun name l hl => ⟨l, hl, rfl⟩⟩
  have hsame : (fun entry : String × Recorder => (entry.1, hear [] entry.2)) = id := by
    funext entry
    simp [hear]
  rw [hsame, List.map_id]

theorem Heard.trans {calls' : List Call} {w' w'' : Workspace} (h : Heard calls w w')
    (h' : Heard calls' w' w'') : Heard (calls ++ calls') w w'' := by
  refine ⟨h'.hosts.trans h.hosts, h'.journal.trans h.journal, h'.lists.trans h.lists,
    h'.alive.trans h.alive, ?_, fun name l hl => ?_⟩
  · rw [h'.recorders, h.recorders, List.map_map]
    refine List.map_congr_left fun entry _ => ?_
    simp [hear, List.filter_append]
  · obtain ⟨l₁, hl₁, hfollow⟩ := h.lives name l hl
    obtain ⟨l₂, hl₂, hfollow'⟩ := h'.lives name l₁ hl₁
    refine ⟨l₂, hl₂, ?_⟩
    rw [LiveList.followCalls_append, hfollow, Fault.ok_bind, hfollow']

/-- **One listener told**: the recorders under its key see the revision, the live lists under its key follow
it, and who is alive stays alive. -/
theorem ends_tell (c : Call) :
    Ends (tell held c) w (fun _ w' => Heard [c] w w') Broken := by
  unfold tell notify
  by_cases hheld : held = some c.entry.listener
  · rw [if_pos hheld]
    exact broken_fault _ w
  rw [if_neg hheld]
  refine bind_get (bind_require (fun liveLists hlive => ?_) fun f _ => broken_fault f w)
  refine bind_require (fun recorders hrecorders => ?_) fun f _ => broken_fault f w
  rw [Table.mapValues_pure] at hrecorders
  have hheard : recorders = w.recorders.map fun entry => (entry.1, hear [c] entry.2) := by
    rw [← Except.ok.inj hrecorders]
    refine List.map_congr_left fun entry _ => ?_
    rw [hear_one]
  have halive : ({ w with liveLists, recorders } : Workspace).listenerAlive = w.listenerAlive := by
    refine listenerAlive_congr (Table.map_values_of_mapValues hlive fun l l' hl => ?_) ?_
    · split at hl
      · exact congrArg Prod.fst (LiveList.binding_of_follow hl)
      · cases hl
        rfl
    · show recorders.values.map Recorder.key = _
      rw [hheard]
      unfold Table.values
      rw [List.map_map, List.map_map, List.map_map]
      rfl
  refine ⟨rfl, rfl, rfl, halive, hheard, fun name l hl => ?_⟩
  obtain ⟨l', hl', hstep⟩ := Table.exists_get?_of_mapValues hlive hl
  refine ⟨l', hl', ?_⟩
  rw [LiveList.followCalls_cons, LiveList.followCall, hstep]
  rfl

theorem ends_tellAll :
    Ends (calls.forM (tell held)) w (fun _ w' => Heard calls w w') Broken := by
  induction calls generalizing w with
  | nil => exact ends_pure (heard_nil w)
  | cons c calls ih =>
    refine Ends.bind (ends_tell c) fun _ w' h => ?_
    exact ih.mono (fun _ _ h' => h.trans h') fun _ _ hf => hf

/-! ## Publishing -/

theorem resume_named {α : Type} {table : Workspace → Table α} {a : α} (hget : (table w).get? name = some a) :
    (named table name).resume w = (.ok a, w) := by
  unfold named
  rw [resume_bind_ok (show resume get w = (.ok w, w) from rfl), hget]
  rfl

/-- A revision is made known after pruning. -/
theorem resume_publish (hget : w.hosts.get? name = some host) :
    (publish name held r).resume w =
      ((Call.all (host.registry.prune w.listenerAlive).entries [r]).forM (tell held)).resume
        (w.settle name host) := by
  unfold publish
  rw [resume_bind_ok (resume_named hget), Call.all_cons, Call.all_nil, List.append_nil]
  have hmap := List.forM_map (l := (host.registry.prune w.listenerAlive).entries) (g := (⟨·, r⟩))
    (f := tell held)
  exact (congrArg (resume · (w.settle name host)) hmap).symm

/-- Where nothing is to be pruned, making revisions known is nothing but calls. -/
theorem resume_forM_publish {revisions : List Revision} (hget : w.hosts.get? name = some host)
    (hpruned : host.registry.prune w.listenerAlive = host.registry) :
    (revisions.forM (publish name held)).resume w =
      ((Call.all host.registry.entries revisions).forM (tell held)).resume w := by
  induction revisions generalizing w with
  | nil => rfl
  | cons r revisions ih =>
    have hfirst : (publish name held r).resume w = _ := resume_publish hget
    rw [hpruned, settle_of_pruned hget hpruned, Call.all_cons, Call.all_nil, List.append_nil] at hfirst
    have happend : List.forM (host.registry.entries.map (⟨·, r⟩) ++ Call.all host.registry.entries revisions)
        (tell held) = (List.forM (host.registry.entries.map (⟨·, r⟩)) (tell held) >>= fun _ =>
          List.forM (Call.all host.registry.entries revisions) (tell held)) := List.forM_append
    rw [Call.all_cons]
    refine Eq.trans ?_ (congrArg (resume · w) happend).symm
    show (publish name held r >>= fun _ => revisions.forM (publish name held)).resume w = _
    rw [resume_bind, resume_bind, hfirst]
    have hends : Ends (List.forM (host.registry.entries.map (⟨·, r⟩)) (tell held)) w
        (fun _ w' => Heard _ w w') Broken := ends_tellAll
    cases hr : resume (List.forM (host.registry.entries.map (⟨·, r⟩)) (tell held)) w with
    | mk outcome w' =>
      cases outcome with
      | error f => rfl
      | ok _ =>
        have hheard := hends.ok hr
        have hget' : w'.hosts.get? name = some host := hheard.hosts ▸ hget
        have hpruned' : host.registry.prune w'.listenerAlive = host.registry := hheard.alive ▸ hpruned
        exact ih hget' hpruned'

theorem settle_settle :
    (w.settle name host).settle name { host with registry := host.registry.prune w.listenerAlive } =
      w.settle name host :=
  settle_of_pruned Table.get?_put Registry.prune_prune

/-- Revisions are made known after pruning. -/
theorem resume_forM_publish_cons {revisions : List Revision} (hget : w.hosts.get? name = some host) :
    ((r :: revisions).forM (publish name held)).resume w =
      ((Call.all (host.registry.prune w.listenerAlive).entries (r :: revisions)).forM (tell held)).resume
        (w.settle name host) := by
  have hsettled : (w.settle name host).hosts.get? name =
      some { host with registry := host.registry.prune w.listenerAlive } := Table.get?_put
  have hfirst : (publish name held r).resume w = (publish name held r).resume (w.settle name host) := by
    rw [resume_publish hget, resume_publish hsettled]
    show _ = ((Call.all ((host.registry.prune w.listenerAlive).prune w.listenerAlive).entries [r]).forM
      (tell held)).resume _
    rw [settle_settle, Registry.prune_prune]
  refine Eq.trans ?_ (resume_forM_publish hsettled Registry.prune_prune)
  show (publish name held r >>= fun _ => revisions.forM (publish name held)).resume w =
    (publish name held r >>= fun _ => revisions.forM (publish name held)).resume (w.settle name host)
  rw [resume_bind, resume_bind, hfirst]

/-- **An edit is a sequence of calls**: the buffer is edited, dead listeners are forgotten if there is
anything to tell, and then each registration is told of each revision. -/
theorem resume_editHolding {α : Type} {act : EditM α} (hget : w.hosts.get? name = some host) :
    ∃ w₁, (editHolding held name act).resume w =
        ((Call.all (host.registry.prune w.listenerAlive).entries (act.exec host.buffer).2.revisions).forM
          (tell held) >>= fun _ => ExceptT.mk (pure (act.exec host.buffer).1)).resume w₁ ∧
      w₁.lists = w.lists ∧ w₁.liveLists = w.liveLists ∧ w₁.listenerAlive = w.listenerAlive ∧
      w₁.recorders = w.recorders ∧
      w₁.hosts.get? name = some { buffer := (act.exec host.buffer).2.buffer
                                  registry := if (act.exec host.buffer).2.revisions = [] then host.registry
                                    else host.registry.prune w.listenerAlive } := by
  generalize hexec : act.exec host.buffer = result
  obtain ⟨outcome, draft⟩ := result
  -- the workspace right after the edit
  obtain ⟨w₀, hedit, hlists, hlives, halive, hrecorders, hput⟩ : ∃ w₀ : Workspace,
      (editHolding held name act).resume w =
        (draft.revisions.forM (publish name held) >>= fun _ => ExceptT.mk (pure outcome)).resume w₀ ∧
      w₀.lists = w.lists ∧ w₀.liveLists = w.liveLists ∧ w₀.listenerAlive = w.listenerAlive ∧
      w₀.recorders = w.recorders ∧ w₀.hosts.get? name = some { host with buffer := draft.buffer } := by
    refine ⟨{ w with hosts := w.hosts.put name { host with buffer := draft.buffer } }, ?_, rfl, rfl, rfl, rfl,
      Table.get?_put⟩
    unfold editHolding
    rw [resume_bind_ok (resume_named hget), hexec]
    rfl
  cases hrevisions : draft.revisions with
  | nil =>
    refine ⟨w₀, ?_, hlists, hlives, halive, hrecorders, hput⟩
    rw [hedit, hrevisions]
    rfl
  | cons r revisions =>
    have hpublish : ((r :: revisions).forM (publish name held)).resume w₀ = _ :=
      resume_forM_publish_cons hput
    refine ⟨w₀.settle name { host with buffer := draft.buffer }, ?_, hlists, hlives, halive, hrecorders, ?_⟩
    · rw [hedit, hrevisions, resume_bind, resume_bind, hpublish, halive]
    · have hsettled : (w₀.settle name { host with buffer := draft.buffer }).hosts.get? name =
          some { host with buffer := draft.buffer, registry := host.registry.prune w₀.listenerAlive } :=
        Table.get?_put
      rw [hsettled, halive, if_neg (List.cons_ne_nil r revisions)]

/-- **What an edit leaves** that came to be `draft` on the buffer of `host`, listeners included. -/
structure Edited (name : String) (host : Host) (draft : Draft) (w w' : Workspace) : Prop where
  recorders : w'.recorders = w.recorders.map fun entry => (entry.1, hear
    (Call.all (host.registry.prune w.listenerAlive).entries draft.revisions) entry.2)
  found : w'.hosts.get? name = some { buffer := draft.buffer
                                      registry := if draft.revisions = [] then host.registry
                                        else host.registry.prune w.listenerAlive }
  alive : w'.listenerAlive = w.listenerAlive
  lists : w'.lists = w.lists
  lives : ∀ listName l, w.liveLists.get? listName = some l → ∃ l', w'.liveLists.get? listName = some l' ∧
    l.followCalls (Call.all (host.registry.prune w.listenerAlive).entries draft.revisions) = .ok l'

/-- **An edit** that breaks no contract. -/
theorem of_resume_edit {α : Type} {act : EditM α} {outcome : Except Failure α} {w' : Workspace}
    (hget : w.hosts.get? name = some host) (hr : (edit name act).resume w = (outcome, w'))
    (hok : ∀ f, outcome ≠ .error (.fault f)) :
    outcome = (act.exec host.buffer).1 ∧ Edited name host (act.exec host.buffer).2 w w' := by
  obtain ⟨w₁, hedit, hlists, hlives, halive, hrecorders, hhost⟩ :
      ∃ w₁, (editHolding none name act).resume w = _ ∧ _ := resume_editHolding hget
  unfold edit at hr
  rw [hr, resume_bind] at hedit
  have hends : Ends ((Call.all (host.registry.prune w.listenerAlive).entries
      (act.exec host.buffer).2.revisions).forM (tell none)) w₁ (fun _ w' => Heard _ w₁ w') Broken := ends_tellAll
  cases hcalls : ((Call.all (host.registry.prune w.listenerAlive).entries
      (act.exec host.buffer).2.revisions).forM (tell none)).resume w₁ with
  | mk r w₂ =>
    rw [hcalls] at hedit
    cases r with
    | error f =>
      obtain ⟨fault, rfl⟩ := hends.stop hcalls
      exact absurd (congrArg Prod.fst hedit) (hok fault)
    | ok _ =>
      have hheard := hends.ok hcalls
      obtain ⟨rfl, rfl⟩ := Prod.mk.inj hedit
      exact ⟨rfl, hrecorders ▸ hheard.recorders, hheard.hosts ▸ hhost, hheard.alive.trans halive,
        hheard.lists.trans hlists, hlives ▸ hheard.lives⟩

end WorkspaceM

end Caret
