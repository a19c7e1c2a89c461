import Caret.Proofs.Continuation
import Caret.Proofs.Registration
import Caret.Proofs.WorkspaceM
import Caret.Workspace.Buffers
import Caret.Workspace.LiveLists
import Caret.Workspace.Observers

/-!
# The life of live lists

What each computation on a workspace makes of the registrations of live lists. While one is made, bound
or dropped, the lists that are registered are for a moment not those that have a name; so the invariant
is about any list of live lists.

* `Workspace.Tidy`, `Workspace.Orderly`: the invariant, in between and at the end of a step.
* `WorkspaceM.ends_release`, `WorkspaceM.ends_register_live`: a registration released and made.
* `WorkspaceM.ends_trackSelections`, `WorkspaceM.ends_copyLive`, `WorkspaceM.ends_bindLive`,
  `WorkspaceM.ends_dropLive`: the life of a list.
* `WorkspaceM.ends_editHolding`, `WorkspaceM.ends_openBuffer`, `WorkspaceM.ends_record`: edits, buffers and
  other listeners.
-/

namespace Caret

namespace Workspace

variable {others : ListenerKey → Prop} {lives lives' : List LiveList} {w w' : Workspace} {l : LiveList}
  {key : ListenerKey} {name : String} {host : Host}

/-! ## The invariant -/

/-- **The invariant of a workspace** in which just `lives` are registered: they agree with the buffers,
and whatever is made next has a number of its own. -/
structure Tidy (others : ListenerKey → Prop) (lives : List LiveList) (w : Workspace) : Prop where
  linked : Linked others w.hosts.values lives
  hostNames : (w.hosts.map Prod.fst).Nodup
  liveNames : (w.liveLists.map Prod.fst).Nodup
  hostIds : ∀ h ∈ w.hosts.values, h.buffer.id < w.nextBuffer
  liveBuffers : ∀ l ∈ lives, l.buffer < w.nextBuffer
  liveKeys : ∀ l ∈ lives, l.key < w.nextListener
  entryKeys : ∀ h ∈ w.hosts.values, ∀ e ∈ h.registry.entries, e.listener < w.nextListener
  recorderKeys : ∀ r ∈ w.recorders.values, r.key < w.nextListener ∧ ∀ l ∈ lives, l.key ≠ r.key
  /-- Recorders are others, and whatever is made next may be one, if there are any. -/
  recorderOthers : ∀ r ∈ w.recorders.values, others r.key
  laterOthers : (∃ key, others key) → ∀ key, w.nextListener ≤ key → others key

/-- Between two steps the live lists that are registered are those that exist. -/
def Orderly (others : ListenerKey → Prop) (w : Workspace) : Prop := Tidy others w.liveLists.values w

/-- A listener that has no registration, and that nobody else is. -/
structure Fresh (key : ListenerKey) (lives : List LiveList) (w : Workspace) : Prop where
  unlisted : Unlisted key w.hosts.values
  live : ∀ l ∈ lives, l.key ≠ key
  recorder : ∀ r ∈ w.recorders.values, r.key ≠ key
  below : key < w.nextListener

/-- What registering and releasing leave alone. -/
structure Frame (w w' : Workspace) : Prop where
  buffers : w'.hosts.map (fun entry => (entry.1, entry.2.buffer)) =
    w.hosts.map fun entry => (entry.1, entry.2.buffer)
  liveLists : w'.liveLists = w.liveLists
  recorders : w'.recorders = w.recorders

theorem Frame.refl (w : Workspace) : Frame w w := ⟨rfl, rfl, rfl⟩

/-- The same buffer is under a name. -/
theorem Frame.exists_host (h : Frame w w') (hget : w'.hosts.get? name = some host) :
    ∃ host', w.hosts.get? name = some host' ∧ host'.buffer = host.buffer := by
  have hlookup (t : Table Host) :
      (t.map fun entry => (entry.1, entry.2.buffer)).lookup name = (t.get? name).map Host.buffer := by
    induction t with
    | nil => rfl
    | cons entry t ih =>
      unfold Table.get? at ih ⊢
      rw [List.map_cons, List.lookup_cons, List.lookup_cons]
      cases name == entry.1 with
      | true => rfl
      | false => exact ih
  have hsame := hlookup w'.hosts
  rw [h.buffers, hlookup w.hosts, hget] at hsame
  cases hget' : w.hosts.get? name with
  | none =>
    rw [hget'] at hsame
    cases hsame
  | some host' =>
    rw [hget'] at hsame
    exact ⟨host', rfl, Option.some.inj hsame⟩

namespace Tidy

theorem perm (h : Tidy others lives w) (hl : lives.Perm lives') : Tidy others lives' w where
  linked := h.linked.perm (.refl _) hl
  hostNames := h.hostNames
  liveNames := h.liveNames
  hostIds := h.hostIds
  liveBuffers l hmem := h.liveBuffers l (hl.mem_iff.2 hmem)
  liveKeys l hmem := h.liveKeys l (hl.mem_iff.2 hmem)
  entryKeys := h.entryKeys
  recorderKeys r hr := ⟨(h.recorderKeys r hr).1, fun l hmem => (h.recorderKeys r hr).2 l (hl.mem_iff.2 hmem)⟩
  recorderOthers := h.recorderOthers
  laterOthers := h.laterOthers

/-- Lists, watchers, indexes, handles and the journal do not matter, nor which live list has which
name. -/
theorem congr (h : Tidy others lives w) (hhosts : w'.hosts = w.hosts)
    (hnames : (w'.liveLists.map Prod.fst).Nodup) (hbuffer : w'.nextBuffer = w.nextBuffer)
    (hlistener : w'.nextListener = w.nextListener) (hrecorders : w'.recorders = w.recorders) :
    Tidy others lives w' where
  linked := hhosts ▸ h.linked
  hostNames := hhosts ▸ h.hostNames
  liveNames := hnames
  hostIds := by rw [hhosts, hbuffer]; exact h.hostIds
  liveBuffers := by rw [hbuffer]; exact h.liveBuffers
  liveKeys := by rw [hlistener]; exact h.liveKeys
  entryKeys := by rw [hhosts, hlistener]; exact h.entryKeys
  recorderKeys := by rw [hrecorders, hlistener]; exact h.recorderKeys
  recorderOthers := by rw [hrecorders]; exact h.recorderOthers
  laterOthers := by rw [hlistener]; exact h.laterOthers

/-- Other names for live lists. -/
theorem setLiveLists {t : Table LiveList} (h : Tidy others lives w) (hn : (t.map Prod.fst).Nodup) :
    Tidy others lives { w with liveLists := t } := h.congr rfl hn rfl rfl rfl

/-- Selections do not matter. -/
theorem rebind (h : Tidy others lives w)
    (hl : lives'.map LiveList.binding = lives.map LiveList.binding) : Tidy others lives' w := by
  have hmem : ∀ l' ∈ lives', ∃ l ∈ lives, l.key = l'.key ∧ l.buffer = l'.buffer := by
    intro l' hl'
    have hbinding := List.mem_map_of_mem (f := LiveList.binding) hl'
    rw [hl] at hbinding
    obtain ⟨l, hmem, hsame⟩ := List.mem_map.1 hbinding
    simp only [LiveList.binding, Prod.mk.injEq] at hsame
    exact ⟨l, hmem, hsame.1, hsame.2.1⟩
  refine ⟨h.linked.congr hl, h.hostNames, h.liveNames, h.hostIds, ?_, ?_, h.entryKeys, ?_,
    h.recorderOthers, h.laterOthers⟩
  · intro l' hl'
    obtain ⟨l, hmem, -, hbuffer⟩ := hmem l' hl'
    exact hbuffer ▸ h.liveBuffers l hmem
  · intro l' hl'
    obtain ⟨l, hmem, hkey, -⟩ := hmem l' hl'
    exact hkey ▸ h.liveKeys l hmem
  · intro r hr
    refine ⟨(h.recorderKeys r hr).1, fun l' hl' => ?_⟩
    obtain ⟨l, hmem, hkey, -⟩ := hmem l' hl'
    exact hkey ▸ (h.recorderKeys r hr).2 l hmem

/-- A workspace seen around the buffer under a name. -/
theorem exists_rest (h : Tidy others lives w) (hget : w.hosts.get? name = some host) :
    ∃ rest, Linked others (host :: rest) lives ∧ w.hosts.values.Perm (host :: rest) ∧
      (∀ b, (w.hosts.put name b).values.Perm (b :: rest)) ∧ (w.hosts.drop name).values.Perm rest := by
  obtain ⟨rest, hvalues, hput, hdrop⟩ := Table.exists_rest hget h.hostNames
  exact ⟨rest, h.linked.perm hvalues (.refl _), hvalues, hput, hdrop⟩

/-- Another host of the same number under a name. -/
theorem putHost {new : Host} {lives' : List LiveList} (h : Tidy others lives w)
    (hget : w.hosts.get? name = some host) (hid : new.buffer.id = host.buffer.id)
    (hlinked : ∀ rest, w.hosts.values.Perm (host :: rest) → Linked others (host :: rest) lives →
      Linked others (new :: rest) lives')
    (hentries : ∀ e ∈ new.registry.entries, e.listener < w.nextListener)
    (hlives : ∀ l ∈ lives', l.buffer < w.nextBuffer ∧ l.key < w.nextListener ∧
      ∀ r ∈ w.recorders.values, l.key ≠ r.key) :
    Tidy others lives' { w with hosts := w.hosts.put name new } := by
  obtain ⟨rest, hrest, hvalues, hput, -⟩ := h.exists_rest hget
  have hmem : ∀ x ∈ (w.hosts.put name new).values, x = new ∨ x ∈ w.hosts.values := fun x hx =>
    Table.mem_values_put hx
  refine ⟨(hlinked rest hvalues hrest).perm (hput new).symm (.refl _), Table.nodup_put h.hostNames new,
    h.liveNames, fun x hx => ?_, fun l hl => (hlives l hl).1, fun l hl => (hlives l hl).2.1, fun x hx => ?_,
    fun r hr => ⟨(h.recorderKeys r hr).1, fun l hl => (hlives l hl).2.2 r hr⟩, h.recorderOthers,
    h.laterOthers⟩
  · rcases hmem x hx with rfl | hx
    · show x.buffer.id < w.nextBuffer
      rw [hid]
      exact h.hostIds host (Table.mem_values_of_get? hget)
    · exact h.hostIds x hx
  · rcases hmem x hx with rfl | hx
    · exact hentries
    · exact h.entryKeys x hx

/-- The facts on live lists that do not depend on the buffers. -/
theorem facts (h : Tidy others lives w) : ∀ l ∈ lives, l.buffer < w.nextBuffer ∧
    l.key < w.nextListener ∧ ∀ r ∈ w.recorders.values, l.key ≠ r.key := fun l hl =>
  ⟨h.liveBuffers l hl, h.liveKeys l hl, fun r hr => (h.recorderKeys r hr).2 l hl⟩

/-- A list whose buffer is gone needs no registration. -/
theorem adopt (h : Tidy others lives w) (hfresh : Fresh l.key lives w)
    (hgone : ∀ x ∈ w.hosts.values, x.buffer.id ≠ l.buffer) (hbuffer : l.buffer < w.nextBuffer) :
    Tidy others (l :: lives) w := by
  have hwider : Linked (fun k => others k ∨ k = l.key) w.hosts.values lives := h.linked.mono fun _ => .inl
  have hlinked : Linked others w.hosts.values (l :: lives) := hwider.adopt
    (fun x hx => ⟨fun hid => absurd hid (hgone x hx), fun _ => hfresh.unlisted x hx⟩) hfresh.live
  refine ⟨hlinked, h.hostNames, h.liveNames, h.hostIds, ?_, ?_, h.entryKeys, fun r hr => ?_,
    h.recorderOthers, h.laterOthers⟩
  · exact List.forall_mem_cons.2 ⟨hbuffer, h.liveBuffers⟩
  · exact List.forall_mem_cons.2 ⟨hfresh.below, h.liveKeys⟩
  · exact ⟨(h.recorderKeys r hr).1, List.forall_mem_cons.2
      ⟨(hfresh.recorder r hr).symm, (h.recorderKeys r hr).2⟩⟩

end Tidy

/-- Putting a host of the same buffer under its name. -/
theorem frame_putHost {new : Host} (hn : (w.hosts.map Prod.fst).Nodup)
    (hget : w.hosts.get? name = some host) (hb : new.buffer = host.buffer) :
    Frame w { w with hosts := w.hosts.put name new } := by
  obtain ⟨pre, post, hsplit, hput, -⟩ := Table.exists_split hget hn
  refine ⟨?_, rfl, rfl⟩
  show (w.hosts.put name new).map _ = w.hosts.map _
  rw [hput, hsplit]
  simp [hb]

end Workspace

namespace WorkspaceM

open Workspace

variable {others : ListenerKey → Prop} {lives : List LiveList} {w : Workspace} {l : LiveList}
  {key : ListenerKey} {name : String} {R : Failure → Workspace → Prop}

/-! ## Registering and releasing -/

/-- Every live list of a table is alive. -/
theorem listenerAlive_of_mem (h : l ∈ w.liveLists.values) : w.listenerAlive l.key = true := by
  have hany : w.liveLists.values.any (fun l' => l'.key == l.key) = true :=
    List.any_eq_true.2 ⟨l, h, beq_self_eq_true _⟩
  unfold listenerAlive
  rw [hany, Bool.true_or]

theorem ends_newKey (h : Tidy others lives w) :
    Ends newKey w (fun key w' => Tidy others lives w' ∧ Fresh key lives w' ∧ Frame w w' ∧
      ((∃ k, others k) → others key)) R := by
  refine bind_get (bind_set ?_)
  have hlt {n : ℕ} (hn : n < w.nextListener) : n < w.nextListener + 1 := Nat.lt_succ_of_lt hn
  refine ends_pure ⟨⟨h.linked, h.hostNames, h.liveNames, h.hostIds, h.liveBuffers,
    fun l hl => hlt (h.liveKeys l hl), fun x hx e he => hlt (h.entryKeys x hx e he),
    fun r hr => ⟨hlt (h.recorderKeys r hr).1, (h.recorderKeys r hr).2⟩, h.recorderOthers,
    fun hex key hle => h.laterOthers hex key (Nat.le_of_succ_le hle)⟩, ⟨?_, ?_, ?_, ?_⟩, ⟨rfl, rfl, rfl⟩,
    fun hex => h.laterOthers hex _ le_rfl⟩
  · intro x hx
    refine List.filter_eq_nil_iff.2 fun e he hsame => ?_
    have hbelow := h.entryKeys x hx e he
    rw [beq_iff_eq.1 hsame] at hbelow
    exact lt_irrefl _ hbelow
  · exact fun l hl => (h.liveKeys l hl).ne
  · exact fun r hr => (h.recorderKeys r hr).1.ne
  · exact Nat.lt_succ_self _

/-- What is told of pruning does not matter. -/
theorem ends_note {ns : List Note} (h : Tidy others lives w) :
    Ends (note ns) w (fun _ w' => Tidy others lives w' ∧ Frame w w') R :=
  ends_modify ⟨h.congr rfl h.liveNames rfl rfl rfl, rfl, rfl, rfl⟩

/-- Registering a listener on the buffer under a name, after which `lives` are registered. -/
theorem ends_register (after : Host → List LiveList) (h : Tidy others lives w)
    (hkey : key < w.nextListener)
    (hlinked : ∀ host rest, w.hosts.get? name = some host → w.hosts.values.Perm (host :: rest) →
      Linked others (host :: rest) lives →
        Linked others ({ host with registry := host.registry.add w.listenerAlive key } :: rest) (after host))
    (hlives : ∀ host, w.hosts.get? name = some host → ∀ l ∈ after host, l.buffer < w.nextBuffer ∧
      l.key < w.nextListener ∧ ∀ r ∈ w.recorders.values, l.key ≠ r.key)
    (hstop : R (.fault .unknownName) w) :
    Ends (register name key) w (fun id w' => ∃ host, w.hosts.get? name = some host ∧
      id = host.registry.nextId ∧ Tidy others (after host) w' ∧ Frame w w') R := by
  refine bind_named (fun host hget => bind_get ?_) fun _ => hstop
  have hentries : ∀ e ∈ (host.registry.add w.listenerAlive key).entries, e.listener < w.nextListener := by
    intro e he
    rcases List.mem_append.1 he with he | he
    · exact h.entryKeys host (Table.mem_values_of_get? hget) e (List.mem_of_mem_filter he)
    · rw [List.mem_singleton.1 he]
      exact hkey
  have hput : Tidy others (after host) { w with
      hosts := (w.hosts.put name { host with registry := host.registry.add w.listenerAlive key }) } :=
    h.putHost hget rfl (fun rest hperm hrest => hlinked host rest hget hperm hrest) hentries
      (hlives host hget)
  have hframe : Frame w { w with
      hosts := (w.hosts.put name { host with registry := host.registry.add w.listenerAlive key }) } :=
    frame_putHost h.hostNames hget rfl
  refine bind_modify (Ends.bind (ends_note hput) ?_)
  rintro _ w' ⟨htidy', hframe'⟩
  exact ends_pure ⟨host, hget, rfl, htidy', hframe'.buffers.trans hframe.buffers,
    hframe'.liveLists.trans hframe.liveLists, hframe'.recorders.trans hframe.recorders⟩

/-- **Registering a live list** that has no registration yet. -/
theorem ends_register_live (h : Tidy others lives w) (hfresh : Fresh key lives w)
    (halive : ∀ l ∈ lives, w.listenerAlive l.key = true) (group : Selections)
    (hstop : R (.fault .unknownName) w) :
    Ends (register name key) w (fun id w' => ∃ host, w.hosts.get? name = some host ∧
      Tidy others (⟨key, group, host.buffer.id, some id⟩ :: lives) w' ∧ Frame w w') R := by
  refine (ends_register (fun host =>
    ⟨key, group, host.buffer.id, some host.registry.nextId⟩ :: lives) h hfresh.below ?_ ?_ hstop).mono ?_
    fun _ _ hR => hR
  · intro host rest hget hperm hrest
    have hfree : Unlisted key (host :: rest) := fun x hx => hfresh.unlisted x (hperm.mem_iff.2 hx)
    exact hrest.register (l := ⟨key, group, host.buffer.id, some host.registry.nextId⟩) hfree halive
      hfresh.live rfl rfl
  · intro host hget l hl
    rcases List.mem_cons.1 hl with rfl | hl
    · exact ⟨h.hostIds host (Table.mem_values_of_get? hget), hfresh.below,
        fun r hr => (hfresh.recorder r hr).symm⟩
    · exact h.facts l hl
  · rintro id w' ⟨host, hget, rfl, htidy, hframe⟩
    exact ⟨host, hget, htidy, hframe⟩

theorem ends_nameOf? {id : BufferId} (h : Tidy others lives w) :
    Ends (nameOf? id) w (fun name? w' => w' = w ∧
      ((∃ name host, name? = some name ∧ w.hosts.get? name = some host ∧ host.buffer.id = id) ∨
        name? = none ∧ ∀ x ∈ w.hosts.values, x.buffer.id ≠ id)) R := by
  refine bind_get (ends_pure ⟨rfl, ?_⟩)
  cases hfind : w.hosts.find? fun entry => entry.2.buffer.id == id with
  | none =>
    refine .inr ⟨rfl, fun x hx => ?_⟩
    obtain ⟨entry, hentry, rfl⟩ := List.mem_map.1 hx
    have hne := List.find?_eq_none.1 hfind entry hentry
    simpa using hne
  | some entry =>
    have hid := List.find?_some hfind
    refine .inl ⟨entry.1, entry.2, rfl, ?_, beq_iff_eq.1 hid⟩
    exact Table.get?_of_mem h.hostNames (List.mem_of_find?_eq_some hfind)

/-- A list without a registration is none of the listeners that exist beside it. -/
theorem fresh_of_unlisted (h : Tidy others (l :: lives) w) (hfree : Unlisted l.key w.hosts.values) :
    Fresh l.key lives w :=
  ⟨hfree, h.linked.not_mem_keys, fun r hr => ((h.recorderKeys r hr).2 l List.mem_cons_self).symm,
    h.liveKeys l List.mem_cons_self⟩

/-- **Releasing a live list.** Its registration is always there to be released, unless its buffer is
gone. -/
theorem ends_release (h : Tidy others (l :: lives) w) :
    Ends (release l) w (fun _ w' => Tidy others lives w' ∧ Fresh l.key lives w' ∧ Frame w w') R := by
  have hfacts : ∀ l' ∈ lives, l'.buffer < w.nextBuffer ∧ l'.key < w.nextListener ∧
      ∀ r ∈ w.recorders.values, l'.key ≠ r.key := fun l' hl' => h.facts l' (List.mem_cons_of_mem _ hl')
  unfold release
  refine Ends.bind (ends_nameOf? h) ?_
  rintro name? w' ⟨hw, ⟨name, host, rfl, hget, hid⟩ | ⟨rfl, hgone⟩⟩
  · subst hw
    obtain ⟨rest, hrest, -, hput, -⟩ := h.exists_rest hget
    obtain ⟨id, registry, hregistration, hremove, -, hfree⟩ := hrest.release hid
    rw [hregistration]
    refine bind_named (fun host' hget' => ?_) fun hnone => ?_
    · rw [hget] at hget'
      obtain rfl := Option.some.inj hget'
      rw [hremove]
      have hentries : ∀ e ∈ registry.entries, e.listener < w'.nextListener := by
        intro e he
        rw [((h.linked.sound host (Table.mem_values_of_get? hget)).remove hremove).2] at he
        exact h.entryKeys host (Table.mem_values_of_get? hget) e (List.mem_of_mem_filter he)
      have htidy : Tidy others lives { w' with hosts := w'.hosts.put name { host with registry } } := by
        refine h.putHost hget rfl (fun rest' _ hrest' => ?_) hentries hfacts
        obtain ⟨id', registry', hregistration', hremove', hlinked, -⟩ := hrest'.release hid
        rw [hregistration] at hregistration'
        cases hregistration'
        rw [hremove] at hremove'
        cases hremove'
        exact hlinked
      refine ends_modify ⟨htidy, ⟨fun x hx => hfree x ((hput _).mem_iff.1 hx), h.linked.not_mem_keys,
        fun r hr => ((h.recorderKeys r hr).2 l List.mem_cons_self).symm, h.liveKeys l List.mem_cons_self⟩,
        frame_putHost h.hostNames hget rfl⟩
    · rw [hget] at hnone
      cases hnone
  · subst hw
    obtain ⟨hlinked, hfree⟩ := h.linked.release_unbound hgone
    have htidy : Tidy others lives w' := ⟨hlinked, h.hostNames, h.liveNames, h.hostIds,
      fun l' hl' => (hfacts l' hl').1, fun l' hl' => (hfacts l' hl').2.1, h.entryKeys,
      fun r hr => ⟨(h.recorderKeys r hr).1, fun l' hl' => (hfacts l' hl').2.2 r hr⟩, h.recorderOthers,
      h.laterOthers⟩
    cases l.registration <;>
      exact ends_pure ⟨htidy, fresh_of_unlisted h hfree, Frame.refl w'⟩

/-! ## Live lists made, copied, dropped and bound -/

variable {buffer target : String} {group : Selections}

/-- A list in the place of one that differs in its selections only. -/
theorem orderly_setLive {l' : LiveList} (h : Orderly others w) (hget : w.liveLists.get? name = some l)
    (hsame : l'.binding = l.binding) :
    Orderly others { w with liveLists := w.liveLists.put name l' } := by
  obtain ⟨rest, hvalues, hput, -⟩ := Table.exists_rest hget h.liveNames
  have hswap : Tidy others (l' :: rest) w := (h.perm hvalues).rebind (by
    rw [List.map_cons, List.map_cons, hsame])
  exact (hswap.setLiveLists (Table.nodup_put h.liveNames l')).perm (hput l').symm

/-- A list that is registered but has no name gets one, and the list that had the name is released. -/
theorem ends_putLive (h : Tidy others (l :: w.liveLists.values) w) :
    Ends (putLive name l) w (fun _ w' => Orderly others w') R := by
  have hnames : ((w.liveLists.put name l).map Prod.fst).Nodup := Table.nodup_put h.liveNames l
  unfold putLive
  refine bind_get (bind_modify ?_)
  cases hget : w.liveLists.get? name with
  | none =>
    have hvalues := Table.values_put_of_none hget l
    exact ends_pure ((h.setLiveLists hnames).perm hvalues.symm)
  | some old =>
    obtain ⟨rest, hvalues, hput, -⟩ := Table.exists_rest hget h.liveNames
    have hheld : Tidy others (old :: l :: rest) { w with liveLists := w.liveLists.put name l } :=
      (h.setLiveLists hnames).perm ((hvalues.cons l).trans (.swap old l rest))
    refine (ends_release hheld).mono ?_ fun _ _ hR => hR
    rintro _ w' ⟨htidy, -, hframe⟩
    refine htidy.perm ?_
    rw [hframe.liveLists]
    exact (hput l).symm

theorem track_faults {b : Buffer} {f : Fault} (h : LiveList.track b group = .error f) :
    f ≠ .unregistered := by
  rintro rfl
  unfold LiveList.track Selections.check at h
  by_cases hempty : group.items ≠ []
  · rw [Fault.unless_of hempty, Fault.ok_bind] at h
    by_cases hmain : group.main < group.items.length
    · rw [Fault.unless_of hmain] at h
      cases h
    · rw [Fault.unless, if_neg hmain] at h
      cases h
  · rw [Fault.unless, if_neg hempty] at h
    cases h

theorem checkCurrent_faults {list : SelectionList} {b : Buffer} {f : Fault}
    (h : list.checkCurrent b = .error f) : f ≠ .unregistered := by
  rintro rfl
  unfold SelectionList.checkCurrent SelectionList.checkBuffer at h
  by_cases hbuffer : list.buffer = b.id
  · rw [Fault.unless_of hbuffer, Fault.ok_bind, Fault.unless] at h
    split at h <;> cases h
  · rw [Fault.unless, if_neg hbuffer] at h
    cases h

variable (hR : ∀ f w', f ≠ Fault.unregistered → R (.fault f) w')

include hR

/-- **Tracking selections.** -/
theorem ends_trackSelections (h : Orderly others w) :
    Ends (trackSelections name buffer group) w (fun _ w' => Orderly others w') R := by
  unfold trackSelections
  refine bind_buffer (fun host hget => ?_) (hR _ _ (by decide))
  refine bind_require (fun group htrack => ?_) fun f hf => hR _ _ (track_faults hf)
  refine Ends.bind (ends_newKey h) ?_
  rintro key w₁ ⟨htidy, hfresh, hframe, -⟩
  have halive : ∀ l ∈ w.liveLists.values, w₁.listenerAlive l.key = true := fun l hl =>
    listenerAlive_of_mem (hframe.liveLists ▸ hl)
  refine Ends.bind (ends_register_live htidy hfresh halive group (hR _ _ (by decide))) ?_
  rintro id w₂ ⟨host', hget', htidy', hframe'⟩
  obtain ⟨host'', hget'', hsame⟩ := hframe.exists_host hget'
  rw [hget] at hget''
  obtain rfl := Option.some.inj hget''
  rw [← hsame, ← hframe.liveLists, ← hframe'.liveLists] at htidy'
  exact ends_putLive htidy'

/-- **Copying a live list**, on a buffer that exists or does not. -/
theorem ends_copyLive (h : Orderly others w) :
    Ends (copyLive name target) w (fun _ w' => Orderly others w') R := by
  unfold copyLive liveList
  refine bind_named (fun l hget => ?_) fun _ => hR _ _ (by decide)
  refine Ends.bind (ends_newKey h) ?_
  rintro key w₁ ⟨htidy, hfresh, hframe, -⟩
  have hl : l ∈ w.liveLists.values := Table.mem_values_of_get? hget
  refine Ends.bind (ends_nameOf? htidy) ?_
  rintro name? w₂ ⟨hw, ⟨buffer, host, rfl, hget', hid⟩ | ⟨rfl, hgone⟩⟩
  · subst hw
    have halive : ∀ l ∈ w.liveLists.values, w₂.listenerAlive l.key = true := fun l hl =>
      listenerAlive_of_mem (hframe.liveLists ▸ hl)
    have hregister : Ends (register buffer key) w₂ (fun id w' => ∃ host, w₂.hosts.get? buffer = some host ∧
        Tidy others (⟨key, l.group, host.buffer.id, some id⟩ :: w.liveLists.values) w' ∧ Frame w₂ w') R :=
      ends_register_live htidy hfresh halive l.group (hR _ w₂ (by decide))
    refine Ends.bind (P := fun registration w' => Tidy others
      ({ l with key, registration } :: w.liveLists.values) w' ∧ w'.liveLists = w.liveLists)
      (Ends.map (hregister.mono ?_ fun _ _ hR => hR)) ?_
    · rintro id w₃ ⟨host', hget'', htidy', hframe'⟩
      rw [hget'] at hget''
      obtain rfl := Option.some.inj hget''
      rw [hid] at htidy'
      exact ⟨htidy', hframe'.liveLists.trans hframe.liveLists⟩
    · rintro registration w₃ ⟨htidy', hsame⟩
      rw [← hsame] at htidy'
      exact ends_putLive htidy'
  · subst hw
    -- no buffer knows the copy
    have hcopy : Tidy others ({ l with key, registration := none } :: w.liveLists.values) w₂ :=
      htidy.adopt (l := { l with key, registration := none }) hfresh hgone (htidy.liveBuffers l hl)
    rw [← hframe.liveLists] at hcopy
    exact ends_putLive hcopy

omit hR in
/-- **Dropping a live list.** -/
theorem ends_dropLive (h : Orderly others w) :
    Ends (dropLive name) w (fun _ w' => Orderly others w') R := by
  unfold dropLive
  refine bind_get ?_
  cases hget : w.liveLists.get? name with
  | none => exact ends_pure h
  | some l =>
    obtain ⟨rest, hvalues, -, hdrop⟩ := Table.exists_rest hget h.liveNames
    have hheld : Tidy others (l :: rest) w := h.perm hvalues
    refine Ends.bind (ends_release hheld) ?_
    rintro _ w' ⟨htidy, -, hframe⟩
    have hnames : ((w'.liveLists.drop name).map Prod.fst).Nodup := Table.nodup_drop htidy.liveNames
    refine bind_modify (ends_pure ((htidy.setLiveLists hnames).perm ?_))
    show rest.Perm (w'.liveLists.drop name).values
    rw [hframe.liveLists]
    exact hdrop.symm

/-- Other selections in a live list. -/
theorem ends_alterLive {f : Selections → Except Fault Selections} (h : Orderly others w)
    (hf : ∀ s e, f s = .error e → R (.fault e) w) :
    Ends (alterLive name f) w (fun _ w' => Orderly others w') R := by
  unfold alterLive liveList
  refine bind_named (fun l hget => ?_) fun _ => hR _ _ (by decide)
  refine bind_require (fun group _ => ?_) fun e he => hf _ e he
  exact ends_modify (orderly_setLive h hget rfl)

/-- **Binding a live list** to the buffer under a name. -/
theorem ends_bindLive (h : Orderly others w) :
    Ends (bindLive name buffer) w (fun _ w' => Orderly others w') R := by
  unfold bindLive liveList
  refine bind_named (fun l hget => ?_) fun _ => hR _ _ (by decide)
  refine bind_buffer (fun host hget' => ?_) (hR _ _ (by decide))
  by_cases hmove : l.buffer ≠ host.buffer.id ∨ l.registration = none
  swap
  · rw [if_neg hmove]
    exact ends_pure h
  rw [if_pos hmove]
  obtain ⟨rest, hvalues, hput, -⟩ := Table.exists_rest hget h.liveNames
  refine Ends.bind (ends_release (h.perm hvalues)) ?_
  rintro _ w₁ ⟨htidy, hfresh, hframe⟩
  have halive : ∀ l' ∈ rest, w₁.listenerAlive l'.key = true := by
    intro l' hl'
    refine listenerAlive_of_mem ?_
    rw [hframe.liveLists]
    exact hvalues.mem_iff.2 (List.mem_cons_of_mem _ hl')
  refine Ends.bind (ends_register_live htidy hfresh halive l.group (hR _ _ (by decide))) ?_
  rintro id w₂ ⟨host', hget'', htidy', hframe'⟩
  obtain ⟨host'', hsame, hbuffer⟩ := hframe.exists_host hget''
  rw [hget'] at hsame
  obtain rfl := Option.some.inj hsame
  rw [← hbuffer] at htidy'
  have hlists : w₂.liveLists = w.liveLists := hframe'.liveLists.trans hframe.liveLists
  have hnames : ((w₂.liveLists.put name
      { l with buffer := host.buffer.id, registration := some id }).map Prod.fst).Nodup :=
    Table.nodup_put htidy'.liveNames _
  refine bind_modify ((ends_note (htidy'.setLiveLists hnames)).mono ?_ fun _ _ hR => hR)
  rintro _ w₃ ⟨htidy'', hframe''⟩
  refine htidy''.perm ?_
  rw [hframe''.liveLists]
  show List.Perm _ (w₂.liveLists.put name _).values
  rw [hlists]
  exact (hput _).symm

/-- **Tracking other selections**, perhaps on another buffer. -/
theorem ends_rebindLive {items : List Selection} (h : Orderly others w) :
    Ends (rebindLive name buffer items) w (fun _ w' => Orderly others w') R := by
  unfold rebindLive
  refine Ends.bind (ends_bindLive hR h) fun _ w' h' => ?_
  refine bind_buffer (fun host _ => ?_) (hR _ _ (by decide))
  refine bind_require (fun group _ => ?_) fun f hf => hR _ _ (track_faults hf)
  unfold liveList
  refine bind_named (fun l hget => ?_) fun _ => hR _ _ (by decide)
  exact ends_modify (orderly_setLive h' hget rfl)

/-- **Tracking the selections of a list.** -/
theorem ends_resetLive {listName : String} (h : Orderly others w) :
    Ends (resetLive name buffer listName) w (fun _ w' => Orderly others w') R := by
  unfold resetLive list
  refine bind_named (fun l _ => ?_) fun _ => hR _ _ (by decide)
  refine bind_buffer (fun host _ => ?_) (hR _ _ (by decide))
  refine bind_require (fun _ _ => ?_) fun f hf => hR _ _ (checkCurrent_faults hf)
  refine Ends.bind (ends_rebindLive hR h) fun _ w' h' => ?_
  refine ends_alterLive hR h' fun s e he => hR _ _ ?_
  rintro rfl
  unfold Selections.setMain Fault.unless at he
  split at he <;> cases he

/-- **Tracking a copy of a list.** -/
theorem ends_trackList {listName : String} (h : Orderly others w) :
    Ends (trackList name buffer listName) w (fun _ w' => Orderly others w') R := by
  unfold trackList list
  refine bind_named (fun l _ => ?_) fun _ => hR _ _ (by decide)
  refine bind_buffer (fun host _ => ?_) (hR _ _ (by decide))
  refine bind_require (fun _ _ => ?_) fun f hf => hR _ _ (checkCurrent_faults hf)
  exact ends_trackSelections hR h

end WorkspaceM

/-! ## Edits -/

namespace WorkspaceM

open Workspace

variable {others : ListenerKey → Prop} {w : Workspace} {name : String} {held : Option ListenerKey}
  {R : Failure → Workspace → Prop} (hR : ∀ f w', Orderly others w' → R f w')

include hR

theorem ends_notify {r : Revision} {key : ListenerKey} (h : Orderly others w) :
    Ends (notify held r key) w (fun _ => Orderly others) R := by
  unfold notify
  by_cases hheld : held = some key
  · rw [if_pos hheld]
    exact hR _ _ h
  rw [if_neg hheld]
  refine bind_get (bind_require (fun liveLists hlive => ?_) fun _ _ => hR _ _ h)
  refine bind_require (fun recorders hrecorders => ?_) fun _ _ => hR _ _ h
  have hbindings : liveLists.values.map LiveList.binding = w.liveLists.values.map LiveList.binding := by
    refine Table.map_values_of_mapValues hlive fun a b hab => ?_
    split at hab
    · exact LiveList.binding_of_follow hab
    · cases hab
      rfl
  have hkeys : recorders.values.map Recorder.key = w.recorders.values.map Recorder.key := by
    refine Table.map_values_of_mapValues hrecorders fun a b hab => ?_
    cases hab
    split <;> rfl
  have hnames : (liveLists.map Prod.fst).Nodup := (Table.mapValues_eq_ok hlive).1 ▸ h.liveNames
  have hlists : Tidy others liveLists.values { w with liveLists } :=
    (h.setLiveLists hnames).rebind hbindings
  have hset : Orderly others { w with liveLists, recorders } := by
    have hsame : ∀ r ∈ recorders.values, ∃ r' ∈ w.recorders.values, r'.key = r.key := by
      intro r hr
      have hmem := List.mem_map_of_mem (f := Recorder.key) hr
      rw [hkeys] at hmem
      exact List.mem_map.1 hmem
    refine ⟨hlists.linked, h.hostNames, hnames, h.hostIds, hlists.liveBuffers, hlists.liveKeys,
      h.entryKeys, fun r hr => ?_, fun r hr => ?_, h.laterOthers⟩
    · obtain ⟨r', hr', hkey⟩ := hsame r hr
      exact hkey ▸ hlists.recorderKeys r' hr'
    · obtain ⟨r', hr', hkey⟩ := hsame r hr
      exact hkey ▸ h.recorderOthers r' hr'
  exact hset

theorem ends_publish {r : Revision} (h : Orderly others w) :
    Ends (publish name held r) w (fun _ => Orderly others) R := by
  unfold publish
  refine bind_named (fun host hget => bind_get (bind_modify ?_)) fun _ => hR _ _ h
  have hpruned : Orderly others { w with
      hosts := (w.hosts.put name { host with registry := host.registry.prune w.listenerAlive }) } := by
    refine h.putHost hget rfl (fun rest _ hrest => ?_) (fun e he => ?_) h.facts
    · exact hrest.prune fun l hl => listenerAlive_of_mem hl
    · exact h.entryKeys host (Table.mem_values_of_get? hget) e (List.mem_of_mem_filter he)
  refine Ends.bind (ends_note hpruned) ?_
  rintro _ w' ⟨htidy, hframe⟩
  have hnoted : Orderly others w' := by
    unfold Orderly
    rw [hframe.liveLists]
    exact htidy
  exact ends_forM _ (fun e _ w'' h' => ends_notify hR h') hnoted

/-- **An edit** leaves all live lists registered as they were. -/
theorem ends_editHolding {α : Type} {act : EditM α} (h : Orderly others w)
    (hact : ∀ d : Draft, EditM.Maintains d.Extends act) :
    Ends (editHolding held name act) w (fun _ => Orderly others) R := by
  unfold editHolding
  refine bind_named (fun host hget => ?_) fun _ => hR _ _ h
  have hid : (act.exec host.buffer).2.buffer.id = host.buffer.id :=
    (hact { buffer := host.buffer } { buffer := host.buffer } (.refl _)).id
  generalize act.exec host.buffer = result at hid
  obtain ⟨outcome, draft⟩ := result
  have hput : Orderly others { w with hosts := w.hosts.put name { host with buffer := draft.buffer } } :=
    h.putHost hget hid (fun rest _ hrest => hrest.setBuffer hid)
      (fun e he => h.entryKeys host (Table.mem_values_of_get? hget) e he) h.facts
  refine bind_modify (Ends.bind (ends_forM _ (fun r _ w' h' => ends_publish hR h') hput) ?_)
  intro _ w' h'
  cases outcome with
  | ok a => exact h'
  | error f => exact hR f w' h'

/-- **Visiting the selections of a live list.** -/
theorem ends_visitLive {buffer : String} {mayQueue : Bool} {callback : ℕ → Script}
    (h : Orderly others w) :
    Ends (visitLive name buffer mayQueue callback) w (fun _ => Orderly others) R := by
  unfold visitLive liveList
  refine bind_named (fun l _ => ?_) fun _ => hR _ _ h
  refine bind_buffer (fun host _ => ?_) (hR _ _ h)
  refine bind_require (fun _ _ => bind_require (fun batch _ => ?_) fun _ _ => hR _ _ h) fun _ _ => hR _ _ h
  have hact (d : Draft) : EditM.Maintains d.Extends (batch.visitAll mayQueue callback) :=
    (Draft.Extends.invariant d).visitAll batch mayQueue callback
  refine Ends.bind (ends_editHolding hR h hact) fun _ w' h' => ?_
  refine bind_buffer (fun host' _ => ?_) (hR _ _ h')
  refine bind_require (fun group _ => ?_) fun _ _ => hR _ _ h'
  refine bind_named (fun l' hget => ?_) fun _ => hR _ _ h'
  exact bind_modify (ends_pure (orderly_setLive h' hget rfl))

/-- **Visiting the selections of a list.** -/
theorem ends_visitList {buffer : String} {mayQueue : Bool} {callback : ℕ → Script}
    (h : Orderly others w) :
    Ends (visitList name buffer (·.visitAll mayQueue callback)) w (fun _ => Orderly others) R := by
  unfold visitList list
  refine bind_named (fun l _ => ?_) fun _ => hR _ _ h
  refine bind_buffer (fun host _ => ?_) (hR _ _ h)
  refine bind_modify ?_
  have hnoted : Orderly others { w with journal := w.journal.noteAll (l.updateNotes host.buffer true) } :=
    h.congr rfl h.liveNames rfl rfl rfl
  have hact (d : Draft) : EditM.Maintains d.Extends (l.visitAll mayQueue callback) :=
    (Draft.Extends.invariant d).visitAll l mayQueue callback
  refine Ends.bind (ends_editHolding hR hnoted hact) fun visited w' h' => ?_
  exact bind_modify (ends_pure (h'.congr rfl h'.liveNames rfl rfl rfl))

/-- Other selections in a live list, at positions of a buffer. -/
theorem ends_pushLive {buffer : String} {s : Selection} (h : Orderly others w) :
    Ends (pushLive name buffer s) w (fun _ => Orderly others) R := by
  unfold pushLive liveList
  refine bind_named (fun l hget => ?_) fun _ => hR _ _ h
  refine bind_buffer (fun host _ => ?_) (hR _ _ h)
  refine bind_require (fun _ _ => ?_) fun _ _ => hR _ _ h
  exact ends_modify (orderly_setLive h hget rfl)

theorem ends_removeFromLive {i : ℕ} (h : Orderly others w) :
    Ends (removeFromLive name i) w (fun _ => Orderly others) R := by
  unfold removeFromLive liveList
  refine bind_named (fun l hget => ?_) fun _ => hR _ _ h
  refine bind_require (fun removed _ => ?_) fun _ _ => hR _ _ h
  exact bind_modify (ends_pure (orderly_setLive h hget rfl))

/-- A list made of a live list. -/
theorem ends_snapshotLive {buffer listName : String} (h : Orderly others w) :
    Ends (snapshotLive name buffer listName) w (fun _ => Orderly others) R := by
  unfold snapshotLive liveList
  refine bind_named (fun l _ => ?_) fun _ => hR _ _ h
  refine bind_buffer (fun host _ => ?_) (hR _ _ h)
  by_cases hforeign : l.buffer ≠ host.buffer.id
  · rw [if_pos hforeign]
    exact ends_pure h
  rw [if_neg hforeign]
  refine bind_require (fun list _ => ?_) fun _ _ => hR _ _ h
  exact bind_modify (ends_pure (h.congr rfl h.liveNames rfl rfl rfl))

/-- An edit that a live list cannot be told of. -/
theorem ends_insertHolding {buffer : String} {start : Coord} {new : Text} (h : Orderly others w) :
    Ends (insertHolding name buffer start new) w (fun _ => Orderly others) R := by
  unfold insertHolding liveList
  refine bind_named (fun l _ => ?_) fun _ => hR _ _ h
  exact ends_editHolding hR h fun d => (Draft.Extends.invariant d).insert start new

/-! ## Buffers -/

/-- What is told of a buffer that goes does not matter. -/
theorem ends_bury {host : Host} (h : Orderly others w) :
    Ends (bury host) w (fun _ => Orderly others) R := by
  unfold bury
  refine bind_get (bind_require (fun listeners _ => ?_) fun _ _ => hR _ _ h)
  exact bind_modify (ends_pure (h.congr rfl h.liveNames rfl rfl rfl))

/-- **Making a buffer**, in the place of another one or not. -/
theorem ends_openBuffer {text : Text} {options : Options} (h : Orderly others w) :
    Ends (openBuffer name text options) w (fun _ => Orderly others) R := by
  unfold openBuffer
  refine bind_get (bind_set ?_)
  have hlt {n : ℕ} (hn : n < w.nextBuffer) : n < w.nextBuffer + 1 := Nat.lt_succ_of_lt hn
  have hopened : Orderly others { w with
      nextBuffer := w.nextBuffer + 1
      hosts := (w.hosts.put name { buffer := Buffer.ofText w.nextBuffer text options }) } := by
    have hfree : ∀ l ∈ w.liveLists.values, l.buffer ≠ w.nextBuffer := fun l hl => (h.liveBuffers l hl).ne
    have hold : ∀ x ∈ w.hosts.values, x.buffer.id ≠ w.nextBuffer := fun x hx => (h.hostIds x hx).ne
    refine ⟨?_, Table.nodup_put h.hostNames _, h.liveNames, fun x hx => ?_,
      fun l hl => hlt (h.liveBuffers l hl), h.liveKeys, fun x hx => ?_, h.recorderKeys,
      h.recorderOthers, h.laterOthers⟩
    · cases hget : w.hosts.get? name with
      | none =>
        have hlinked := h.linked.openBuffer (b := Buffer.ofText w.nextBuffer text options) hold hfree
        exact hlinked.perm (Table.values_put_of_none hget _).symm (.refl _)
      | some host =>
        -- the buffer that had the name takes its registry with it
        obtain ⟨rest, hrest, hvalues, hput, -⟩ := h.exists_rest hget
        have hold' : ∀ x ∈ rest, x.buffer.id ≠ w.nextBuffer := fun x hx =>
          hold x (hvalues.mem_iff.2 (List.mem_cons_of_mem _ hx))
        have hlinked := (hrest.sublist (List.sublist_cons_self host rest)).openBuffer
          (b := Buffer.ofText w.nextBuffer text options) hold' hfree
        exact hlinked.perm (hput _).symm (.refl _)
    · rcases Table.mem_values_put hx with rfl | hx
      · exact Nat.lt_succ_self _
      · exact hlt (h.hostIds x hx)
    · rcases Table.mem_values_put hx with rfl | hx
      · intro e he
        cases he
      · exact h.entryKeys x hx
  cases w.hosts.get? name with
  | none => exact ends_pure hopened
  | some host =>
    refine Ends.bind (ends_bury hR hopened) fun handles w' h' => ?_
    exact bind_require (fun _ _ => ends_pure h') fun _ _ => hR _ _ h'

/-- **Dropping a buffer.** -/
theorem ends_closeBuffer (h : Orderly others w) :
    Ends (closeBuffer name) w (fun _ => Orderly others) R := by
  unfold closeBuffer
  refine bind_named (fun host _ => ?_) fun _ => hR _ _ h
  refine Ends.bind (ends_bury hR h) fun handles w' h' => bind_modify (ends_pure ?_)
  have hsub : (w'.hosts.drop name).values.Sublist w'.hosts.values := List.filter_sublist.map _
  exact ⟨h'.linked.sublist hsub, Table.nodup_drop h'.hostNames, h'.liveNames,
    fun x hx => h'.hostIds x (hsub.subset hx), h'.liveBuffers, h'.liveKeys,
    fun x hx => h'.entryKeys x (hsub.subset hx), h'.recorderKeys, h'.recorderOthers, h'.laterOthers⟩

/-! ## Other listeners -/

omit hR in
theorem tidy_putRecorder {lives : List LiveList} {recorder : Recorder} (h : Tidy others lives w)
    (hkey : recorder.key < w.nextListener) (hnew : ∀ l ∈ lives, l.key ≠ recorder.key)
    (hother : others recorder.key) :
    Tidy others lives { w with recorders := w.recorders.put name recorder } := by
  refine ⟨h.linked, h.hostNames, h.liveNames, h.hostIds, h.liveBuffers, h.liveKeys, h.entryKeys,
    fun r hr => ?_, fun r hr => ?_, h.laterOthers⟩
  · rcases Table.mem_values_put hr with rfl | hr
    · exact ⟨hkey, hnew⟩
    · exact h.recorderKeys r hr
  · rcases Table.mem_values_put hr with rfl | hr
    · exact hother
    · exact h.recorderOthers r hr

/-- Registering a recorder that there is, under its name or not yet. -/
theorem ends_enrol {buffer : String} {recorder : Recorder} (h : Orderly others w)
    (hother : others recorder.key) (hkey : recorder.key < w.nextListener)
    (hnew : ∀ l ∈ w.liveLists.values, l.key ≠ recorder.key) :
    Ends (do
      modify fun w => { w with recorders := w.recorders.put name recorder }
      let id ← register buffer recorder.key
      let registrations := recorder.registrations ++ [id]
      modify fun w => { w with recorders := w.recorders.put name { recorder with registrations } })
      w (fun _ => Orderly others) R := by
  refine bind_modify ?_
  have hput : Tidy others w.liveLists.values
      { w with recorders := w.recorders.put name recorder } := tidy_putRecorder h hkey hnew hother
  refine Ends.bind (ends_register (fun _ => w.liveLists.values) hput hkey ?_ (fun _ _ => hput.facts)
    (hR _ _ hput)) ?_
  · intro host rest _ _ hrest
    exact hrest.add hother (fun l hl => listenerAlive_of_mem hl) hnew
  rintro id w' ⟨host, -, -, htidy, hframe⟩
  have hmem : recorder ∈ w'.recorders.values := by
    rw [hframe.recorders]
    exact Table.mem_values_put_self _ name recorder
  obtain ⟨hbelow, hdistinct⟩ := htidy.recorderKeys recorder hmem
  have hlists : w'.liveLists = w.liveLists := hframe.liveLists
  have hlater : Orderly others w' := by
    unfold Orderly
    rw [hlists]
    exact htidy
  rw [← hlists] at hdistinct
  exact ends_modify (tidy_putRecorder hlater hbelow hdistinct hother)

/-- **Registering a recorder**, which is one of the others. -/
theorem ends_record {buffer : String} (h : Orderly others w) (hothers : ∃ key, others key) :
    Ends (record name buffer) w (fun _ => Orderly others) R := by
  unfold record
  refine bind_get ?_
  cases hget : w.recorders.get? name with
  | some recorder =>
    obtain ⟨hkey, hnew⟩ := h.recorderKeys recorder (Table.mem_values_of_get? hget)
    exact ends_enrol hR h (h.recorderOthers recorder (Table.mem_values_of_get? hget)) hkey hnew
  | none =>
    refine Ends.bind (ends_newKey h) ?_
    rintro key w' ⟨htidy, hfresh, hframe, hother⟩
    rw [← hframe.liveLists] at htidy hfresh
    exact ends_enrol hR htidy (hother hothers) hfresh.below hfresh.live

/-- **Releasing a registration of a recorder** on the buffer that it was made on. -/
theorem ends_unrecord {buffer : String} {i : ℕ} (h : Orderly others w)
    (hproper : ∀ recorder host id, w.recorders.get? name = some recorder →
      w.hosts.get? buffer = some host → recorder.registrations[i]? = some id →
        ∀ e ∈ host.registry.entries, e.id = id → e.listener = recorder.key) :
    Ends (unrecord name buffer i) w (fun _ => Orderly others) R := by
  unfold unrecord
  refine bind_named (fun recorder hrecorder => ?_) fun _ => hR _ _ h
  refine bind_named (fun host hget => ?_) fun _ => hR _ _ h
  cases hremove : recorder.registrations[i]?.bind (host.registry.remove ·) with
  | none => exact ends_pure h
  | some registry =>
    obtain ⟨id, hid, hremove⟩ := Option.bind_eq_some_iff.1 hremove
    have hkey := (h.recorderKeys recorder (Table.mem_values_of_get? hrecorder)).2
    have hsound := h.linked.sound host (Table.mem_values_of_get? hget)
    refine bind_modify (ends_pure (h.putHost hget rfl (fun rest _ hrest => ?_) (fun e he => ?_) h.facts))
    · refine hrest.remove hremove fun e he hsame l hl => ?_
      rw [hproper recorder host id hrecorder hget hid e he hsame]
      exact hkey l hl
    · rw [(hsound.remove hremove).2] at he
      exact h.entryKeys host (Table.mem_values_of_get? hget) e (List.mem_of_mem_filter he)

/-- A recorder that says what it saw. -/
theorem ends_takeSeen (h : Orderly others w) : Ends (takeSeen name) w (fun _ => Orderly others) R := by
  unfold takeSeen
  refine bind_named (fun recorder hget => ?_) fun _ => hR _ _ h
  have hmem := Table.mem_values_of_get? hget
  obtain ⟨hkey, hnew⟩ := h.recorderKeys recorder hmem
  exact bind_modify (ends_pure (tidy_putRecorder h hkey hnew (h.recorderOthers recorder hmem)))

end WorkspaceM

end Caret
