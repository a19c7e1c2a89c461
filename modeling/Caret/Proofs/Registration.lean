import Mathlib.Data.List.Perm.Basic
import Mathlib.Data.List.Nodup
import Mathlib.Tactic.Common
import Caret.Proofs.Fault
import Caret.Workspace

/-!
# Registrations of live lists

Live lists and the registries of their buffers agree: a list is registered exactly once where its
buffer is, and nowhere else. What is registered beside live lists is some other listener.

* `Registry.Sound`: numbers in order and counts that balance.
* `LiveList.LinkedTo`, `Linked`: the invariant of buffers and live lists, in any order.
* `Linked.release`, `Linked.register`: a list out of a registry and into one.
* `Linked.length_entries`: the entries of a registry counted by the listeners they belong to.
-/

namespace Caret

namespace Registry

variable {r r' : Registry} {alive : ListenerKey → Bool} {key : ListenerKey} {id : ListenerId} {e : Entry}

/-- Numbers are given out in order, and each registration is released or still there. -/
structure Sound (r : Registry) : Prop where
  ordered : r.entries.Pairwise (·.id < ·.id)
  below : ∀ e ∈ r.entries, e.id < r.nextId
  counted : r.registered = r.unregistered + r.entries.length

theorem sound_empty : Sound {} := ⟨.nil, by simp, rfl⟩

/-- **The registrations that were not released** are those in the registry. -/
theorem Sound.active_eq (h : r.Sound) : r.active = .ok r.entries.length := by
  have hle : r.unregistered ≤ r.registered := by rw [h.counted]; omega
  unfold active Count.sub
  rw [if_pos hle, h.counted, Nat.add_sub_cancel_left]

theorem Sound.nodup (h : r.Sound) : (r.entries.map Entry.id).Nodup :=
  List.pairwise_map.2 (h.ordered.imp fun hlt => Nat.ne_of_lt hlt)

theorem Sound.eq_of_id_eq (h : r.Sound) {d : Entry} (hd : d ∈ r.entries) (he : e ∈ r.entries)
    (hid : d.id = e.id) : d = e :=
  List.inj_on_of_nodup_map h.nodup hd he hid

theorem Sound.prune (h : r.Sound) : (r.prune alive).Sound := by
  have hle := List.length_filter_le (fun e : Entry => alive e.listener) r.entries
  refine ⟨h.ordered.filter _, fun e he => h.below e (List.mem_of_mem_filter he), ?_⟩
  have hcounted := h.counted
  unfold Registry.prune
  dsimp only
  omega

theorem Sound.add (h : r.Sound) : (r.add alive key).Sound := by
  have hpruned : (r.prune alive).Sound := h.prune
  refine ⟨?_, ?_, ?_⟩
  · refine List.pairwise_append.2 ⟨hpruned.ordered, List.pairwise_singleton _ _, ?_⟩
    intro a ha b hb
    rw [List.mem_singleton.1 hb]
    exact hpruned.below a ha
  · intro e he
    rcases List.mem_append.1 he with he | he
    · exact Nat.lt_succ_of_lt (hpruned.below e he)
    · rw [List.mem_singleton.1 he]
      exact Nat.lt_succ_self _
  · have hcounted := hpruned.counted
    have hlen : (r.add alive key).entries.length = (r.prune alive).entries.length + 1 :=
      List.length_append
    have hregistered : (r.add alive key).registered = (r.prune alive).registered + 1 := rfl
    have hunregistered : (r.add alive key).unregistered = (r.prune alive).unregistered := rfl
    omega

theorem Sound.filter_beq (h : r.Sound) (he : e ∈ r.entries) : r.entries.filter (· == e) = [e] := by
  have hnodup : r.entries.Nodup := h.nodup.of_map Entry.id
  rw [List.filter_beq, List.count_eq_one_of_mem hnodup he]
  rfl

/-- Just one entry has a number. -/
theorem Sound.eraseP_eq (h : r.Sound) (he : e ∈ r.entries) :
    r.entries.eraseP (·.id == e.id) = r.entries.filter (·.id != e.id) := by
  obtain ⟨a, pre, post, hpre, ha, hsplit, herase⟩ :=
    List.exists_of_eraseP (p := (·.id == e.id)) he (beq_self_eq_true e.id)
  have hord := h.ordered
  rw [hsplit, List.pairwise_append, List.pairwise_cons] at hord
  have hid : a.id = e.id := beq_iff_eq.1 ha
  have hpost : post.filter (·.id != e.id) = post := by
    refine List.filter_eq_self.2 fun b hb => ?_
    have hlt : a.id < b.id := hord.2.1.1 b hb
    rw [hid] at hlt
    simpa using Nat.ne_of_gt hlt
  have hpre' : pre.filter (·.id != e.id) = pre := by
    refine List.filter_eq_self.2 fun b hb => ?_
    simpa using hpre b hb
  rw [herase, hsplit, List.filter_append, hpre', List.filter_cons_of_neg (by simp [hid]), hpost]

/-- **Releasing a registration** takes the entry of that number out, and no other. -/
theorem Sound.remove_of_mem (h : r.Sound) (he : e ∈ r.entries) :
    r.remove e.id = some { r with
      entries := r.entries.filter (·.id != e.id)
      unregistered := r.unregistered + 1 } := by
  have hany : r.entries.any (·.id == e.id) = true :=
    List.any_eq_true.2 ⟨e, he, beq_self_eq_true _⟩
  unfold Registry.remove
  rw [if_pos hany, h.eraseP_eq he]

theorem exists_of_remove (h : r.remove id = some r') : ∃ e ∈ r.entries, e.id = id := by
  unfold Registry.remove at h
  split at h
  · rename_i hany
    obtain ⟨e, he, hid⟩ := List.any_eq_true.1 hany
    exact ⟨e, he, beq_iff_eq.1 hid⟩
  · cases h

theorem Sound.remove (h : r.Sound) (hr : r.remove id = some r') :
    r'.Sound ∧ r'.entries = r.entries.filter (·.id != id) := by
  obtain ⟨e, he, rfl⟩ := exists_of_remove hr
  have hlen : (r.entries.filter (·.id != e.id)).length = r.entries.length - 1 := by
    rw [← h.eraseP_eq he]
    exact List.length_eraseP_of_mem he (beq_self_eq_true e.id)
  have hpos := List.length_pos_of_mem he
  have hcounted := h.counted
  rw [h.remove_of_mem he] at hr
  cases hr
  refine ⟨⟨h.ordered.filter _, fun d hd => h.below d (List.mem_of_mem_filter hd), ?_⟩, rfl⟩
  dsimp only
  omega

end Registry

/-! ## Buffers and live lists -/

/-- The entries of a listener. -/
def Host.entriesOf (h : Host) (key : ListenerKey) : List Entry :=
  h.registry.entries.filter (·.listener == key)

/-- **A live list is registered** exactly once on its own buffer, under the number that it keeps, and
not at all on any other. -/
structure LiveList.LinkedTo (l : LiveList) (h : Host) : Prop where
  bound : h.buffer.id = l.buffer → ∃ id, l.registration = some id ∧ h.entriesOf l.key = [⟨id, l.key⟩]
  unbound : h.buffer.id ≠ l.buffer → h.entriesOf l.key = []

/-- What ties a live list to a buffer. -/
def LiveList.binding (l : LiveList) : ListenerKey × BufferId × Option ListenerId :=
  (l.key, l.buffer, l.registration)

/-- Following an edit does not change it. -/
theorem LiveList.binding_of_follow {change : Change} {l l' : LiveList} (h : l.follow change = .ok l') :
    l'.binding = l.binding := by
  unfold LiveList.follow at h
  rw [Fault.bind_eq_ok] at h
  obtain ⟨items, -, h⟩ := h
  cases h
  rfl

/-- **Buffers and live lists agree.** Whatever is registered beside the live lists is one of the
`others`. -/
structure Linked (others : ListenerKey → Prop) (hosts : List Host) (lives : List LiveList) : Prop where
  sound : ∀ h ∈ hosts, h.registry.Sound
  linked : ∀ l ∈ lives, ∀ h ∈ hosts, l.LinkedTo h
  owned : ∀ h ∈ hosts, ∀ e ∈ h.registry.entries, (∃ l ∈ lives, l.key = e.listener) ∨ others e.listener
  ids : (hosts.map (·.buffer.id)).Nodup
  keys : (lives.map LiveList.key).Nodup

/-- Pruning keeps the entries of a living listener. -/
theorem filter_alive {alive : ListenerKey → Bool} {key : ListenerKey} (h : alive key = true)
    {entries : List Entry} :
    (entries.filter fun e => alive e.listener).filter (·.listener == key) =
      entries.filter (·.listener == key) := by
  rw [List.filter_filter]
  refine List.filter_congr fun e _ => ?_
  cases hkey : e.listener == key with
  | false => rfl
  | true =>
    rw [beq_iff_eq.1 hkey, h]
    rfl

/-- No buffer has an entry of the listener. -/
def Unlisted (key : ListenerKey) (hosts : List Host) : Prop := ∀ h ∈ hosts, h.entriesOf key = []

namespace Linked

variable {others : ListenerKey → Prop} {hosts hosts' : List Host} {lives lives' : List LiveList}
  {host : Host} {l : LiveList} {key : ListenerKey} {alive : ListenerKey → Bool}

theorem nil : Linked others [] [] := ⟨by simp, by simp, by simp, .nil, .nil⟩

/-- The order of buffers and lists does not matter. -/
theorem perm (h : Linked others hosts lives) (hh : hosts.Perm hosts') (hl : lives.Perm lives') :
    Linked others hosts' lives' := by
  refine ⟨fun x hx => h.sound x (hh.mem_iff.2 hx),
    fun l hmem x hx => h.linked l (hl.mem_iff.2 hmem) x (hh.mem_iff.2 hx), ?_,
    (hh.map _).nodup_iff.1 h.ids, (hl.map _).nodup_iff.1 h.keys⟩
  intro x hx e he
  rcases h.owned x (hh.mem_iff.2 hx) e he with ⟨l, hmem, hkey⟩ | hother
  · exact .inl ⟨l, hl.mem_iff.1 hmem, hkey⟩
  · exact .inr hother

/-- Selections do not matter. -/
theorem congr (h : Linked others hosts lives)
    (hl : lives'.map LiveList.binding = lives.map LiveList.binding) : Linked others hosts lives' := by
  have hkeys : lives'.map LiveList.key = lives.map LiveList.key := by
    have hmap := congrArg (List.map fun b : ListenerKey × BufferId × Option ListenerId => b.1) hl
    rw [List.map_map, List.map_map] at hmap
    exact hmap
  refine ⟨h.sound, ?_, ?_, h.ids, hkeys ▸ h.keys⟩
  · intro l' hl' x hx
    have hmem := List.mem_map_of_mem (f := LiveList.binding) hl'
    rw [hl] at hmem
    obtain ⟨l, hmem, hsame⟩ := List.mem_map.1 hmem
    obtain ⟨hkey, hbuffer, hregistration⟩ : l.key = l'.key ∧ l.buffer = l'.buffer ∧
        l.registration = l'.registration := by
      simpa [LiveList.binding] using hsame
    have hlinked := h.linked l hmem x hx
    refine ⟨fun hb => ?_, fun hb => ?_⟩
    · rw [← hregistration, ← hkey]
      exact hlinked.bound (hb.trans hbuffer.symm)
    · rw [← hkey]
      exact hlinked.unbound (hbuffer ▸ hb)
  · intro x hx e he
    rcases h.owned x hx e he with ⟨l, hmem, hkey⟩ | hother
    · have hmem' := List.mem_map_of_mem (f := LiveList.key) hmem
      rw [← hkeys] at hmem'
      obtain ⟨l', hmem', hkey'⟩ := List.mem_map.1 hmem'
      exact .inl ⟨l', hmem', hkey'.trans hkey⟩
    · exact .inr hother

/-- Another registry in the place of one. -/
theorem setRegistry {r : Registry} (h : Linked others (host :: hosts) lives) (hsound : r.Sound)
    (hsame : ∀ l ∈ lives, r.entries.filter (·.listener == l.key) = host.entriesOf l.key)
    (howned : ∀ e ∈ r.entries, (∃ l ∈ lives, l.key = e.listener) ∨ others e.listener) :
    Linked others ({ host with registry := r } :: hosts) lives := by
  refine ⟨?_, ?_, ?_, h.ids, h.keys⟩
  · intro x hx
    rcases List.mem_cons.1 hx with rfl | hx
    · exact hsound
    · exact h.sound x (List.mem_cons_of_mem _ hx)
  · intro l hl x hx
    rcases List.mem_cons.1 hx with rfl | hx
    · have hlinked := h.linked l hl host List.mem_cons_self
      have hentries : ({ host with registry := r } : Host).entriesOf l.key = host.entriesOf l.key :=
        hsame l hl
      exact ⟨fun hb => hentries ▸ hlinked.bound hb, fun hb => hentries ▸ hlinked.unbound hb⟩
    · exact h.linked l hl x (List.mem_cons_of_mem _ hx)
  · intro x hx
    rcases List.mem_cons.1 hx with rfl | hx
    · exact howned
    · exact h.owned x (List.mem_cons_of_mem _ hx)

/-- Another buffer of the same number in the place of one. -/
theorem setBuffer {b : Buffer} (h : Linked others (host :: hosts) lives) (hb : b.id = host.buffer.id) :
    Linked others ({ host with buffer := b } :: hosts) lives := by
  refine ⟨?_, ?_, ?_, ?_, h.keys⟩
  · intro x hx
    rcases List.mem_cons.1 hx with rfl | hx
    · exact h.sound host List.mem_cons_self
    · exact h.sound x (List.mem_cons_of_mem _ hx)
  · intro l hl x hx
    rcases List.mem_cons.1 hx with rfl | hx
    · have hlinked := h.linked l hl host List.mem_cons_self
      exact ⟨fun hid => hlinked.bound (hb.symm.trans hid), fun hid => hlinked.unbound (hb ▸ hid)⟩
    · exact h.linked l hl x (List.mem_cons_of_mem _ hx)
  · intro x hx
    rcases List.mem_cons.1 hx with rfl | hx
    · exact h.owned host List.mem_cons_self
    · exact h.owned x (List.mem_cons_of_mem _ hx)
  · have hids := h.ids
    rw [List.map_cons] at hids ⊢
    rw [← hb] at hids
    exact hids

/-! ## Buffers that come and go -/

/-- Buffers go together with their registries. -/
theorem sublist (h : Linked others hosts lives) (hs : hosts'.Sublist hosts) : Linked others hosts' lives :=
  ⟨fun x hx => h.sound x (hs.subset hx), fun l hl x hx => h.linked l hl x (hs.subset hx),
    fun x hx => h.owned x (hs.subset hx), h.ids.sublist (hs.map _), h.keys⟩

/-- A new buffer, which nothing is bound to. -/
theorem openBuffer {b : Buffer} (h : Linked others hosts lives) (hnew : ∀ x ∈ hosts, x.buffer.id ≠ b.id)
    (hfree : ∀ l ∈ lives, l.buffer ≠ b.id) : Linked others ({ buffer := b } :: hosts) lives := by
  refine ⟨?_, ?_, ?_, ?_, h.keys⟩
  · intro x hx
    rcases List.mem_cons.1 hx with rfl | hx
    · exact Registry.sound_empty
    · exact h.sound x hx
  · intro l hl x hx
    rcases List.mem_cons.1 hx with rfl | hx
    · exact ⟨fun hid => absurd hid.symm (hfree l hl), fun _ => rfl⟩
    · exact h.linked l hl x hx
  · intro x hx
    rcases List.mem_cons.1 hx with rfl | hx
    · intro e he
      cases he
    · exact h.owned x hx
  · rw [List.map_cons, List.nodup_cons]
    refine ⟨fun hmem => ?_, h.ids⟩
    obtain ⟨x, hx, hid⟩ := List.mem_map.1 hmem
    exact hnew x hx hid

/-! ## Releasing and registering -/

/-- The entries of a live list are those of no other listener. -/
theorem not_mem_keys (h : Linked others hosts (l :: lives)) : ∀ l' ∈ lives, l'.key ≠ l.key := by
  intro l' hl' hkey
  refine (List.nodup_cons.1 h.keys).1 ?_
  exact List.mem_map.2 ⟨l', hl', hkey⟩

/-- A list that is left out becomes one of the others. -/
theorem disown (h : Linked others hosts (l :: lives)) :
    Linked (fun key => others key ∨ key = l.key) hosts lives := by
  refine ⟨h.sound, fun l' hl' => h.linked l' (List.mem_cons_of_mem _ hl'), ?_, h.ids,
    (List.nodup_cons.1 h.keys).2⟩
  intro x hx e he
  rcases h.owned x hx e he with ⟨l', hl', hkey⟩ | hother
  · rcases List.mem_cons.1 hl' with rfl | hl'
    · exact .inr (.inr hkey.symm)
    · exact .inl ⟨l', hl', hkey⟩
  · exact .inr (.inl hother)

/-- A listener without entries need not be counted among the others. -/
theorem forget (h : Linked (fun k => others k ∨ k = key) hosts lives) (hfree : Unlisted key hosts) :
    Linked others hosts lives := by
  refine ⟨h.sound, h.linked, ?_, h.ids, h.keys⟩
  intro x hx e he
  rcases h.owned x hx e he with hlive | hother | hkey
  · exact .inl hlive
  · exact .inr hother
  · have hmem : e ∈ x.entriesOf key := List.mem_filter.2 ⟨he, by simp [hkey]⟩
    rw [hfree x hx] at hmem
    cases hmem

/-- One of the others becomes a live list. -/
theorem adopt (h : Linked (fun k => others k ∨ k = l.key) hosts lives)
    (hlinked : ∀ x ∈ hosts, l.LinkedTo x) (hnew : ∀ l' ∈ lives, l'.key ≠ l.key) :
    Linked others hosts (l :: lives) := by
  refine ⟨h.sound, ?_, ?_, h.ids, ?_⟩
  · intro l' hl'
    rcases List.mem_cons.1 hl' with rfl | hl'
    · exact hlinked
    · exact h.linked l' hl'
  · intro x hx e he
    rcases h.owned x hx e he with ⟨l', hl', hkey⟩ | hother | hkey
    · exact .inl ⟨l', List.mem_cons_of_mem _ hl', hkey⟩
    · exact .inr hother
    · exact .inl ⟨l, List.mem_cons_self, hkey.symm⟩
  · rw [List.map_cons, List.nodup_cons]
    refine ⟨fun hmem => ?_, h.keys⟩
    obtain ⟨l', hl', hkey⟩ := List.mem_map.1 hmem
    exact hnew l' hl' hkey

theorem mono {others' : ListenerKey → Prop} (h : Linked others hosts lives)
    (hothers : ∀ k, others k → others' k) : Linked others' hosts lives :=
  ⟨h.sound, h.linked, fun x hx e he => (h.owned x hx e he).imp_right (hothers _), h.ids, h.keys⟩

/-- Other listeners are registered, released and pruned without live lists being concerned. -/
theorem prune (h : Linked others (host :: hosts) lives) (halive : ∀ l ∈ lives, alive l.key = true) :
    Linked others ({ host with registry := host.registry.prune alive } :: hosts) lives := by
  refine h.setRegistry (h.sound host List.mem_cons_self).prune (fun l hl => ?_) fun e he =>
    h.owned host List.mem_cons_self e (List.mem_of_mem_filter he)
  exact filter_alive (halive l hl)

/-- **Releasing a list whose buffer exists.** Its registration is there to be released, and is the only
one that goes. -/
theorem release (h : Linked others (host :: hosts) (l :: lives)) (hb : host.buffer.id = l.buffer) :
    ∃ id registry, l.registration = some id ∧ host.registry.remove id = some registry ∧
      Linked others ({ host with registry } :: hosts) lives ∧
      Unlisted l.key ({ host with registry } :: hosts) := by
  have hsound := h.sound host List.mem_cons_self
  obtain ⟨id, hid, hentries⟩ := (h.linked l List.mem_cons_self host List.mem_cons_self).bound hb
  have hentry : (⟨id, l.key⟩ : Entry) ∈ host.registry.entries := by
    have hmem : (⟨id, l.key⟩ : Entry) ∈ host.entriesOf l.key := hentries ▸ List.mem_singleton_self _
    exact (List.mem_filter.1 hmem).1
  have hremove := hsound.remove_of_mem hentry
  obtain ⟨hsound', hleft⟩ := hsound.remove hremove
  refine ⟨id, _, hid, hremove, ?_⟩
  -- an entry of another listener has another number
  have hothers : ∀ key, key ≠ l.key →
      (host.registry.entries.filter (·.id != id)).filter (·.listener == key) = host.entriesOf key := by
    intro key hkey
    unfold Host.entriesOf
    rw [List.filter_filter]
    refine List.filter_congr fun e he => ?_
    cases hlistener : e.listener == key with
    | false => rfl
    | true =>
      have hne : e.id ≠ id := by
        intro hsame
        have heq := hsound.eq_of_id_eq he hentry hsame
        rw [heq] at hlistener
        exact hkey (beq_iff_eq.1 hlistener).symm
      simpa using hne
  have hgone : (host.registry.entries.filter (·.id != id)).filter (·.listener == l.key) = [] := by
    have hswap : (host.registry.entries.filter (·.id != id)).filter (·.listener == l.key) =
        (host.entriesOf l.key).filter (·.id != id) := by
      unfold Host.entriesOf
      rw [List.filter_filter, List.filter_filter]
      exact List.filter_congr fun e _ => Bool.and_comm _ _
    rw [hswap, hentries]
    simp
  have hfree : Unlisted l.key ({ host with registry := { host.registry with
      entries := host.registry.entries.filter (·.id != id)
      unregistered := host.registry.unregistered + 1 } } :: hosts) := by
    intro x hx
    rcases List.mem_cons.1 hx with rfl | hx
    · exact hgone
    · -- no other buffer has the number
      have hne : x.buffer.id ≠ l.buffer := by
        intro hsame
        have hids := (List.nodup_cons.1 h.ids).1
        exact hids (List.mem_map.2 ⟨x, hx, hsame.trans hb.symm⟩)
      exact (h.linked l List.mem_cons_self x (List.mem_cons_of_mem _ hx)).unbound hne
  refine ⟨Linked.forget (h.disown.setRegistry hsound' (fun l' hl' => ?_) fun e he => ?_) hfree, hfree⟩
  · exact hothers l'.key (h.not_mem_keys l' hl')
  · exact h.disown.owned host List.mem_cons_self e (List.mem_of_mem_filter he)

/-- **Releasing a list whose buffer is gone.** -/
theorem release_unbound (h : Linked others hosts (l :: lives)) (hb : ∀ x ∈ hosts, x.buffer.id ≠ l.buffer) :
    Linked others hosts lives ∧ Unlisted l.key hosts := by
  have hfree : Unlisted l.key hosts := fun x hx =>
    (h.linked l List.mem_cons_self x hx).unbound (hb x hx)
  exact ⟨h.disown.forget hfree, hfree⟩

/-- **Registering one of the others.** -/
theorem add (h : Linked others (host :: hosts) lives) (hother : others key)
    (halive : ∀ l ∈ lives, alive l.key = true) (hnew : ∀ l ∈ lives, l.key ≠ key) :
    Linked others ({ host with registry := host.registry.add alive key } :: hosts) lives := by
  refine h.setRegistry (h.sound host List.mem_cons_self).add (fun l hl => ?_) fun e he => ?_
  · have hkeep : (host.registry.prune alive).entries.filter (·.listener == l.key) =
        host.entriesOf l.key := filter_alive (halive l hl)
    have hnone : ([⟨host.registry.nextId, key⟩] : List Entry).filter (·.listener == l.key) = [] := by
      simpa using (hnew l hl).symm
    show List.filter _ ((host.registry.prune alive).entries ++ [(⟨host.registry.nextId, key⟩ : Entry)]) = _
    rw [List.filter_append, hkeep, hnone, List.append_nil]
  · rcases List.mem_append.1 he with he | he
    · exact h.owned host List.mem_cons_self e (List.mem_of_mem_filter he)
    · rw [List.mem_singleton.1 he]
      exact .inr hother

/-- **Registering a live list** that has no entry yet. -/
theorem register (h : Linked others (host :: hosts) lives) (hfree : Unlisted l.key (host :: hosts))
    (halive : ∀ l' ∈ lives, alive l'.key = true) (hnew : ∀ l' ∈ lives, l'.key ≠ l.key)
    (hbuffer : l.buffer = host.buffer.id) (hid : l.registration = some host.registry.nextId) :
    Linked others ({ host with registry := host.registry.add alive l.key } :: hosts) (l :: lives) := by
  have hwider : Linked (fun k => others k ∨ k = l.key) (host :: hosts) lives := h.mono fun _ => .inl
  refine (hwider.add (.inr rfl) halive hnew).adopt (fun x hx => ?_) hnew
  rcases List.mem_cons.1 hx with rfl | hx
  · refine ⟨fun _ => ⟨host.registry.nextId, hid, ?_⟩, fun hne => absurd hbuffer.symm hne⟩
    have hnone : (host.registry.prune alive).entries.filter (·.listener == l.key) = [] := by
      have hempty := hfree host List.mem_cons_self
      unfold Host.entriesOf at hempty
      show (host.registry.entries.filter _).filter _ = _
      rw [List.filter_filter]
      refine List.filter_eq_nil_iff.2 fun e he => ?_
      have hne := List.filter_eq_nil_iff.1 hempty e he
      simp only [Bool.and_eq_true, not_and]
      exact fun hkey => absurd hkey hne
    show List.filter _ ((host.registry.prune alive).entries ++ [(⟨host.registry.nextId, l.key⟩ : Entry)]) = _
    rw [List.filter_append, hnone]
    simp
  · refine ⟨fun hsame => ?_, fun _ => hfree x (List.mem_cons_of_mem _ hx)⟩
    have hids := (List.nodup_cons.1 h.ids).1
    exact absurd (List.mem_map.2 ⟨x, hx, hsame.trans hbuffer⟩) hids

/-- A registration released that belongs to no live list. -/
theorem remove {id : ListenerId} {r : Registry} (h : Linked others (host :: hosts) lives)
    (hr : host.registry.remove id = some r)
    (hproper : ∀ e ∈ host.registry.entries, e.id = id → ∀ l ∈ lives, l.key ≠ e.listener) :
    Linked others ({ host with registry := r } :: hosts) lives := by
  obtain ⟨hsound, hleft⟩ := (h.sound host List.mem_cons_self).remove hr
  refine h.setRegistry hsound (fun l hl => ?_) fun e he => ?_
  · unfold Host.entriesOf
    rw [hleft, List.filter_filter]
    refine List.filter_congr fun e he => ?_
    cases hkey : e.listener == l.key with
    | false => rfl
    | true =>
      have hne : e.id ≠ id := fun hid => hproper e he hid l hl (beq_iff_eq.1 hkey).symm
      simpa using hne
  · rw [hleft] at he
    exact h.owned host List.mem_cons_self e (List.mem_of_mem_filter he)

/-! ## Counting -/

/-- **The entries of a registry by their listeners**: one for each live list that is bound to the
buffer, and those of other listeners. -/
theorem length_entries (h : Linked others hosts lives) (hh : host ∈ hosts) :
    host.registry.entries.length = lives.countP (·.buffer == host.buffer.id) +
      (host.registry.entries.filter fun e => lives.all (·.key != e.listener)).length := by
  induction lives generalizing others with
  | nil => simp
  | cons l lives ih =>
    have hcount := ih h.disown
    -- the entries of `l` are told from those of the other listeners
    have hsplit : (host.registry.entries.filter fun e => lives.all (·.key != e.listener)).length =
        (host.entriesOf l.key).length +
          (host.registry.entries.filter fun e => (l :: lives).all (·.key != e.listener)).length := by
      rw [List.length_eq_length_filter_add (fun e : Entry => e.listener == l.key), List.filter_filter,
        List.filter_filter]
      congr 2
      · refine List.filter_congr fun e _ => ?_
        cases hkey : e.listener == l.key with
        | false => rfl
        | true =>
          rw [beq_iff_eq.1 hkey, Bool.true_and, List.all_eq_true]
          exact fun l' hl' => by simpa using h.not_mem_keys l' hl'
      · refine List.filter_congr fun e _ => ?_
        rw [List.all_cons, bne, Bool.beq_comm]
    have hentries : (host.entriesOf l.key).length = if l.buffer == host.buffer.id then 1 else 0 := by
      have hlinked := h.linked l List.mem_cons_self host hh
      by_cases hb : host.buffer.id = l.buffer
      · obtain ⟨id, -, hone⟩ := hlinked.bound hb
        rw [hone, hb]
        simp
      · rw [hlinked.unbound hb, if_neg (by simpa using Ne.symm hb)]
        rfl
    rw [List.countP_cons, hcount, hsplit, hentries]
    omega

end Linked

end Caret
