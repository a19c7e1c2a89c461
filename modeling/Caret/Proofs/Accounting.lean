import Caret.Proofs.Listening

/-!
# The account of registrations

Registrations leave a registry by two ways: they are released, or their listener is found dead when the next
listener is registered or the next change is made known. In a run of deeds in any order, in which listeners
are lost at any time, the registry holds what was registered and left by neither way.

* `Deed.spares`, `Deed.lasting`: the deeds that leave a registration be, and the registrations left.
* `Deed.Turnover`: what deeds make of a registry; `Deed.turnover_perform` for one, `Deed.exists_turnover` for
  a run.
* `Deed.Accounted`, `Deed.run_accounted`: the registry after a run on a fresh one.
-/

namespace Caret

/-! ## Changes made known -/

/-- The log of a buffer since it was `b` is what the revisions say. -/
def Draft.Tallies (b : Buffer) (d : Draft) : Prop := d.buffer.log = b.log ++ d.revisions.map Revision.change

theorem Draft.tallies_invariant (b : Buffer) : Draft.Invariant (Draft.Tallies b) where
  adjust _ _ h _ _ hlog := hlog.trans h
  insertAt d change _ _ text h _ := by
    unfold Draft.Tallies at h ⊢
    simp [Draft.advance, h]
  removeRange d change _ _ text h _ := by
    unfold Draft.Tallies at h ⊢
    simp [Draft.advance, h]

/-- An edit is made known when it is logged. -/
theorem Command.revisions_eq_nil_iff {command : Command} {b : Buffer} :
    (command.act.exec b).2.revisions = [] ↔ (command.act.exec b).2.buffer.timestamp = b.timestamp := by
  have htally : (command.act.exec b).2.buffer.log = b.log ++ (command.act.exec b).2.revisions.map Revision.change :=
    (Draft.tallies_invariant b).act command { buffer := b } (List.append_nil _).symm
  unfold Buffer.timestamp
  rw [htally, List.length_append, List.length_map, Nat.add_eq_left, List.length_eq_zero_iff]

namespace Registry

theorem isSome_remove {r : Registry} {id : ListenerId} :
    (r.remove id).isSome = r.entries.any (·.id == id) := by
  unfold remove
  split
  · rename_i hany
    exact hany.symm
  · rename_i hany
    exact (Bool.eq_false_iff.2 hany).symm

end Registry

/-- Releasing answers whether the registry has the number. -/
theorem WorkspaceM.resume_unregister {w : Workspace} {name : String} {host : Host} {id : ListenerId}
    (hget : w.hosts.get? name = some host) :
    ((unregister name id).resume w).1 = .ok (host.registry.entries.any (·.id == id)) := by
  unfold unregister
  rw [resume_bind_ok (resume_named hget), ← Registry.isSome_remove]
  cases host.registry.remove id <;> rfl

namespace Deed

/-! ## Registrations and what becomes of them -/

/-- How many changes the buffer under a name has logged. -/
def logged (name : String) (w : Workspace) : Option ℕ := (w.hosts.get? name).map (·.buffer.timestamp)

/-- A deed that leads from one workspace to another leaves a registration be: it does not release it, and
the listener is alive if dead ones are looked for, as they are when a listener is registered or a change
logged. -/
def spares (name : String) (w w' : Workspace) (e : Entry) : Deed → Bool
  | edit _ => logged name w' == logged name w || w.listenerAlive e.listener
  | register _ => w.listenerAlive e.listener
  | remove id => e.id != id
  | meanwhile _ => true

/-- All deeds of a run leave a registration be. -/
def spared (name : String) (e : Entry) : Workspace → List Deed → Bool
  | _, [] => true
  | w, deed :: deeds =>
    match deed.perform name w with
    | some w' => deed.spares name w w' e && spared name e w' deeds
    | none => true

/-- The registration that a deed makes, under the number that it is answered. -/
def registration (name : String) (w : Workspace) : Deed → Option Entry
  | register key =>
    match ((WorkspaceM.register name key).resume w).1 with
    | .ok id => some ⟨id, key⟩
    | .error _ => none
  | _ => none

/-- The registrations made in a run, in order. -/
def registrations (name : String) : Workspace → List Deed → List Entry
  | _, [] => []
  | w, deed :: deeds => (deed.registration name w).toList ++
    match deed.perform name w with
    | some w' => registrations name w' deeds
    | none => []

/-- The registrations made in a run that are left when it is over. -/
def lasting (name : String) : Workspace → List Deed → List Entry
  | _, [] => []
  | w, deed :: deeds =>
    match deed.perform name w with
    | some w' => (deed.registration name w).toList.filter (spared name · w' deeds) ++ lasting name w' deeds
    | none => []

variable {name : String} {w w' w'' : Workspace} {deed : Deed} {deeds before after : List Deed}
  {host host' : Host} {id : ListenerId} {e : Entry} {r r' r'' : Registry} {made made' left left' : List Entry}
  {stays stays' : Entry → Bool}

theorem run_eq_of_perform (hp : deed.perform name w = some w') :
    run name w (deed :: deeds) = run name w' deeds := by
  unfold run
  rw [List.foldlM_cons, hp]
  rfl

/-- **A registration is left** when some deed made it and all later ones let it be. -/
theorem mem_lasting_iff (hr : run name w deeds = some w'') : e ∈ lasting name w deeds ↔
    ∃ before deed after w₁ w₂, deeds = before ++ deed :: after ∧ run name w before = some w₁ ∧
      deed.perform name w₁ = some w₂ ∧ deed.registration name w₁ = some e ∧ spared name e w₂ after = true := by
  induction deeds generalizing w with
  | nil => simp [lasting]
  | cons deed deeds ih =>
    obtain ⟨w', hp, hr, -⟩ := run_cons hr
    rw [lasting, hp, List.mem_append, List.mem_filter, Option.mem_toList, ih hr]
    constructor
    · rintro (⟨hmade, hspared⟩ | ⟨before, later, after, w₁, w₂, rfl, hbefore, hlater⟩)
      · exact ⟨[], deed, deeds, w, w', rfl, rfl, hp, hmade, hspared⟩
      · exact ⟨deed :: before, later, after, w₁, w₂, rfl, (run_eq_of_perform hp).trans hbefore, hlater⟩
    · rintro ⟨before, later, after, w₁, w₂, hdeeds, hbefore, hperform, hmade, hspared⟩
      cases before with
      | nil =>
        obtain ⟨rfl, rfl⟩ := List.cons.inj hdeeds
        obtain rfl := Option.some.inj hbefore
        obtain rfl := Option.some.inj (hp.symm.trans hperform)
        exact .inl ⟨hmade, hspared⟩
      | cons first before =>
        obtain ⟨rfl, rfl⟩ := List.cons.inj hdeeds
        rw [run_eq_of_perform hp] at hbefore
        exact .inr ⟨before, later, after, w₁, w₂, rfl, hbefore, hperform, hmade, hspared⟩

/-- A registration is left while its listener is alive and it is not released. -/
theorem spared_of_staysAlive (halive : staysAlive name e.listener w deeds = true) (hkept : remove e.id ∉ deeds) :
    spared name e w deeds = true := by
  induction deeds generalizing w with
  | nil => rfl
  | cons deed deeds ih =>
    rw [staysAlive, Bool.and_eq_true] at halive
    rw [List.mem_cons, not_or] at hkept
    unfold spared
    cases hp : deed.perform name w with
    | none => rfl
    | some w' =>
      rw [hp] at halive
      refine Bool.and_eq_true_iff.2 ⟨?_, ih halive.2 hkept.2⟩
      cases deed with
      | edit command => exact Bool.or_eq_true_iff.2 (.inr halive.1)
      | register key => exact halive.1
      | remove id => exact bne_iff_ne.2 fun hid => hkept.1 (by rw [hid])
      | meanwhile f => rfl

/-! ## What deeds make of a registry -/

/-- **What deeds make of a registry** when they make some registrations, of which some are left, and let
some be that were there before. -/
structure Turnover (r : Registry) (made left : List Entry) (stays : Entry → Bool) (r' : Registry) : Prop where
  sound : r'.Sound
  entries : r'.entries = r.entries.filter stays ++ left
  left : left.Sublist made
  nextId : r'.nextId = r.nextId + made.length
  registered : r'.registered = r.registered + made.length
  numbers : made.map Entry.id = List.range' r.nextId made.length

/-- No registration is made. -/
theorem Turnover.of_filter (hsound : r'.Sound) (hentries : r'.entries = r.entries.filter stays)
    (hnextId : r'.nextId = r.nextId) (hregistered : r'.registered = r.registered) :
    Turnover r [] [] stays r' :=
  ⟨hsound, hentries.trans (List.append_nil _).symm, .refl _, hnextId, hregistered, rfl⟩

theorem Turnover.refl (h : r.Sound) : Turnover r [] [] (fun _ => true) r :=
  .of_filter h (List.filter_true _).symm rfl rfl

theorem Turnover.trans (h : Turnover r made left stays r') (h' : Turnover r' made' left' stays' r'') :
    Turnover r (made ++ made') (left.filter stays' ++ left') (fun e => stays e && stays' e) r'' := by
  refine ⟨h'.sound, ?_, ((List.filter_sublist).trans h.left).append h'.left, ?_, ?_, ?_⟩
  · have hboth : (fun e => stays e && stays' e) = fun e => stays' e && stays e :=
      funext fun e => Bool.and_comm _ _
    rw [h'.entries, h.entries, List.filter_append, List.filter_filter, hboth, List.append_assoc]
  · rw [h'.nextId, h.nextId, List.length_append, Nat.add_assoc]
  · rw [h'.registered, h.registered, List.length_append, Nat.add_assoc]
  · rw [List.map_append, h.numbers, h'.numbers, h.nextId, List.length_append, List.range'_append_1]

/-- An edit that is logged prunes the registry. Listeners are not lost by it. -/
theorem registry_of_edit {command : Command} (hfound : w.hosts.get? name = some host)
    (hp : (edit command).perform name w = some w') (hfound' : w'.hosts.get? name = some host') :
    host'.registry = (if host'.buffer.timestamp = host.buffer.timestamp then host.registry
      else host.registry.prune w.listenerAlive) ∧ w'.listenerAlive = w.listenerAlive := by
  obtain ⟨outcome, hr, hok⟩ := settled_eq_some hp
  obtain ⟨-, -, hhost, halive, -⟩ := WorkspaceM.of_resume_edit hfound hr hok
  obtain rfl := Option.some.inj (hhost.symm.trans hfound')
  exact ⟨if_congr Command.revisions_eq_nil_iff rfl rfl, halive⟩

/-- **One deed.** -/
theorem turnover_perform (hsound : host.registry.Sound) (hfound : w.hosts.get? name = some host)
    (hp : deed.perform name w = some w') (hfound' : w'.hosts.get? name = some host') :
    Turnover host.registry (deed.registration name w).toList (deed.registration name w).toList
      (deed.spares name w w') host'.registry := by
  obtain ⟨host₁, hfound₁, -, hregistry⟩ := exists_host hfound hp
  obtain rfl := Option.some.inj (hfound'.symm.trans hfound₁)
  cases deed with
  | edit command =>
    obtain ⟨hedited, -⟩ := registry_of_edit hfound hp hfound'
    have hlogged : logged name w' = logged name w ↔ host'.buffer.timestamp = host.buffer.timestamp := by
      unfold logged
      rw [hfound, hfound', Option.map_some, Option.map_some, Option.some_inj]
    by_cases hsame : host'.buffer.timestamp = host.buffer.timestamp
    · rw [if_pos hsame] at hedited
      rw [hedited]
      have hall : ∀ e ∈ host.registry.entries, (edit command).spares name w w' e = true := by
        intro e _
        simp [spares, hlogged.2 hsame]
      exact .of_filter hsound (List.filter_eq_self.2 hall).symm rfl rfl
    · rw [if_neg hsame] at hedited
      rw [hedited]
      have halive : ∀ e ∈ host.registry.entries,
          w.listenerAlive e.listener = (edit command).spares name w w' e := by
        intro e _
        simp [spares, mt hlogged.1 hsame]
      exact .of_filter hsound.prune (List.filter_congr halive) rfl rfl
  | register key =>
    have hmade : (register key).registration name w = some ⟨host.registry.nextId, key⟩ := by
      rw [registration, WorkspaceM.resume_register hfound]
    have hadd : host'.registry = host.registry.add w.listenerAlive key := hregistry
    rw [hmade, hadd]
    exact ⟨hsound.add, rfl, .refl _, rfl, rfl, rfl⟩
  | remove id =>
    have hgone : host'.registry = (host.registry.remove id).getD host.registry := hregistry
    rw [hgone]
    cases hremove : host.registry.remove id with
    | none =>
      have habsent : host.registry.entries.any (·.id == id) = false := by
        rw [← Registry.isSome_remove, hremove]
        rfl
      have hall : ∀ e ∈ host.registry.entries, (remove id).spares name w w' e = true := by
        intro e he
        exact bne_iff_ne.2 fun hid => List.any_eq_false.1 habsent e he (beq_iff_eq.2 hid)
      exact .of_filter hsound (List.filter_eq_self.2 hall).symm rfl rfl
    | some r' =>
      obtain ⟨hsound', hentries⟩ := hsound.remove hremove
      obtain ⟨e, he, rfl⟩ := Registry.exists_of_remove hremove
      obtain rfl := Option.some.inj ((hsound.remove_of_mem he).symm.trans hremove)
      exact .of_filter hsound' hentries rfl rfl
  | meanwhile f =>
    have hsame : host'.registry = host.registry := hregistry
    rw [hsame]
    exact .of_filter hsound (List.filter_true _).symm rfl rfl

/-- **A run**: the registrations that were there before and those made in it, less those that it does not
let be. -/
theorem exists_turnover (hsound : host.registry.Sound) (hfound : w.hosts.get? name = some host)
    (hr : run name w deeds = some w'') :
    ∃ host', w''.hosts.get? name = some host' ∧ Turnover host.registry (registrations name w deeds)
      (lasting name w deeds) (spared name · w deeds) host'.registry := by
  induction deeds generalizing w host with
  | nil =>
    cases hr
    exact ⟨host, hfound, .refl hsound⟩
  | cons deed deeds ih =>
    obtain ⟨w', hp, hr, -⟩ := run_cons hr
    obtain ⟨host₁, hfound₁, -, -⟩ := exists_host hfound hp
    have hfirst := turnover_perform hsound hfound hp hfound₁
    obtain ⟨host', hfound', hrest⟩ := ih hfirst.sound hfound₁ hr
    have hboth := hfirst.trans hrest
    refine ⟨host', hfound', ?_⟩
    have hspared : (spared name · w (deed :: deeds)) =
        fun e => deed.spares name w w' e && spared name e w' deeds := by
      funext e
      rw [spared, hp]
    rw [registrations, lasting, hp, hspared]
    exact hboth

/-! ## The whole run -/

/-- **The account of a run** that began on a fresh registry and has come to `w`. -/
structure Accounted (name : String) (w₀ : Workspace) (deeds : List Deed) (w : Workspace) (host : Host) :
    Prop where
  /-- What was registered is unregistered or still there. -/
  balance : host.registry.registered = host.registry.unregistered + host.registry.entries.length
  active : host.registry.active = .ok host.registry.entries.length
  /-- Numbers are given out in order, and none of them twice. -/
  numbers : (registrations name w₀ deeds).map Entry.id = List.range host.registry.registered
  increasing : host.registry.entries.Pairwise (·.id < ·.id)
  /-- What is there is what was registered and neither released nor found dead, in the order in which it was
  registered. -/
  entries : host.registry.entries = lasting name w₀ deeds
  left : ∀ e, e ∈ lasting name w₀ deeds ↔
    ∃ before deed after w₁ w₂, deeds = before ++ deed :: after ∧ run name w₀ before = some w₁ ∧
      deed.perform name w₁ = some w₂ ∧ deed.registration name w₁ = some e ∧ spared name e w₂ after = true
  ordered : host.registry.entries.Sublist (registrations name w₀ deeds)
  /-- Only that can be released. -/
  releasing : ∀ id, ((WorkspaceM.unregister name id).resume w).1 =
    .ok (decide (∃ e ∈ lasting name w₀ deeds, e.id = id))
  /-- A registration is given a new number and leaves none but living listeners beside it. -/
  registering : ∀ key, ∃ w' host',
    (WorkspaceM.register name key).resume w = (.ok host.registry.registered, w') ∧
      w'.hosts.get? name = some host' ∧ host'.registry.entries =
        host.registry.entries.filter (w'.listenerAlive ·.listener) ++ [⟨host.registry.registered, key⟩]
  /-- An edit that is logged leaves none but living listeners. -/
  editing : ∀ command w', (edit command).perform name w = some w' → ∃ host',
    w'.hosts.get? name = some host' ∧ host'.registry.entries =
      if host'.buffer.timestamp = host.buffer.timestamp then host.registry.entries
      else host.registry.entries.filter (w'.listenerAlive ·.listener)
  /-- What was there at any moment of the run is still there, and in the same order, if it was let be, as it
  was if its listener has stayed alive and it was not released. -/
  carried : ∀ before after, deeds = before ++ after → ∃ w₁ host₁, run name w₀ before = some w₁ ∧
    w₁.hosts.get? name = some host₁ ∧
      host₁.registry.entries.filter (spared name · w₁ after) <+: host.registry.entries ∧
      ∀ e ∈ host₁.registry.entries, staysAlive name e.listener w₁ after = true → remove e.id ∉ after →
        spared name e w₁ after = true

/-- **Registrations are accounted for.** In any run that breaks no contract, whatever becomes of listeners
meanwhile. -/
theorem run_accounted {w₀ : Workspace} {b : Buffer} (hstart : w₀.hosts.get? name = some { buffer := b })
    (hr : run name w₀ deeds = some w) :
    ∃ host, w.hosts.get? name = some host ∧ Accounted name w₀ deeds w host := by
  obtain ⟨host, hfound, hturn⟩ := exists_turnover Registry.sound_empty hstart hr
  have hentries : host.registry.entries = lasting name w₀ deeds := hturn.entries
  have hregistered : host.registry.registered = (registrations name w₀ deeds).length :=
    hturn.registered.trans (Nat.zero_add _)
  have hnextId : host.registry.nextId = host.registry.registered :=
    (hturn.nextId.trans (Nat.zero_add _)).trans hregistered.symm
  refine ⟨host, hfound, ?_⟩
  constructor
  case balance => exact hturn.sound.counted
  case active => exact hturn.sound.active_eq
  case numbers =>
    rw [hregistered, List.range_eq_range']
    exact hturn.numbers
  case increasing => exact hturn.sound.ordered
  case entries => exact hentries
  case left => exact fun e => mem_lasting_iff hr
  case ordered => exact hentries ▸ hturn.left
  case releasing =>
    intro id
    rw [WorkspaceM.resume_unregister hfound, hentries]
    congr 1
    rw [Bool.eq_iff_iff]
    simp
  case registering =>
    intro key
    have hregister := WorkspaceM.resume_register hfound key
    rw [hnextId] at hregister
    exact ⟨_, _, hregister, Table.get?_put, by rw [← hnextId]; rfl⟩
  case editing =>
    intro command w' hp
    obtain ⟨host', hfound', -, -⟩ := exists_host hfound hp
    obtain ⟨hregistry, halive⟩ := registry_of_edit hfound hp hfound'
    refine ⟨host', hfound', ?_⟩
    rw [hregistry, halive]
    exact apply_ite Registry.entries _ _ _
  case carried =>
    rintro before after rfl
    obtain ⟨w₁, hbefore, hafter, -⟩ := run_append hr
    obtain ⟨host₁, hfound₁, hturn₁⟩ := exists_turnover Registry.sound_empty hstart hbefore
    obtain ⟨host₂, hfound₂, hturn₂⟩ := exists_turnover hturn₁.sound hfound₁ hafter
    obtain rfl := Option.some.inj (hfound.symm.trans hfound₂)
    exact ⟨w₁, host₁, hbefore, hfound₁, ⟨_, hturn₂.entries.symm⟩, fun e _ => spared_of_staysAlive⟩

/-- A buffer, and two recorders that are not registered yet. -/
def sampleRecorders : Workspace :=
  { nextListener := 2
    hosts := [("b", { buffer := Buffer.ofText 0 ['a'] {} })]
    recorders := [("m", { key := 0 }), ("n", { key := 1 })] }

/-- Three registrations, of which one is lost with its recorder and one is released. -/
def sampleLosses : List Deed :=
  [.register 0, .register 1, .register 1, .meanwhile fun w => { w with recorders := w.recorders.drop "m" },
    .edit (.insert 0 ['x']), .remove 0, .remove 2]

theorem run_accounted_sample : ∃ w host, run "b" sampleRecorders sampleLosses = some w ∧
    Accounted "b" sampleRecorders sampleLosses w host ∧
    registrations "b" sampleRecorders sampleLosses = [⟨0, 0⟩, ⟨1, 1⟩, ⟨2, 1⟩] ∧
    lasting "b" sampleRecorders sampleLosses = [⟨1, 1⟩] := by
  have hsome : (run "b" sampleRecorders sampleLosses).isSome := by decide +kernel
  obtain ⟨w, hr⟩ := Option.isSome_iff_exists.1 hsome
  obtain ⟨host, -, haccount⟩ := run_accounted rfl hr
  exact ⟨w, host, hr, haccount, by decide +kernel, by decide +kernel⟩

end Deed

end Caret
