import Mathlib.Data.List.Perm.Basic
import Mathlib.Data.List.Nodup
import Caret.Proofs.Fault
import Caret.Workspace

/-!
# Computations on workspaces step by step

What the computations on a workspace come to, told by what holds where they end.

* `Table.exists_split`: a table around the value under one of its names.
* `WorkspaceM.Ends`: what holds where a computation ends, in success or in failure.
* `WorkspaceM.Ends.bind`, `WorkspaceM.bind_named`: sequences, and the primitive steps in front of one.
-/

namespace Caret

namespace Table

variable {α : Type} {t : Table α} {name : String} {a : α}

/-! ## Names and values -/

@[simp] theorem values_nil : values ([] : Table α) = [] := rfl

@[simp] theorem values_cons (entry : String × α) (t : Table α) :
    values (entry :: t) = entry.2 :: values t := rfl

@[simp] theorem values_append (s t : Table α) : values (s ++ t) = values s ++ values t :=
  List.map_append

/-- **The table around a name in use.** -/
theorem exists_split (h : t.get? name = some a) (hn : (t.map Prod.fst).Nodup) :
    ∃ pre post, t = pre ++ (name, a) :: post ∧ (∀ b, t.put name b = pre ++ (name, b) :: post) ∧
      t.drop name = pre ++ post := by
  induction t with
  | nil => cases h
  | cons entry t ih =>
    obtain ⟨n, b⟩ := entry
    rw [List.map_cons, List.nodup_cons] at hn
    by_cases he : name = n
    · subst he
      have hb : b = a := by
        unfold get? at h
        rw [List.lookup_cons_self] at h
        exact Option.some.inj h
      subst hb
      refine ⟨[], t, rfl, fun c => if_pos rfl, ?_⟩
      have hdrop : Table.drop t name = t := by
        refine List.filter_eq_self.2 fun other hother => decide_eq_true fun hsame => hn.1 ?_
        exact List.mem_map.2 ⟨other, hother, hsame⟩
      unfold drop at hdrop ⊢
      rw [List.filter_cons_of_neg (by simp), hdrop]
      rfl
    · have hget : Table.get? t name = some a := by
        unfold get? at h ⊢
        rw [List.lookup_cons, beq_false_of_ne he] at h
        exact h
      obtain ⟨pre, post, hsplit, hput, hdrop⟩ := ih hget hn.2
      refine ⟨(n, b) :: pre, post, by rw [hsplit]; rfl, fun c => ?_, ?_⟩
      · show (if n = name then _ else (n, b) :: Table.put name c t) = _
        rw [if_neg (Ne.symm he), hput c]
        rfl
      · unfold drop at hdrop ⊢
        rw [List.filter_cons_of_pos (by simpa using Ne.symm he), hdrop]
        rfl

/-- A name that is not in use goes to the end. -/
theorem put_of_get?_eq_none (h : t.get? name = none) (b : α) : t.put name b = t ++ [(name, b)] := by
  induction t with
  | nil => rfl
  | cons entry t ih =>
    obtain ⟨n, c⟩ := entry
    unfold get? at h
    rw [List.lookup_cons] at h
    split at h
    · cases h
    · rename_i hne
      have hn : n ≠ name := fun he => by simp [he] at hne
      show (if n = name then _ else (n, c) :: Table.put name b t) = _
      rw [if_neg hn, ih h]
      rfl

theorem not_mem_of_get?_eq_none (h : t.get? name = none) : name ∉ t.map Prod.fst := by
  intro hmem
  obtain ⟨entry, hentry, rfl⟩ := List.mem_map.1 hmem
  have hall := List.lookup_eq_none_iff.1 h entry hentry
  simp at hall

theorem nodup_put (hn : (t.map Prod.fst).Nodup) (b : α) : ((t.put name b).map Prod.fst).Nodup := by
  cases hget : t.get? name with
  | none =>
    rw [put_of_get?_eq_none hget, List.map_append]
    exact List.Nodup.append hn (List.nodup_singleton name) (by
      simpa using not_mem_of_get?_eq_none hget)
  | some a =>
    obtain ⟨pre, post, hsplit, hput, -⟩ := exists_split hget hn
    rw [hsplit] at hn
    rw [hput b]
    simpa using hn

theorem nodup_drop (hn : (t.map Prod.fst).Nodup) : ((t.drop name).map Prod.fst).Nodup :=
  hn.sublist (List.filter_sublist.map _)

/-- The values around a name in use, in any order. -/
theorem exists_rest (h : t.get? name = some a) (hn : (t.map Prod.fst).Nodup) :
    ∃ rest, t.values.Perm (a :: rest) ∧ (∀ b, (t.put name b).values.Perm (b :: rest)) ∧
      (t.drop name).values.Perm rest := by
  obtain ⟨pre, post, hsplit, hput, hdrop⟩ := exists_split h hn
  refine ⟨values pre ++ values post, ?_, fun b => ?_, ?_⟩
  · rw [hsplit, values_append]
    exact List.perm_middle
  · rw [hput b, values_append]
    exact List.perm_middle
  · rw [hdrop, values_append]

theorem values_put_of_none (h : t.get? name = none) (b : α) :
    (t.put name b).values.Perm (b :: t.values) := by
  rw [put_of_get?_eq_none h, values_append]
  exact List.perm_append_singleton b t.values

theorem mem_values_of_get? (h : t.get? name = some a) : a ∈ t.values := by
  obtain ⟨pre, post, hsplit, -⟩ := List.lookup_eq_some_iff.1 h
  rw [hsplit, values_append]
  exact List.mem_append_right _ List.mem_cons_self

/-- Each name in use leads to its value. -/
theorem get?_of_mem (hn : (t.map Prod.fst).Nodup) {entry : String × α} (h : entry ∈ t) :
    t.get? entry.1 = some entry.2 := by
  cases hget : t.get? entry.1 with
  | none => exact absurd (List.mem_map_of_mem h) (not_mem_of_get?_eq_none hget)
  | some b =>
    obtain ⟨pre, post, hsplit, -⟩ := List.lookup_eq_some_iff.1 hget
    have hb : (entry.1, b) ∈ t := by
      rw [hsplit]
      exact List.mem_append_right _ List.mem_cons_self
    have hsame := List.inj_on_of_nodup_map hn hb h rfl
    rw [← hsame]

/-- What a table holds after a name was given a value. -/
theorem mem_values_put {b c : α} (hc : c ∈ (t.put name b).values) : c = b ∨ c ∈ t.values := by
  induction t with
  | nil =>
    left
    simpa [put] using hc
  | cons entry t ih =>
    obtain ⟨n, d⟩ := entry
    unfold put at hc
    split at hc
    · rcases List.mem_cons.1 hc with hc | hc
      · exact .inl hc
      · exact .inr (List.mem_cons_of_mem _ hc)
    · rcases List.mem_cons.1 hc with hc | hc
      · exact .inr (hc ▸ List.mem_cons_self)
      · rcases ih hc with hb | ht
        · exact .inl hb
        · exact .inr (List.mem_cons_of_mem _ ht)

theorem mem_values_put_self (t : Table α) (name : String) (b : α) : b ∈ (t.put name b).values := by
  induction t with
  | nil => exact List.mem_singleton_self b
  | cons entry t ih =>
    unfold put
    split
    · exact List.mem_cons_self
    · exact List.mem_cons_of_mem _ ih

/-- Changing all values changes each on its own and no name. -/
theorem mapValues_eq_ok {f : α → Except Fault α} {t' : Table α} (h : t.mapValues f = .ok t') :
    t'.map Prod.fst = t.map Prod.fst ∧ List.Forall₂ (fun a b => f a = .ok b) t.values t'.values := by
  induction t generalizing t' with
  | nil =>
    cases h
    exact ⟨rfl, .nil⟩
  | cons entry t ih =>
    unfold mapValues at h ih
    rw [List.mapM_cons, Fault.bind_eq_ok] at h
    obtain ⟨changed, hchanged, h⟩ := h
    rw [Fault.bind_eq_ok] at hchanged h
    obtain ⟨b, hb, hpair⟩ := hchanged
    obtain ⟨rest, hrest, hcons⟩ := h
    cases hpair
    cases hcons
    obtain ⟨hnames, hvalues⟩ := ih hrest
    exact ⟨congrArg (entry.1 :: ·) hnames, .cons hb hvalues⟩

/-- What a change of all values leaves as it is. -/
theorem map_values_of_mapValues {β : Type} {f : α → Except Fault α} {g : α → β} {t' : Table α}
    (h : t.mapValues f = .ok t') (hg : ∀ a b, f a = .ok b → g b = g a) :
    t'.values.map g = t.values.map g := by
  have hvalues := (mapValues_eq_ok h).2
  generalize t.values = as at hvalues ⊢
  generalize t'.values = bs at hvalues ⊢
  induction hvalues with
  | nil => rfl
  | cons hab _ ih => rw [List.map_cons, List.map_cons, hg _ _ hab, ih]

/-- What a change of all values makes of the one under a name. -/
theorem exists_get?_of_mapValues {f : α → Except Fault α} {t' : Table α} (h : t.mapValues f = .ok t')
    (hget : t.get? name = some a) : ∃ b, t'.get? name = some b ∧ f a = .ok b := by
  induction t generalizing t' with
  | nil => cases hget
  | cons entry t ih =>
    unfold mapValues at h ih
    rw [List.mapM_cons, Fault.bind_eq_ok] at h
    obtain ⟨changed, hchanged, h⟩ := h
    rw [Fault.bind_eq_ok] at hchanged h
    obtain ⟨b, hb, hpair⟩ := hchanged
    obtain ⟨rest, hrest, hcons⟩ := h
    cases hpair
    cases hcons
    unfold get? at hget ih ⊢
    rw [List.lookup_cons] at hget ⊢
    split at hget
    · cases hget
      exact ⟨b, rfl, hb⟩
    · exact ih hrest hget

end Table

namespace WorkspaceM

variable {α β : Type} {w : Workspace}

/-! ## Computations -/

/-- The outcome of a computation and the workspace it leaves behind. -/
def resume (act : WorkspaceM α) (w : Workspace) : Except Failure α × Workspace :=
  StateT.run (ExceptT.run act) w

/-- What holds where a computation ends: `ok` after a success, `stop` after a failure. -/
def Ends (act : WorkspaceM α) (w : Workspace) (ok : α → Workspace → Prop)
    (stop : Failure → Workspace → Prop) : Prop :=
  match act.resume w with
  | (.ok a, w') => ok a w'
  | (.error f, w') => stop f w'

/-- A failure that breaks a contract. -/
def Broken (e : Failure) (_ : Workspace) : Prop := ∃ fault, e = .fault fault

theorem broken_fault (fault : Fault) (w : Workspace) : Broken (.fault fault) w := ⟨fault, rfl⟩

theorem resume_bind (act : WorkspaceM α) (f : α → WorkspaceM β) (w : Workspace) :
    (act >>= f).resume w = match act.resume w with
      | (.ok a, w') => (f a).resume w'
      | (.error e, w') => (.error e, w') := by
  unfold resume ExceptT.run StateT.run
  simp only [bind, ExceptT.bind, ExceptT.mk, StateT.bind]
  rcases act w with ⟨r, w'⟩
  cases r <;> rfl

theorem resume_bind_ok {act : WorkspaceM α} {f : α → WorkspaceM β} {w w' : Workspace} {a : α}
    (h : act.resume w = (.ok a, w')) : (act >>= f).resume w = (f a).resume w' := by
  rw [resume_bind, h]

variable {P P' : α → Workspace → Prop} {R R' : Failure → Workspace → Prop}

theorem Ends.ok {act : WorkspaceM α} {w' : Workspace} {a : α} (h : Ends act w P R)
    (hr : act.resume w = (.ok a, w')) : P a w' := by
  unfold Ends at h
  rw [hr] at h
  exact h

theorem Ends.stop {act : WorkspaceM α} {w' : Workspace} {f : Failure} (h : Ends act w P R)
    (hr : act.resume w = (.error f, w')) : R f w' := by
  unfold Ends at h
  rw [hr] at h
  exact h

theorem Ends.mono {act : WorkspaceM α} (h : Ends act w P R) (hok : ∀ a w', P a w' → P' a w')
    (hstop : ∀ f w', R f w' → R' f w') : Ends act w P' R' := by
  unfold Ends at h ⊢
  generalize act.resume w = outcome at h ⊢
  obtain ⟨r, w'⟩ := outcome
  cases r with
  | ok a => exact hok a w' h
  | error f => exact hstop f w' h

theorem Ends.bind {act : WorkspaceM α} {f : α → WorkspaceM β} {Q : β → Workspace → Prop}
    (h : Ends act w P R) (hf : ∀ a w', P a w' → Ends (f a) w' Q R) :
    Ends (act >>= f) w Q R := by
  unfold Ends at h ⊢
  rw [resume_bind]
  generalize act.resume w = outcome at h ⊢
  obtain ⟨r, w'⟩ := outcome
  cases r with
  | ok a => exact hf a w' h
  | error e => exact h

theorem Ends.map {act : WorkspaceM α} {g : α → β} {Q : β → Workspace → Prop}
    (h : Ends act w (fun a w' => Q (g a) w') R) : Ends (g <$> act) w Q R := by
  rw [map_eq_pure_bind]
  exact h.bind fun _ _ hQ => hQ

theorem Ends.discard {act : WorkspaceM α} {Q : PUnit → Workspace → Prop}
    (h : Ends act w (fun _ w' => Q ⟨⟩ w') R) : Ends (Functor.discard act) w Q R := by
  rw [Functor.discard, map_const, Function.comp_apply]
  exact h.map

theorem ends_pure {a : α} (h : P a w) : Ends (pure a) w P R := h

theorem ends_modify {P : PUnit → Workspace → Prop} {f : Workspace → Workspace} (h : P ⟨⟩ (f w)) :
    Ends (modify f) w P R := h

/-! ## Steps of a sequence -/

variable {Q : β → Workspace → Prop}

theorem bind_get {f : Workspace → WorkspaceM β} (h : Ends (f w) w Q R) : Ends (get >>= f) w Q R := h

theorem bind_set {f : PUnit → WorkspaceM β} {w' : Workspace} (h : Ends (f ⟨⟩) w' Q R) :
    Ends (set w' >>= f) w Q R := h

theorem bind_modify {f : PUnit → WorkspaceM β} {g : Workspace → Workspace} (h : Ends (f ⟨⟩) (g w) Q R) :
    Ends (modify g >>= f) w Q R := h

theorem bind_require {x : Except Fault α} {f : α → WorkspaceM β}
    (hok : ∀ a, x = .ok a → Ends (f a) w Q R) (hstop : ∀ e, x = .error e → R (.fault e) w) :
    Ends (require x >>= f) w Q R := by
  cases x with
  | ok a => exact hok a rfl
  | error e => exact hstop e rfl

theorem bind_named {table : Workspace → Table α} {name : String} {f : α → WorkspaceM β}
    (hok : ∀ a, (table w).get? name = some a → Ends (f a) w Q R)
    (hstop : (table w).get? name = none → R (.fault .unknownName) w) :
    Ends (named table name >>= f) w Q R := by
  unfold named
  rw [bind_assoc]
  refine bind_get ?_
  cases hget : (table w).get? name with
  | none => exact hstop hget
  | some a => exact hok a hget

/-- The step for a name that is known to be in use. -/
theorem bind_named_of_eq_some {table : Workspace → Table α} {name : String} {a : α} {f : α → WorkspaceM β}
    (hget : (table w).get? name = some a) (h : Ends (f a) w Q R) : Ends (named table name >>= f) w Q R := by
  refine bind_named (fun b hb => ?_) fun hnone => ?_
  · rw [hget, Option.some.injEq] at hb
    exact hb ▸ h
  · rw [hget] at hnone
    cases hnone

theorem bind_buffer {name : String} {f : Buffer → WorkspaceM β}
    (hok : ∀ host, w.hosts.get? name = some host → Ends (f host.buffer) w Q R)
    (hstop : R (.fault .unknownName) w) : Ends (buffer name >>= f) w Q R := by
  unfold buffer
  rw [bind_assoc]
  exact bind_named (fun host hget => hok host hget) fun _ => hstop

theorem bind_buffer_of_eq_some {name : String} {host : Host} {f : Buffer → WorkspaceM β}
    (hget : w.hosts.get? name = some host) (h : Ends (f host.buffer) w Q R) :
    Ends (buffer name >>= f) w Q R := by
  unfold buffer
  rw [bind_assoc]
  exact bind_named_of_eq_some hget h

/-- A loop keeps what each of its rounds keeps. -/
theorem ends_forM {I : Workspace → Prop} {f : α → WorkspaceM PUnit} (l : List α)
    (hf : ∀ a ∈ l, ∀ w, I w → Ends (f a) w (fun _ => I) R) (hw : I w) :
    Ends (l.forM f) w (fun _ => I) R := by
  induction l generalizing w with
  | nil => exact ends_pure hw
  | cons a l ih =>
    refine Ends.bind (hf a List.mem_cons_self w hw) fun _ w' hw' => ?_
    exact ih (fun b hb => hf b (List.mem_cons_of_mem a hb)) hw'

end WorkspaceM

end Caret
