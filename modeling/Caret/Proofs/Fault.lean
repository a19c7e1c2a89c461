import Mathlib.Data.Int.Order.Basic
import Mathlib.Data.List.Forall2
import Mathlib.Tactic.Common
import Caret.Fault

/-!
# Computations that may break a contract

How the steps of an `Except` computation fall away once they are known to answer, and the exact
values of the bounded operations inside their range.

* `Fault.ok_bind`, `Fault.bind_eq_ok`: steps that answer.
* `Fault.foldlM_keeps`: what every step of a run keeps.
* `Count.diff_eq`, `Count.shift_eq`: signed differences and shifts that stay in range.
-/

namespace Caret

namespace Fault

variable {ε α β : Type}

-- `(rfl)`, so that these rewrite a computation where they are asked to and `dsimp` leaves it alone
@[simp] theorem ok_bind (a : α) (f : α → Except ε β) : (Except.ok a >>= f) = f a := (rfl)

@[simp] theorem error_bind (e : ε) (f : α → Except ε β) :
    ((Except.error e : Except ε α) >>= f) = .error e := (rfl)

@[simp] theorem pure_eq_ok (a : α) : (pure a : Except ε α) = .ok a := (rfl)

theorem bind_eq_ok {x : Except ε α} {f : α → Except ε β} {b : β} :
    (x >>= f) = .ok b ↔ ∃ a, x = .ok a ∧ f a = .ok b := by
  cases x <;> simp

theorem toOption_eq_some {x : Except ε α} {a : α} : x.toOption = some a ↔ x = .ok a := by
  cases x <;> simp [Except.toOption]

theorem mapM_eq_ok {f : α → Except ε β} {g : α → β} {l : List α} (h : ∀ a ∈ l, f a = .ok (g a)) :
    l.mapM f = .ok (l.map g) := by
  induction l with
  | nil => rfl
  | cons a l ih =>
    rw [List.mapM_cons, h a List.mem_cons_self, ok_bind, ih fun b hb => h b (List.mem_cons_of_mem a hb)]
    rfl

/-- A step that answers for each element of a list. -/
theorem exists_mapM_eq_ok {f : α → Except ε β} {l : List α} (h : ∀ a ∈ l, ∃ b, f a = .ok b) :
    ∃ m, l.mapM f = .ok m ∧ m.map Except.ok = l.map f := by
  induction l with
  | nil => exact ⟨[], rfl, rfl⟩
  | cons a l ih =>
    obtain ⟨b, hb⟩ := h a List.mem_cons_self
    obtain ⟨m, hm, hmap⟩ := ih fun c hc => h c (List.mem_cons_of_mem a hc)
    refine ⟨b :: m, ?_, ?_⟩
    · rw [List.mapM_cons, hb, ok_bind, hm]
      rfl
    · rw [List.map_cons, List.map_cons, hb, hmap]

/-- A step made for all elements of a list is made for each on its own. -/
theorem mapM_eq_ok_iff {f : α → Except ε β} {l : List α} {m : List β} :
    l.mapM f = .ok m ↔ List.Forall₂ (fun a b => f a = .ok b) l m := by
  induction l generalizing m with
  | nil =>
    rw [List.mapM_nil, pure_eq_ok, Except.ok.injEq, List.forall₂_nil_left_iff]
    exact eq_comm
  | cons a l ih =>
    simp only [List.mapM_cons, bind_eq_ok, pure_eq_ok, Except.ok.injEq, List.forall₂_cons_left_iff, ih]
    constructor
    · rintro ⟨b, hb, rest, hrest, rfl⟩
      exact ⟨b, rest, hb, hrest, rfl⟩
    · rintro ⟨b, rest, hb, hrest, rfl⟩
      exact ⟨b, hb, rest, hrest, rfl⟩

theorem length_of_mapM {f : α → Except ε β} {l : List α} {m : List β} (h : l.mapM f = .ok m) :
    m.length = l.length :=
  (mapM_eq_ok_iff.1 h).length_eq.symm

/-- Elements that take two steps, first all of one kind and then all of the other. -/
theorem mapM_bind_eq_ok {γ : Type} {f : α → Except ε β} {g : β → Except ε γ} {l : List α} {r : List γ}
    (h : l.mapM (fun a => f a >>= g) = .ok r) : ∃ m, l.mapM f = .ok m ∧ m.mapM g = .ok r := by
  induction l generalizing r with
  | nil => exact ⟨[], rfl, h⟩
  | cons a l ih =>
    simp only [List.mapM_cons, bind_eq_ok] at h
    obtain ⟨c, ⟨b, hb, hc⟩, r', hr', hr⟩ := h
    obtain ⟨m, hm, hm'⟩ := ih hr'
    refine ⟨b :: m, ?_, ?_⟩
    · rw [List.mapM_cons, hb, ok_bind, hm]
      rfl
    · rw [List.mapM_cons, hc, ok_bind, hm']
      exact hr

/-- **What every step keeps**, a run of steps keeps. -/
theorem foldlM_keeps {f : β → α → Except ε β} {P : β → Prop} {l : List α} {b b' : β}
    (hstep : ∀ b, ∀ a ∈ l, ∀ b', P b → f b a = .ok b' → P b') (h : P b)
    (hr : l.foldlM f b = .ok b') : P b' := by
  induction l generalizing b with
  | nil =>
    cases hr
    exact h
  | cons a l ih =>
    rw [List.foldlM_cons, bind_eq_ok] at hr
    obtain ⟨c, hc, hr⟩ := hr
    exact ih (fun b x hx => hstep b x (List.mem_cons_of_mem a hx))
      (hstep b a List.mem_cons_self c h hc) hr

@[simp] theorem unless_of {f : Fault} {p : Prop} [Decidable p] (h : p) : f.unless p = .ok () :=
  if_pos h

end Fault

namespace Count

theorem signedBound_add_self : signedBound + signedBound = bound := rfl

/-- Counts below `signedBound` are the same number when read as signed. -/
theorem signed_of_lt {n : ℕ} (h : n < signedBound) : signed n = n := by
  unfold signed bound
  unfold signedBound at h
  rw [Int.bmod_def]
  omega

theorem neg_of_lt {z : ℤ} (h : -(signedBound : ℤ) < z) : neg z = .ok (-z) :=
  if_neg (by omega)

/-- Differences whose distance has a signed form are exact. -/
theorem diff_eq {a b : ℕ} (h : a < b + signedBound) (h' : b < a + signedBound) :
    diff a b = .ok ((a : ℤ) - b) := by
  unfold diff
  split
  · rename_i hle
    rw [signed_of_lt (by omega)]
    congr 1
    omega
  · rename_i hlt
    rw [signed_of_lt (by omega), neg_of_lt (by omega)]
    congr 1
    omega

theorem add_of_lt {a b : ℕ} (h : a + b < bound) : add a b = .ok (a + b) := if_pos h

theorem sub_of_le {a b : ℕ} (h : b ≤ a) : sub a b = .ok (a - b) := if_pos h

/-- A shift that lands on a count has no fault. -/
theorem shift_eq {n k : ℕ} {z : ℤ} (hz : (n : ℤ) + z = k) (hk : k < bound) : shift n z = .ok k := by
  unfold shift
  simp only [hz]
  rw [if_pos ⟨by omega, by omega⟩, Int.toNat_natCast]

theorem of_shift_eq_ok {n k : ℕ} {z : ℤ} (h : shift n z = .ok k) : (n : ℤ) + z = k ∧ k < bound := by
  unfold shift at h
  dsimp only at h
  split at h
  · rename_i hrange
    cases h
    omega
  · cases h

end Count

end Caret
