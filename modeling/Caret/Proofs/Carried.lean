import Caret.Change.Sweep
import Caret.Proofs.Fault

/-!
# What is carried across the log

Moving a collection across the log reads the ends of its elements and puts others in their place. All
else is carried along unseen: the elements stay in their places, and it does not matter whether
something is forgotten about them before or after they are moved.

* `Tracked.Hom`: maps that keep the ends of things.
* `Run.map_of_sweep`, `map_of_sweepLog`: what is not moved stays as it is, element by element.
* `Run.sweep_map`, `sweepLog_map`: what is forgotten has no influence.
-/

namespace Caret

namespace Tracked

/-- **A map that keeps the ends** of things, and may forget or rename all else. -/
structure Hom {ρ σ : Type} [Tracked ρ] [Tracked σ] (φ : ρ → σ) : Prop where
  first : ∀ r, Tracked.first (φ r) = Tracked.first r
  last : ∀ r, Tracked.last (φ r) = Tracked.last r
  withEnds : ∀ r low high, φ (Tracked.withEnds r low high) = Tracked.withEnds (φ r) low high

end Tracked

variable {ρ σ α : Type} [Tracked ρ] [Tracked σ] {φ : ρ → σ} {g : ρ → α} {direction : Direction}
  {pass : Pass} {run : Run} {log : List Change} {items moved : List ρ}

/-! ## What is not moved -/

/-- What a pass does not change of any element. -/
theorem Pass.map_of_moveAll (hg : ∀ r low high, g (Tracked.withEnds r low high) = g r)
    (h : pass.moveAll direction items = .ok moved) : moved.map g = items.map g := by
  induction items generalizing pass moved with
  | nil =>
    obtain rfl := Except.ok.inj h
    rfl
  | cons r items ih =>
    simp only [moveAll, Fault.bind_eq_ok] at h
    obtain ⟨⟨first, pass₁⟩, -, ⟨last, pass₂⟩, -, rest, hrest, h⟩ := h
    obtain rfl := Except.ok.inj h
    rw [List.map_cons, List.map_cons, hg, ih hrest]

/-- What a run does not change of any element. -/
theorem Run.map_of_sweep (hg : ∀ r low high, g (Tracked.withEnds r low high) = g r)
    (h : run.sweep items = .ok moved) : moved.map g = items.map g := by
  unfold sweep at h
  split at h
  · unfold sweepForward at h
    split at h
    · obtain rfl := Except.ok.inj h
      rfl
    · rw [Fault.bind_eq_ok] at h
      obtain ⟨rest, hrest, h⟩ := h
      obtain rfl := Except.ok.inj h
      rw [List.map_append, Pass.map_of_moveAll hg hrest, ← List.map_append, List.take_append_drop]
  · exact Pass.map_of_moveAll hg h

/-- **What a stretch of the log does not change** of any element. -/
theorem map_of_sweepLog (hg : ∀ r low high, g (Tracked.withEnds r low high) = g r)
    (h : sweepLog log items = .ok moved) : moved.map g = items.map g := by
  refine Fault.foldlM_keeps (P := fun l : List ρ => l.map g = items.map g) ?_ rfl h
  intro l run _ l' hl hsweep
  exact (Run.map_of_sweep hg hsweep).trans hl

/-- A collection that was moved has as many elements as before. -/
theorem Run.length_sweep (h : run.sweep items = .ok moved) : moved.length = items.length := by
  have hunits := Run.map_of_sweep (g := fun _ => ()) (fun _ _ _ => rfl) h
  simpa using congrArg List.length hunits

theorem length_sweepLog (h : sweepLog log items = .ok moved) : moved.length = items.length := by
  have hunits := map_of_sweepLog (g := fun _ => ()) (fun _ _ _ => rfl) h
  simpa using congrArg List.length hunits

/-! ## What is forgotten -/

/-- A pass goes by the ends alone. -/
theorem Pass.moveAll_map (hφ : Tracked.Hom φ) (direction : Direction) (pass : Pass) (items : List ρ) :
    pass.moveAll direction (items.map φ) = (do return (← pass.moveAll direction items).map φ) := by
  induction items generalizing pass with
  | nil => rfl
  | cons r items ih =>
    simp only [List.map_cons, moveAll, hφ.first, hφ.last, ih, bind_assoc, pure_bind]
    refine bind_congr fun first => bind_congr fun last => bind_congr fun rest => ?_
    rw [hφ.withEnds]

theorem bisectFrom_map {β : Type} (p : β → Bool) (f : α → β) (l : List α) (base size : ℕ) :
    bisectFrom p (l.map f) base size = bisectFrom (p ∘ f) l base size := by
  have hany (i : ℕ) : (l.map f)[i]?.any p = l[i]?.any (p ∘ f) := by
    rw [List.getElem?_map, Option.any_map]
    rfl
  induction size using Nat.strongRecOn generalizing base with
  | ind size ih =>
    unfold bisectFrom
    dsimp only
    rw [hany]
    split
    · exact ih _ (by omega) _
    · rfl

theorem bisect_map {β : Type} (p : β → Bool) (f : α → β) (l : List α) :
    bisect p (l.map f) = bisect (p ∘ f) l := by
  unfold bisect
  dsimp only
  rw [List.length_map, bisectFrom_map, List.getElem?_map, Option.any_map]
  rfl

/-- A run goes by the ends alone. -/
theorem Run.sweep_map (hφ : Tracked.Hom φ) (run : Run) (items : List ρ) :
    run.sweep (items.map φ) = (do return (← run.sweep items).map φ) := by
  unfold sweep
  split
  · unfold sweepForward
    split
    · rfl
    · rename_i front rest _
      -- the same elements lie before the first change
      have hbefore : bisect (fun r => decide (Tracked.last r < front.start)) (items.map φ) =
          bisect (fun r => decide (Tracked.last r < front.start)) items := by
        rw [bisect_map]
        exact congrArg (bisect · items) (funext fun r => by rw [Function.comp_apply, hφ.last])
      dsimp only
      rw [hbefore, ← List.map_drop, Pass.moveAll_map hφ, ← List.map_take]
      simp only [bind_assoc, pure_bind, List.map_append]
  · exact Pass.moveAll_map hφ _ _ items

/-- **A stretch of the log goes by the ends alone.** -/
theorem sweepLog_map (hφ : Tracked.Hom φ) (log : List Change) (items : List ρ) :
    sweepLog log (items.map φ) = (do return (← sweepLog log items).map φ) := by
  unfold sweepLog
  generalize splitRuns log = runs
  induction runs generalizing items with
  | nil => rfl
  | cons run runs ih =>
    rw [List.foldlM_cons, List.foldlM_cons, Run.sweep_map hφ, bind_assoc, bind_assoc]
    refine bind_congr fun moved => ?_
    rw [pure_bind]
    exact ih moved

end Caret
