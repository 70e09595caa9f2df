import SketchSense.Proofs.Engine.Run

/-!
# What computations keep

A computation keeps an invariant if every run that starts where it holds ends where it holds. What is
known of the result is passed on to what follows, so that a long computation is checked step by step.

* `Keeps`, with one rule for each way of combining computations.
-/

namespace SketchSense

variable {σ τ α β : Type} {I : τ → Prop}

/-- Every run of `x` that starts where `I` holds ends where `I` holds, with a result of which `P`
holds. Nothing is said about runs that end in a fault. -/
def Keeps (I : τ → Prop) (x : StateT τ (EngineM σ) α) (P : α → Prop) : Prop :=
  ∀ ⦃t s a t' s'⦄, YieldsWith x t s a t' s' → I t → I t' ∧ P a

theorem Keeps.mono {x : StateT τ (EngineM σ) α} {P Q : α → Prop} (hx : Keeps I x P)
    (h : ∀ a, P a → Q a) : Keeps I x Q := by
  intro t s a t' s' hrun ht
  exact ⟨(hx hrun ht).1, h a (hx hrun ht).2⟩

theorem keeps_pure {a : α} {P : α → Prop} (h : P a) :
    Keeps I (pure a : StateT τ (EngineM σ) α) P := by
  intro t s b t' s' hrun ht
  obtain ⟨rfl, rfl, -⟩ := yieldsWith_pure.1 hrun
  exact ⟨ht, h⟩

theorem keeps_bind {x : StateT τ (EngineM σ) α} {f : α → StateT τ (EngineM σ) β} {P : α → Prop}
    {Q : β → Prop} (hx : Keeps I x P) (hf : ∀ a, P a → Keeps I (f a) Q) : Keeps I (x >>= f) Q := by
  intro t s b t' s' hrun ht
  obtain ⟨a, t₁, s₁, hfirst, hrest⟩ := yieldsWith_bind.1 hrun
  obtain ⟨ht₁, ha⟩ := hx hfirst ht
  exact hf a ha hrest ht₁

/-- The state that is read satisfies the invariant. -/
theorem keeps_get : Keeps I (get : StateT τ (EngineM σ) τ) I := by
  intro t s a t' s' hrun ht
  obtain ⟨rfl, rfl, -⟩ := yieldsWith_get.1 hrun
  exact ⟨ht, ht⟩

theorem keeps_modify {f : τ → τ} (h : ∀ t, I t → I (f t)) :
    Keeps I (modify f : StateT τ (EngineM σ) PUnit) fun _ => True := by
  intro t s a t' s' hrun ht
  obtain ⟨rfl, -⟩ := yieldsWith_modify.1 hrun
  exact ⟨h t ht, trivial⟩

/-- A computation on the engine alone has no effect on the invariant. -/
theorem keeps_liftM {x : EngineM σ α} {P : α → Prop} (h : ∀ s a s', Yields x s a s' → P a) :
    Keeps I (liftM x : StateT τ (EngineM σ) α) P := by
  intro t s a t' s' hrun ht
  obtain ⟨hx, rfl⟩ := yieldsWith_liftM.1 hrun
  exact ⟨ht, h s a s' hx⟩

/-- The state of the engine may be anything. -/
theorem keeps_getThe : Keeps I (getThe σ : StateT τ (EngineM σ) σ) fun _ => True := by
  intro t s a t' s' hrun ht
  have hread : EngineM.runFrom ((getThe σ : StateT τ (EngineM σ) σ).run t) s = (.ok (s, t), s) := rfl
  unfold YieldsWith Yields at hrun
  rw [hread, Prod.mk.injEq, Except.ok.injEq, Prod.mk.injEq] at hrun
  obtain ⟨⟨-, rfl⟩, -⟩ := hrun
  exact ⟨ht, trivial⟩

end SketchSense
