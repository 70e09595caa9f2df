import SketchSense.Proofs.Engine.Keeping

/-!
# Computations that run alike

Two computations run alike if, started in related states with the engine in one state, they end in
related states with related results and with the engine in one state, or both end in one fault. What
an engine is asked is thereby the same in both runs.

* `AlikeEnds`, what the ends of two runs have in common;
* `Alike`, with one rule for each way of combining computations.
-/

namespace SketchSense

variable {σ τ α β γ δ : Type} {R : τ → τ → Prop}

/-- The ends of two runs that are alike: results and states are related, or the fault is the same. -/
inductive AlikeEnds (R : τ → τ → Prop) (Q : α → β → Prop) :
    Except Fault (α × τ) × σ → Except Fault (β × τ) × σ → Prop
  | ok {a : α} {b : β} {t u : τ} (s : σ) (hab : Q a b) (htu : R t u) :
      AlikeEnds R Q (.ok (a, t), s) (.ok (b, u), s)
  | fault (e : Fault) (s : σ) : AlikeEnds R Q (.error e, s) (.error e, s)

/-- Runs of `x` and `y` that start in related states end alike, with results related by `Q`. -/
def Alike (R : τ → τ → Prop) (x : StateT τ (EngineM σ) α) (y : StateT τ (EngineM σ) β)
    (Q : α → β → Prop) : Prop :=
  ∀ ⦃t u⦄ s, R t u → AlikeEnds R Q (EngineM.runFrom (x.run t) s) (EngineM.runFrom (y.run u) s)

/-- If one of two computations that run alike has a result, so has the other. -/
theorem Alike.exists_yieldsWith {x : StateT τ (EngineM σ) α} {y : StateT τ (EngineM σ) β}
    {Q : α → β → Prop} (hxy : Alike R x y Q) {t t' u : τ} {s s' : σ} {a : α} (htu : R t u)
    (h : YieldsWith x t s a t' s') : ∃ b u', YieldsWith y u s b u' s' ∧ Q a b ∧ R t' u' := by
  have hends := hxy s htu
  unfold YieldsWith Yields at h ⊢
  rw [h] at hends
  generalize EngineM.runFrom (y.run u) s = other at hends ⊢
  cases hends with
  | ok _ hab htu => exact ⟨_, _, rfl, hab, htu⟩

/-- The results of computations that run alike are results of runs. -/
theorem Alike.and_run {x : StateT τ (EngineM σ) α} {y : StateT τ (EngineM σ) β} {Q : α → β → Prop}
    (hxy : Alike R x y Q) :
    Alike R x y fun a b => Q a b ∧ ∃ t u s t' s', R t u ∧ YieldsWith x t s a t' s' := by
  intro t u s htu
  have hends := hxy s htu
  cases hx : EngineM.runFrom (x.run t) s with
  | mk r s' =>
    rw [hx] at hends
    generalize EngineM.runFrom (y.run u) s = other at hends ⊢
    cases hends with
    | ok _ hab htu' => exact .ok s' ⟨hab, t, u, s, _, s', htu, hx⟩ htu'
    | fault e _ => exact .fault e s'

theorem alike_pure {a : α} {b : β} {Q : α → β → Prop} (h : Q a b) :
    Alike R (pure a : StateT τ (EngineM σ) α) (pure b) Q := by
  intro t u s htu
  exact .ok s h htu

theorem alike_bind {x : StateT τ (EngineM σ) α} {y : StateT τ (EngineM σ) β}
    {f : α → StateT τ (EngineM σ) γ} {g : β → StateT τ (EngineM σ) δ} {P : α → β → Prop}
    {Q : γ → δ → Prop} (hxy : Alike R x y P) (hfg : ∀ a b, P a b → Alike R (f a) (g b) Q) :
    Alike R (x >>= f) (y >>= g) Q := by
  intro t u s htu
  rw [runFrom_run_bind, runFrom_run_bind]
  have hends := hxy s htu
  generalize EngineM.runFrom (x.run t) s = first, EngineM.runFrom (y.run u) s = second at hends ⊢
  cases hends with
  | ok s' hab htu' => exact hfg _ _ hab s' htu'
  | fault e s' => exact .fault e s'

/-- The states that are read are related. -/
theorem alike_get : Alike R (get : StateT τ (EngineM σ) τ) get R := by
  intro t u s htu
  exact .ok s htu htu

theorem alike_modify {f g : τ → τ} (h : ∀ t u, R t u → R (f t) (g u)) :
    Alike R (modify f : StateT τ (EngineM σ) PUnit) (modify g) fun _ _ => True := by
  intro t u s htu
  exact .ok s trivial (h t u htu)

/-- A computation on the engine alone runs like itself, whatever the states are. -/
theorem alike_liftM (x : EngineM σ α) : Alike R (liftM x : StateT τ (EngineM σ) α) (liftM x) Eq := by
  intro t u s htu
  have hrun (v : τ) : EngineM.runFrom ((liftM x : StateT τ (EngineM σ) α).run v) s =
      EngineM.runFrom (x >>= fun a => pure (a, v)) s := rfl
  rw [hrun, hrun, runFrom_bind, runFrom_bind]
  cases EngineM.runFrom x s with
  | mk r s' =>
    cases r with
    | ok a => exact .ok s' rfl htu
    | error e => exact .fault e s'

/-- The engine is in one state. -/
theorem alike_getThe : Alike R (getThe σ : StateT τ (EngineM σ) σ) (getThe σ) Eq := by
  intro t u s htu
  exact .ok s rfl htu

/-- A computation runs like itself from one state, and what it keeps holds in both runs. -/
theorem alike_of_keeps {I : τ → Prop} {x : StateT τ (EngineM σ) α} {P : α → Prop}
    (hx : Keeps I x P) : Alike (fun t u => u = t ∧ I t) x x fun a b => b = a ∧ P a := by
  intro t u s htu
  obtain ⟨rfl, ht⟩ := htu
  cases hrun : EngineM.runFrom (x.run u) s with
  | mk r s' =>
    cases r with
    | ok r =>
      obtain ⟨ht', ha⟩ := hx hrun ht
      exact .ok s' ⟨rfl, ha⟩ ⟨rfl, ht'⟩
    | error e => exact .fault e s'

end SketchSense
