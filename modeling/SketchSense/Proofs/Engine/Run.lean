import SketchSense.Engine.Basic

/-!
# Runs of computations that use an engine

A run starts in a state of the engine and, unless a fault ends it, yields a result and a new state.
Proofs take runs apart step by step and never open the monads.

* `Yields`, a run of `EngineM`, and `YieldsWith`, one of a computation with a state of its own;
* one lemma for what each way of combining computations does to runs.
-/

namespace SketchSense

variable {σ τ α β : Type}

/-! ## Runs on the engine alone -/

/-- What becomes of a computation that starts in `s`. -/
def EngineM.runFrom (x : EngineM σ α) (s : σ) : Except Fault α × σ := x.run s

/-- The computation, started in `s`, ends in `s'` with the result `a`. -/
def Yields (x : EngineM σ α) (s : σ) (a : α) (s' : σ) : Prop :=
  EngineM.runFrom x s = (.ok a, s')

@[simp] theorem yields_pure {a b : α} {s s' : σ} :
    Yields (pure a) s b s' ↔ b = a ∧ s' = s := by
  have hrun : EngineM.runFrom (pure a) s = (.ok a, s) := rfl
  rw [Yields, hrun]
  simp [eq_comm]

/-- What becomes of two computations one after the other: a fault of the first ends both. -/
theorem runFrom_bind (x : EngineM σ α) (f : α → EngineM σ β) (s : σ) :
    EngineM.runFrom (x >>= f) s = match EngineM.runFrom x s with
      | (.ok a, t) => EngineM.runFrom (f a) t
      | (.error e, t) => (.error e, t) := by
  show ExceptT.bindCont f (EngineM.runFrom x s).1 (EngineM.runFrom x s).2 = _
  cases EngineM.runFrom x s with
  | mk r t => cases r <;> rfl

/-- A run of two computations one after the other is a run of each. -/
theorem yields_bind {x : EngineM σ α} {f : α → EngineM σ β} {s s' : σ} {b : β} :
    Yields (x >>= f) s b s' ↔ ∃ a t, Yields x s a t ∧ Yields (f a) t b s' := by
  unfold Yields
  rw [runFrom_bind]
  constructor
  · intro h
    cases hx : EngineM.runFrom x s with
    | mk r t =>
      rw [hx] at h
      cases r with
      | ok a => exact ⟨a, t, rfl, h⟩
      | error e => simp at h
  · rintro ⟨a, t, hx, hf⟩
    rw [hx]
    exact hf

@[simp] theorem yields_get {a s s' : σ} :
    Yields (get : EngineM σ σ) s a s' ↔ a = s ∧ s' = s := by
  have hrun : EngineM.runFrom (get : EngineM σ σ) s = (.ok s, s) := rfl
  rw [Yields, hrun]
  simp [eq_comm]

@[simp] theorem yields_set {t s s' : σ} {a : PUnit} :
    Yields (set t : EngineM σ PUnit) s a s' ↔ s' = t := by
  have hrun : EngineM.runFrom (set t : EngineM σ PUnit) s = (.ok ⟨⟩, t) := rfl
  rw [Yields, hrun]
  simp [eq_comm]

/-- A result that may be a fault takes no step of the engine. -/
@[simp] theorem yields_mk {x : Except Fault α} {a : α} {s s' : σ} :
    Yields (ExceptT.mk (pure x) : EngineM σ α) s a s' ↔ x = .ok a ∧ s' = s := by
  have hrun : EngineM.runFrom (ExceptT.mk (pure x) : EngineM σ α) s = (x, s) := rfl
  rw [Yields, hrun, Prod.mk.injEq]
  simp [eq_comm]

/-- A computation has one run from each state. -/
theorem Yields.unique {x : EngineM σ α} {s s₁ s₂ : σ} {a₁ a₂ : α} (h₁ : Yields x s a₁ s₁)
    (h₂ : Yields x s a₂ s₂) : a₁ = a₂ ∧ s₁ = s₂ := by
  unfold Yields at h₁ h₂
  rw [h₁] at h₂
  simpa using h₂

/-! ## Runs with a state besides -/

/-- The computation, started with `t` in `s`, ends with `t'` in `s'` and with the result `a`. -/
def YieldsWith (x : StateT τ (EngineM σ) α) (t : τ) (s : σ) (a : α) (t' : τ) (s' : σ) : Prop :=
  Yields (x.run t) s (a, t') s'

/-- What becomes of two computations with a state besides, one after the other. -/
theorem runFrom_run_bind (x : StateT τ (EngineM σ) α) (f : α → StateT τ (EngineM σ) β) (t : τ)
    (s : σ) :
    EngineM.runFrom ((x >>= f).run t) s = match EngineM.runFrom (x.run t) s with
      | (.ok (a, u), s') => EngineM.runFrom ((f a).run u) s'
      | (.error e, s') => (.error e, s') := by
  rw [StateT.run_bind, runFrom_bind]
  cases EngineM.runFrom (x.run t) s with
  | mk r s' => cases r <;> rfl

/-- A computation whose first step has a run goes on from there. -/
theorem runFrom_run_bind_of_yields {x : StateT τ (EngineM σ) α}
    (f : α → StateT τ (EngineM σ) β) {t u : τ} {s s' : σ} {a : α} (h : YieldsWith x t s a u s') :
    EngineM.runFrom ((x >>= f).run t) s = EngineM.runFrom ((f a).run u) s' := by
  unfold YieldsWith Yields at h
  rw [runFrom_run_bind, h]

/-- What becomes of a computation on the engine alone and one with a state after it. -/
theorem runFrom_run_liftM_bind (x : EngineM σ α) (f : α → StateT τ (EngineM σ) β) (t : τ) (s : σ) :
    EngineM.runFrom (((liftM x : StateT τ (EngineM σ) α) >>= f).run t) s =
      match EngineM.runFrom x s with
      | (.ok a, s') => EngineM.runFrom ((f a).run t) s'
      | (.error e, s') => (.error e, s') := by
  have hlift : EngineM.runFrom ((liftM x : StateT τ (EngineM σ) α).run t) s =
      EngineM.runFrom (x >>= fun b => pure (b, t)) s := rfl
  rw [runFrom_run_bind, hlift, runFrom_bind]
  cases EngineM.runFrom x s with
  | mk r s' => cases r <;> rfl

@[simp] theorem yieldsWith_pure {a b : α} {t t' : τ} {s s' : σ} :
    YieldsWith (pure a : StateT τ (EngineM σ) α) t s b t' s' ↔ b = a ∧ t' = t ∧ s' = s := by
  simp [YieldsWith, and_assoc]

theorem yieldsWith_bind {x : StateT τ (EngineM σ) α} {f : α → StateT τ (EngineM σ) β} {t t' : τ}
    {s s' : σ} {b : β} :
    YieldsWith (x >>= f) t s b t' s' ↔
      ∃ a t₁ s₁, YieldsWith x t s a t₁ s₁ ∧ YieldsWith (f a) t₁ s₁ b t' s' := by
  unfold YieldsWith
  rw [StateT.run_bind, yields_bind]
  constructor
  · rintro ⟨⟨a, t₁⟩, s₁, hx, hf⟩
    exact ⟨a, t₁, s₁, hx, hf⟩
  · rintro ⟨a, t₁, s₁, hx, hf⟩
    exact ⟨(a, t₁), s₁, hx, hf⟩

/-- A computation whose first step has a run has the runs that go on from there. -/
theorem yieldsWith_bind_of_yields {x : StateT τ (EngineM σ) α} {f : α → StateT τ (EngineM σ) β}
    {t u t' : τ} {s r s' : σ} {a : α} {b : β} (h : YieldsWith x t s a u r) :
    YieldsWith (x >>= f) t s b t' s' ↔ YieldsWith (f a) u r b t' s' := by
  unfold YieldsWith Yields
  rw [runFrom_run_bind_of_yields f h]

@[simp] theorem yieldsWith_get {t a t' : τ} {s s' : σ} :
    YieldsWith (get : StateT τ (EngineM σ) τ) t s a t' s' ↔ a = t ∧ t' = t ∧ s' = s := by
  simp [YieldsWith, and_assoc]

@[simp] theorem yieldsWith_set {t u t' : τ} {s s' : σ} {a : PUnit} :
    YieldsWith (set u : StateT τ (EngineM σ) PUnit) t s a t' s' ↔ t' = u ∧ s' = s := by
  simp [YieldsWith]

@[simp] theorem yieldsWith_modify {f : τ → τ} {t t' : τ} {s s' : σ} {a : PUnit} :
    YieldsWith (modify f : StateT τ (EngineM σ) PUnit) t s a t' s' ↔ t' = f t ∧ s' = s := by
  have hrun : (modify f : StateT τ (EngineM σ) PUnit).run t = pure (⟨⟩, f t) := rfl
  rw [YieldsWith, hrun]
  simp

/-- A computation on the engine alone leaves the other state as it is. -/
@[simp] theorem yieldsWith_liftM {x : EngineM σ α} {t t' : τ} {s s' : σ} {a : α} :
    YieldsWith (liftM x : StateT τ (EngineM σ) α) t s a t' s' ↔ Yields x s a s' ∧ t' = t := by
  have hrun : (liftM x : StateT τ (EngineM σ) α).run t = x >>= fun b => pure (b, t) := rfl
  rw [YieldsWith, hrun, yields_bind]
  constructor
  · rintro ⟨b, u, hx, h⟩
    simp only [yields_pure, Prod.mk.injEq] at h
    obtain ⟨⟨rfl, rfl⟩, rfl⟩ := h
    exact ⟨hx, rfl⟩
  · rintro ⟨hx, rfl⟩
    exact ⟨a, s', hx, by simp⟩

/-- A result that is evaluated and is no failure. -/
theorem exists_ok_of_toOption {ε : Type} {x : Except ε α} {f : α → β} {b : β}
    (h : x.toOption.map f = some b) : ∃ a, x = .ok a ∧ f a = b := by
  cases x with
  | error e => cases h
  | ok a => exact ⟨a, rfl, Option.some.inj h⟩

/-- A run that is evaluated and does not end in a fault. -/
theorem exists_yieldsWith {x : StateT τ (EngineM σ) α} {t : τ} {s : σ} {f : α × τ → β} {b : β}
    (h : (EngineM.runFrom (x.run t) s).1.toOption.map f = some b) :
    ∃ a t' s', YieldsWith x t s a t' s' ∧ f (a, t') = b := by
  obtain ⟨r, hr, hf⟩ := exists_ok_of_toOption h
  exact ⟨r.1, r.2, _, Prod.ext hr rfl, hf⟩

end SketchSense
