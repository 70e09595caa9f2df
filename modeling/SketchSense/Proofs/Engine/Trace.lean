import SketchSense.Proofs.Engine.Run

/-!
# Records of calls

An engine can keep a record of its calls. It does the same as before, and the record shows all that it
was asked, in order.

* `EngineCall` and `Engine.traced`, an engine that keeps a record;
* `OnlyParses`, that a computation leads to no other calls than parses, with one rule for each way of
  combining computations.
-/

namespace SketchSense

variable {σ α β : Type}

/-- What an engine is asked to do. -/
inductive EngineCall where
  | parse (r : ParseRequest)
  | reparse (unit : CompilationUnit) (unsaved : List FileBuffer)

/-- The engine that does the same and keeps a record of its calls, the latest last. -/
def Engine.traced (e : Engine σ) : Engine (σ × List EngineCall) where
  parse r := ExceptT.mk fun (s, calls) =>
    let (answer, s') := EngineM.runFrom (e.parse r) s
    (answer, (s', calls ++ [.parse r]))
  reparse unit unsaved := ExceptT.mk fun (s, calls) =>
    let (answer, s') := EngineM.runFrom (e.reparse unit unsaved) s
    (answer, (s', calls ++ [.reparse unit unsaved]))
  diagnostics state unit := e.diagnostics state.1 unit
  candidates state unit l unsaved := e.candidates state.1 unit l unsaved

variable {e : Engine σ} {s s' : σ × List EngineCall} {answer : Except EngineError CompilationUnit}

theorem calls_of_parse {r : ParseRequest} (h : Yields (e.traced.parse r) s answer s') :
    s'.2 = s.2 ++ [.parse r] := by
  have hrun : EngineM.runFrom (e.traced.parse r) s =
      ((EngineM.runFrom (e.parse r) s.1).1, (EngineM.runFrom (e.parse r) s.1).2, s.2 ++ [.parse r]) :=
    rfl
  exact (congrArg (fun outcome => outcome.2.2) (hrun.symm.trans h)).symm

theorem calls_of_engine_reparse {unit : CompilationUnit} {unsaved : List FileBuffer}
    (h : Yields (e.traced.reparse unit unsaved) s answer s') :
    s'.2 = s.2 ++ [.reparse unit unsaved] := by
  have hrun : EngineM.runFrom (e.traced.reparse unit unsaved) s =
      ((EngineM.runFrom (e.reparse unit unsaved) s.1).1,
        (EngineM.runFrom (e.reparse unit unsaved) s.1).2, s.2 ++ [.reparse unit unsaved]) := rfl
  exact (congrArg (fun outcome => outcome.2.2) (hrun.symm.trans h)).symm

/-! ## Computations without a reparse -/

/-- All calls that a run of `x` leads to are parses. -/
def OnlyParses (x : EngineM (σ × List EngineCall) α) : Prop :=
  ∀ ⦃s a s'⦄, Yields x s a s' → ∃ rs : List ParseRequest, s'.2 = s.2 ++ rs.map .parse

theorem onlyParses_pure (a : α) : OnlyParses (pure a : EngineM (σ × List EngineCall) α) := by
  intro s b s' h
  obtain ⟨-, rfl⟩ := yields_pure.1 h
  exact ⟨[], by simp⟩

theorem onlyParses_bind {x : EngineM (σ × List EngineCall) α}
    {f : α → EngineM (σ × List EngineCall) β} (hx : OnlyParses x) (hf : ∀ a, OnlyParses (f a)) :
    OnlyParses (x >>= f) := by
  intro s b s' h
  obtain ⟨a, t, hfirst, hrest⟩ := yields_bind.1 h
  obtain ⟨rs, hrs⟩ := hx hfirst
  obtain ⟨rs', hrs'⟩ := hf a hrest
  exact ⟨rs ++ rs', by rw [hrs', hrs, List.map_append, List.append_assoc]⟩

theorem onlyParses_parse (e : Engine σ) (r : ParseRequest) : OnlyParses (e.traced.parse r) :=
  fun _ _ _ h => ⟨[r], calls_of_parse h⟩

end SketchSense
