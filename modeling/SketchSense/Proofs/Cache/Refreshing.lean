import SketchSense.Cache.Project
import SketchSense.Proofs.Cache.Reparsing
import SketchSense.Proofs.Table

/-!
# Bringing one file of a project up to date

A pass brings one file after the other up to date. Whatever the engine does, such a step changes the
unit of its file alone. With a model engine that was told neither to fail nor to report more than it
finds, the unit of a file that is no sketch is made of the text and the open headers, by a build as
by a reparse, and no engine is asked where the unit was made of the same.

* `Framed`, what a step leaves as it is, and `refreshFile_cases`, the steps of any file;
* `ModelState.Quiet` and `ProjectUnit.Stands`, a unit that was made of a text and open headers;
* `ProjectCache.runFrom_refreshFile`, the outcome for a file that is no sketch.
-/

namespace SketchSense

open Model

/-! ## What a step leaves as it is -/

/-- Nothing changed but what the builder remembers and what the engine counted. -/
structure Framed (b b' : UnitBuilder ModelState) (s s' : ModelState) : Prop where
  setup : b.SameSetup b'
  script : s.SameScript s'

section Frames

variable {b b' b'' : UnitBuilder ModelState} {s s' s'' : ModelState}

theorem Framed.refl (b : UnitBuilder ModelState) (s : ModelState) : Framed b b s s :=
  ⟨.refl b, .refl s⟩

theorem Framed.trans (h : Framed b b' s s') (h' : Framed b' b'' s' s'') : Framed b b'' s s'' :=
  ⟨h.setup.trans h'.setup, h.script.trans h'.script⟩

theorem sameScript_of_tryAttempts {request : Attempt → ParseRequest} {failures : Nat}
    {reason : String} {attempts : List Attempt} {answer : Except String Recovered}
    (h : Yields (tryAttempts modelEngine request failures reason attempts) s answer s') :
    s.SameScript s' := by
  induction attempts generalizing failures reason s with
  | nil =>
    rw [tryAttempts, yields_pure] at h
    obtain ⟨-, rfl⟩ := h
    exact .refl _
  | cons a rest ih =>
    rw [tryAttempts, yields_bind] at h
    obtain ⟨answer, t, hparse, hrest⟩ := h
    obtain rfl := state_of_parse hparse
    cases answer with
    | ok unit =>
      obtain ⟨-, rfl⟩ := yields_pure.1 hrest
      exact s.sameScript_afterParse _
    | error err => exact (s.sameScript_afterParse _).trans (ih hrest)

theorem framed_of_buildSources {path : FilePath} {code : String} {sources : Sources}
    (hengine : b.engine = modelEngine)
    (h : YieldsWith (buildSources path code) b s sources b' s') : Framed b b' s s' := by
  obtain ⟨t, hmade, rfl⟩ := yieldsWith_buildSources_iff.1 h
  rw [hengine] at hmade
  exact ⟨rfl, Transformer.sameScript_of_sources hmade⟩

theorem framed_of_build {key : FilePath} {code : String} {extra : List FileBuffer}
    {answer : Except CacheError CachedUnit} (hengine : b.engine = modelEngine)
    (h : YieldsWith (build key code extra) b s answer b' s') : Framed b b' s s' := by
  unfold build at h
  simp only [yieldsWith_bind, yieldsWith_get, yieldsWith_liftM] at h
  obtain ⟨sources, b₁, s₁, hsources, _, _, _, ⟨rfl, rfl, rfl⟩, tried, _, s₂, ⟨htried, rfl⟩,
    hend⟩ := h
  have hmade := framed_of_buildSources hengine hsources
  rw [hmade.setup.engine_eq, hengine] at htried
  have hscript := hmade.script.trans (sameScript_of_tryAttempts htried)
  cases tried with
  | error reason =>
    obtain ⟨-, rfl, rfl⟩ := yieldsWith_pure.1 hend
    exact ⟨hmade.setup, hscript⟩
  | ok r =>
    obtain ⟨-, rfl, rfl⟩ := yieldsWith_pure.1 hend
    exact ⟨hmade.setup, hscript⟩

/-- A reparse leaves the script as it is, whatever its answer. -/
theorem sameScript_of_engine_reparse {u : CompilationUnit} {unsaved : List FileBuffer}
    {answer : Except EngineError CompilationUnit}
    (h : Yields (modelEngine.reparse u unsaved) s answer s') : s.SameScript s' := by
  have hrun : Yields (Model.reparse u unsaved) s answer s' := h
  unfold Model.reparse at hrun
  simp only [yields_bind, yields_get, yields_set] at hrun
  obtain ⟨_, _, ⟨hget, -⟩, _, t, ht, hrun⟩ := hrun
  have hsame : s.SameScript t := by
    rw [ht, hget]
    rfl
  split at hrun
  · obtain ⟨-, rfl⟩ := yields_pure.1 hrun
    exact hsame
  · obtain ⟨_, _, hmk, hpure⟩ := yields_bind.1 hrun
    obtain ⟨-, rfl⟩ := yields_mk.1 hmk
    obtain ⟨-, rfl⟩ := yields_pure.1 hpure
    exact hsame

theorem framed_of_reparse {c : CachedUnit} {code : String} {extra : List FileBuffer}
    {answer : Except EngineError CachedUnit} (hengine : b.engine = modelEngine)
    (h : YieldsWith (reparse c code extra) b s answer b' s') : Framed b b' s s' := by
  unfold reparse at h
  rw [yieldsWith_bind] at h
  obtain ⟨sources, b₁, s₁, hsources, hrest⟩ := h
  have hmade := framed_of_buildSources hengine hsources
  split at hrest
  · obtain ⟨-, rfl, rfl⟩ := yieldsWith_pure.1 hrest
    exact hmade
  · simp only [yieldsWith_bind, yieldsWith_get, yieldsWith_liftM] at hrest
    obtain ⟨_, _, _, ⟨rfl, rfl, rfl⟩, parsed, _, s₂, ⟨hparsed, rfl⟩, hend⟩ := hrest
    rw [hmade.setup.engine_eq, hengine] at hparsed
    have hscript := hmade.script.trans (sameScript_of_engine_reparse hparsed)
    cases parsed with
    | error e =>
      obtain ⟨-, rfl, rfl⟩ := yieldsWith_pure.1 hend
      exact ⟨hmade.setup, hscript⟩
    | ok unit =>
      obtain ⟨-, rfl, rfl⟩ := yieldsWith_pure.1 hend
      exact ⟨hmade.setup, hscript⟩

end Frames

/-! ## The step of any file -/

/-- What the unit of a file is made from while these headers are open. -/
def UnitBuilder.projectInput {σ : Type} (b : UnitBuilder σ) (key : FilePath) (code : String)
    (headers : List FileBuffer) : ProjectInput :=
  ⟨.ofText code, argumentsHash (b.arguments key), key.analyzedName, headersSignature headers⟩

namespace ProjectCache

variable {b b' : UnitBuilder ModelState} {s s' : ModelState} {c c' : ProjectCache} {key : FilePath}
  {code : String} {headers : List FileBuffer} {input : ProjectInput}

/-- What is entered stands under its key with its input, and no other unit changes. -/
theorem runFrom_enter {σ : Type} (c : ProjectCache) (key : FilePath) (input : ProjectInput)
    (unit : Option CachedUnit) (action : UnitAction) (b : UnitBuilder σ) (s : σ) :
    EngineM.runFrom ((c.enter key input unit action).run b) s =
      (.ok (⟨c.units.insert key ⟨unit, input,
          unit.elim [.parseFailureIn key] fun u => u.diagnostics b.engine s b.root⟩,
        (if unit.isNone then c.stats.recordFailure else c.stats).record action⟩, b), s) := by
  cases unit <;> rfl

theorem exists_of_enter {unit : Option CachedUnit} {action : UnitAction}
    (h : YieldsWith (c.enter key input unit action) b s c' b' s') :
    Framed b b' s s' ∧ ∃ e : ProjectUnit, c'.units = c.units.insert key e := by
  unfold YieldsWith Yields at h
  rw [runFrom_enter] at h
  cases h
  exact ⟨.refl _ _, _, rfl⟩

theorem exists_of_rebuild (hengine : b.engine = modelEngine)
    (h : YieldsWith (c.rebuild key code headers input) b s c' b' s') :
    Framed b b' s s' ∧ ∃ e : ProjectUnit, c'.units = c.units.insert key e := by
  unfold rebuild at h
  obtain ⟨built, b₁, s₁, hbuild, hend⟩ := yieldsWith_bind.1 h
  have hframe := framed_of_build hengine hbuild
  cases built with
  | ok unit =>
    obtain ⟨henter, hunits⟩ := exists_of_enter hend
    exact ⟨hframe.trans henter, hunits⟩
  | error err =>
    obtain ⟨henter, hunits⟩ := exists_of_enter hend
    exact ⟨hframe.trans henter, hunits⟩

theorem exists_of_update {old : ProjectUnit} (hengine : b.engine = modelEngine)
    (h : YieldsWith (c.update key code headers input old) b s c' b' s') :
    Framed b b' s s' ∧ ∃ e : ProjectUnit, c'.units = c.units.insert key e := by
  unfold update at h
  split at h
  · obtain ⟨parsed, b₁, s₁, hparsed, hend⟩ := yieldsWith_bind.1 h
    have hframe := framed_of_reparse hengine hparsed
    cases parsed with
    | ok unit =>
      obtain ⟨henter, hunits⟩ := exists_of_enter hend
      exact ⟨hframe.trans henter, hunits⟩
    | error err =>
      obtain ⟨hrebuild, hunits⟩ := exists_of_rebuild (hframe.setup.engine_eq.trans hengine) hend
      exact ⟨hframe.trans hrebuild, hunits⟩
  · exact exists_of_rebuild hengine h

/-- A step is taken with what the unit of the file is to be made from. -/
theorem run_refreshFile {σ : Type} (c : ProjectCache) (key : FilePath) (code : String)
    (headers : List FileBuffer) (b : UnitBuilder σ) :
    (c.refreshFile key code headers).run b =
      match c.units.get? key with
      | none => (c.rebuild key code headers (b.projectInput key code headers)).run b
      | some old =>
        if old.input.isStale (b.projectInput key code headers) ||
            old.input.needsRebuild (b.projectInput key code headers) then
          (c.update key code headers (b.projectInput key code headers) old).run b
        else pure ({ c with stats := c.stats.record .reused }, b) := by
  unfold refreshFile
  rw [StateT.run_bind]
  show (match c.units.get? key with | none => _ | some old => _ : BuildM _ _).run b = _
  cases c.units.get? key with
  | none => rfl
  | some old =>
    show StateT.run (if old.input.isStale (b.projectInput key code headers) ||
      old.input.needsRebuild (b.projectInput key code headers) then _ else _) b = _
    dsimp only
    split <;> rfl

/-- A step changes no unit but that of its file. -/
theorem framed_of_refreshFile (hengine : b.engine = modelEngine)
    (h : YieldsWith (c.refreshFile key code headers) b s c' b' s') :
    Framed b b' s s' ∧
      (c'.units = c.units ∨ ∃ e : ProjectUnit, c'.units = c.units.insert key e) := by
  unfold YieldsWith at h
  rw [run_refreshFile] at h
  split at h
  · obtain ⟨hframe, hunits⟩ := exists_of_rebuild hengine h
    exact ⟨hframe, .inr hunits⟩
  · split at h
    · obtain ⟨hframe, hunits⟩ := exists_of_update hengine h
      exact ⟨hframe, .inr hunits⟩
    · obtain ⟨hend, rfl⟩ := yields_pure.1 h
      cases hend
      exact ⟨.refl _ _, .inl rfl⟩

end ProjectCache

/-! ## The step of a file that is no sketch -/

/-- No call is told to fail, and the engine reports what it finds. -/
structure Model.ModelState.Quiet (s : ModelState) : Prop where
  parses : ∀ r, s.failsOn r = false
  reparses : s.reparseFails = false
  silent : s.extraDiagnostics = []

theorem Model.ModelState.Quiet.of_sameScript {s s' : ModelState} (hs : s.Quiet)
    (h : s.SameScript s') : s'.Quiet where
  parses r := by rw [h.failsOn_eq, hs.parses]
  reparses := by rw [h.reparseFails_eq, hs.reparses]
  silent := by rw [h.extraDiagnostics_eq, hs.silent]

/-- The unit was made of a text and the open headers, and has the diagnostics of that unit. -/
def ProjectUnit.Stands (e : ProjectUnit) (root key : FilePath) (code : String)
    (headers : List FileBuffer) : Prop :=
  ∃ cached : CachedUnit, e.unit = some cached ∧ cached.key = key ∧ cached.map = .identity key ∧
    buildUnit key (⟨key, code⟩ :: headers) = .ok cached.unit ∧
    e.diagnostics = Scope.collect ⟨root, .identity key⟩ cached.unit.diagnostics

/-- What a new unit was made from is what the old one was made from, unless a text, a header or the
arguments changed. -/
theorem ProjectInput.eq_of_current {old new : ProjectInput} (hname : old.analyzed = new.analyzed)
    (h : (old.isStale new || old.needsRebuild new) = false) : old = new := by
  obtain ⟨content, arguments, analyzed, signature⟩ := old
  obtain ⟨content', arguments', analyzed', signature'⟩ := new
  simp only [isStale, needsRebuild, Bool.or_eq_false_iff, bne_eq_false_iff_eq] at h hname
  obtain ⟨⟨rfl, rfl⟩, rfl, -⟩ := h
  rw [hname]

theorem ProjectInput.current_self (input : ProjectInput) :
    (input.isStale input || input.needsRebuild input) = false := by
  simp [isStale, needsRebuild]

namespace ProjectCache

variable {b b' : UnitBuilder ModelState} {s s' : ModelState} {c c' : ProjectCache} {key : FilePath}
  {code : String} {headers : List FileBuffer} {input : ProjectInput}

/-- The computation makes the unit of the texts and enters it under its key, or ends in the fault
that the texts cause. -/
def Makes (x : BuildM ModelState ProjectCache) (c : ProjectCache) (b : UnitBuilder ModelState)
    (s : ModelState) (key : FilePath) (code : String) (headers : List FileBuffer)
    (input : ProjectInput) : Prop :=
  ∃ (entry : CompilationUnit → ProjectUnit) (stats : CacheStats) (s' : ModelState),
    s.SameScript s' ∧
    EngineM.runFrom (x.run b) s =
      ((buildUnit key (⟨key, code⟩ :: headers)).map fun u =>
        (⟨c.units.insert key (entry u), stats⟩, b), s') ∧
    ∀ u, buildUnit key (⟨key, code⟩ :: headers) = .ok u →
      (entry u).Stands b.root key code headers ∧ (entry u).input = input

/-- The diagnostics of a unit are collected as for a file that is presented as it is. -/
theorem diagnostics_of_identity (hengine : b.engine = modelEngine) (hs : s.Quiet) {u : CachedUnit}
    (hmap : u.map = .identity key) :
    u.diagnostics b.engine s b.root = Scope.collect ⟨b.root, .identity key⟩ u.unit.diagnostics := by
  have hall : modelEngine.diagnostics s u.unit = u.unit.diagnostics := by
    show u.unit.diagnostics ++ s.extraDiagnostics = u.unit.diagnostics
    rw [hs.silent, List.append_nil]
  unfold CachedUnit.diagnostics
  rw [hengine, hall, hmap]

/-- A unit that was made of the texts is entered. -/
theorem makes_bind {ε : Type} {y : BuildM ModelState (Except ε CachedUnit)}
    {f : Except ε CachedUnit → BuildM ModelState ProjectCache} {action : UnitAction}
    {made : CompilationUnit → CachedUnit} (hengine : b.engine = modelEngine) (hs : s.Quiet)
    (hscript : s.SameScript s')
    (hrun : EngineM.runFrom (y.run b) s =
      ((buildUnit key (⟨key, code⟩ :: headers)).map fun u => (.ok (made u), b), s'))
    (hmade : ∀ u, (made u).key = key ∧ (made u).map = .identity key ∧ (made u).unit = u)
    (hf : ∀ u, f (.ok u) = c.enter key input (some u) action) :
    Makes (y >>= f) c b s key code headers input := by
  refine ⟨fun u => ⟨some (made u), input, Scope.collect ⟨b.root, .identity key⟩ u.diagnostics⟩,
    c.stats.record action, s', hscript, ?_, fun u hu => ?_⟩
  · rw [runFrom_run_bind, hrun]
    cases buildUnit key (⟨key, code⟩ :: headers) with
    | error fault => rfl
    | ok u =>
      obtain ⟨-, hmap, hunit⟩ := hmade u
      show EngineM.runFrom ((f (.ok (made u))).run b) s' = _
      rw [hf, runFrom_enter, Option.elim_some,
        diagnostics_of_identity hengine (hs.of_sameScript hscript) hmap, hunit]
      rfl
  · obtain ⟨hkey, hmap, hunit⟩ := hmade u
    exact ⟨⟨made u, rfl, hkey, hmap, hunit.symm ▸ hu, by rw [hunit]⟩, rfl⟩

theorem makes_rebuild (hengine : b.engine = modelEngine) (hs : s.Quiet)
    (hkind : key.kind ≠ .sketchEntry) :
    Makes (c.rebuild key code headers input) c b s key code headers input := by
  have hsources := yieldsWith_buildSources_plain (b := b) (s := s) code hkind
  have hrun := runFrom_build headers hsources hengine hs.parses
  exact makes_bind hengine hs (s.sameScript_afterParse _) hrun (fun u => ⟨rfl, rfl, rfl⟩)
    fun u => rfl

theorem makes_update {old : ProjectUnit} {code₀ : String} {headers₀ : List FileBuffer}
    (hengine : b.engine = modelEngine) (hs : s.Quiet) (hkind : key.kind ≠ .sketchEntry)
    (hold : old.Stands b.root key code₀ headers₀) :
    Makes (c.update key code headers input old) c b s key code headers input := by
  obtain ⟨cached, hunit, hkey, hmap, hbuilt, -⟩ := hold
  unfold update
  rw [hunit]
  split
  · next unit heq hrebuild =>
    -- the old unit has the name that the file is analysed under, so it can be parsed again
    obtain rfl := Option.some.inj heq
    subst hkey
    have hsources := yieldsWith_buildSources_plain (b := b) (s := s) code hkind
    have hname : (Sources.plain cached.key code).main.path = cached.map.analyzed := by
      rw [hmap]
      rfl
    have hrun := runFrom_reparse_of_sources headers hsources hengine hs.reparses hname
    rw [mainFile_of_buildUnit hbuilt] at hrun
    exact makes_bind hengine hs s.sameScript_afterReparse hrun (fun u => ⟨rfl, rfl, rfl⟩)
      fun u => rfl
  · exact makes_rebuild hengine hs hkind

/-- No engine is asked where the unit was made of the same. -/
theorem yieldsWith_refreshFile_of_current (s : ModelState) {e : ProjectUnit}
    (he : c.units.get? key = some e) (hinput : e.input = b.projectInput key code headers) :
    YieldsWith (c.refreshFile key code headers) b s
      { c with stats := c.stats.record .reused } b s := by
  unfold YieldsWith
  rw [run_refreshFile, he]
  dsimp only
  rw [hinput, ProjectInput.current_self, if_neg Bool.false_ne_true]
  exact yields_pure.2 ⟨rfl, rfl⟩

/-- A file that is no sketch keeps the unit that was made of the same, or a unit of its text and the
open headers is made. -/
theorem runFrom_refreshFile (hengine : b.engine = modelEngine) (hs : s.Quiet)
    (hkind : key.kind ≠ .sketchEntry)
    (hold : ∀ e, c.units.get? key = some e → e.input.analyzed = key.analyzedName ∧
      ∃ code₀ headers₀, e.Stands b.root key code₀ headers₀) :
    (∃ e, c.units.get? key = some e ∧ e.input = b.projectInput key code headers ∧
        YieldsWith (c.refreshFile key code headers) b s
          { c with stats := c.stats.record .reused } b s) ∨
      Makes (c.refreshFile key code headers) c b s key code headers
        (b.projectInput key code headers) := by
  have hrun := run_refreshFile c key code headers b
  cases hget : c.units.get? key with
  | none =>
    rw [hget] at hrun
    unfold Makes
    rw [hrun]
    exact .inr (makes_rebuild hengine hs hkind)
  | some old =>
    rw [hget] at hrun
    obtain ⟨hname, code₀, headers₀, hstands⟩ := hold old hget
    cases hcurrent : old.input.isStale (b.projectInput key code headers) ||
        old.input.needsRebuild (b.projectInput key code headers) with
    | false =>
      have hinput := ProjectInput.eq_of_current hname hcurrent
      exact .inl ⟨old, rfl, hinput, yieldsWith_refreshFile_of_current s hget hinput⟩
    | true =>
      dsimp only at hrun
      rw [hcurrent, if_pos rfl] at hrun
      unfold Makes
      rw [hrun]
      exact .inr (makes_update hengine hs hkind hstands)

end ProjectCache

end SketchSense
