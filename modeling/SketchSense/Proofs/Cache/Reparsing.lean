import SketchSense.Proofs.Cache.Building
import SketchSense.Proofs.Model.Scan
import SketchSense.Proofs.Sketch.Coordinates

/-!
# A reparse is a build

A unit that is parsed again is put together by other steps than a new one, and parts of it stay. With
the model engine nothing of the old text is left in it: apart from the arguments and the number of
failed attempts it is the unit that a build of the new text makes, and the builder remembers the
same. A text on which one of the two ends in a fault ends the other in the same fault.

* `ModelState.SameScript`, that the engine was only used, and `CachedUnit.Modelled`, a unit that was
  made by the model engine in any number of steps;
* `runFrom_parse` and `runFrom_reparse`, the outcomes of single calls, and
  `Transformer.state_of_sources`, the calls for the sources of a file;
* `CachedUnit.Modelled.reparse_eq_build`, the agreement.
-/

namespace SketchSense

namespace Model

/-! ## Single calls -/

variable {s s' s'' : ModelState} {r : ParseRequest}

/-- A state after some calls: what the engine was told has not changed. -/
def ModelState.SameScript (s s' : ModelState) : Prop :=
  s' = { s with parses := s'.parses, reparses := s'.reparses, recorded := s'.recorded }

namespace ModelState.SameScript

theorem refl (s : ModelState) : s.SameScript s := rfl

theorem trans (h : s.SameScript s') (h' : s'.SameScript s'') : s.SameScript s'' := by
  unfold ModelState.SameScript at h h' ⊢
  rw [h', h]

theorem failsOn_eq (h : s.SameScript s') : s'.failsOn = s.failsOn := by rw [h]

theorem reparseFails_eq (h : s.SameScript s') : s'.reparseFails = s.reparseFails := by rw [h]

theorem extraDiagnostics_eq (h : s.SameScript s') : s'.extraDiagnostics = s.extraDiagnostics := by
  rw [h]

theorem diagnostics_eq (h : s.SameScript s') (u : CompilationUnit) :
    modelEngine.diagnostics s' u = modelEngine.diagnostics s u := by
  show u.diagnostics ++ s'.extraDiagnostics = u.diagnostics ++ s.extraDiagnostics
  rw [h.extraDiagnostics_eq]

end ModelState.SameScript

theorem ModelState.sameScript_afterParse (s : ModelState) (r : ParseRequest) :
    s.SameScript (s.afterParse r) := rfl

/-- The state after a reparse. -/
def ModelState.afterReparse (s : ModelState) : ModelState := { s with reparses := s.reparses + 1 }

theorem ModelState.sameScript_afterReparse (s : ModelState) : s.SameScript s.afterReparse := rfl

/-- A parse builds the unit, unless it was told to fail. -/
theorem runFrom_parse (hfails : s.failsOn r = false) (hmain : r.mainCode?.isSome) :
    EngineM.runFrom (modelEngine.parse r) s =
      ((buildUnit r.mainFile r.unsaved).map .ok, s.afterParse r) := by
  have hnone : ¬ r.mainCode?.isNone = true := by
    obtain ⟨code, hcode⟩ := Option.isSome_iff_exists.1 hmain
    simp [hcode]
  show EngineM.runFrom (parse r) s = _
  unfold parse
  rw [runFrom_bind]
  show EngineM.runFrom (set _ >>= fun _ => _) s = _
  rw [runFrom_bind]
  show EngineM.runFrom (if s.failsOn r = true then _ else _) (s.afterParse r) = _
  rw [if_neg (by simp [hfails]), if_neg hnone, runFrom_bind]
  cases hbuild : buildUnit r.mainFile r.unsaved with
  | error f => rfl
  | ok u => rfl

/-- A reparse builds the unit of the same main file, unless reparses fail. -/
theorem runFrom_reparse (hfails : s.reparseFails = false) (u : CompilationUnit)
    (unsaved : List FileBuffer) :
    EngineM.runFrom (modelEngine.reparse u unsaved) s =
      ((buildUnit u.mainFile unsaved).map .ok, s.afterReparse) := by
  show EngineM.runFrom (reparse u unsaved) s = _
  unfold reparse
  rw [runFrom_bind]
  show EngineM.runFrom (set _ >>= fun _ => _) s = _
  rw [runFrom_bind]
  show EngineM.runFrom (if s.reparseFails = true then _ else _) s.afterReparse = _
  rw [if_neg (by simp [hfails]), runFrom_bind]
  cases hbuild : buildUnit u.mainFile unsaved with
  | error f => rfl
  | ok v => rfl

/-- A reparse that succeeds reads the texts for the same main file. -/
theorem buildUnit_of_reparse {u v : CompilationUnit} {unsaved : List FileBuffer}
    (h : Yields (modelEngine.reparse u unsaved) s (.ok v) s') :
    buildUnit u.mainFile unsaved = .ok v := by
  have hrun : Yields (reparse u unsaved) s (.ok v) s' := h
  unfold reparse at hrun
  simp only [yields_bind, yields_get, yields_set] at hrun
  obtain ⟨_, _, -, _, t, -, hrun⟩ := hrun
  split at hrun
  · obtain ⟨hanswer, -⟩ := yields_pure.1 hrun
    cases hanswer
  · obtain ⟨w, _, hmk, hpure⟩ := yields_bind.1 hrun
    obtain ⟨hbuild, -⟩ := yields_mk.1 hmk
    obtain ⟨hanswer, -⟩ := yields_pure.1 hpure
    cases hanswer
    exact hbuild

/-- A unit that is built is one of its main file. -/
theorem mainFile_of_buildUnit {main : FilePath} {unsaved : List FileBuffer} {u : CompilationUnit}
    (h : buildUnit main unsaved = .ok u) : u.mainFile = main := by
  obtain ⟨files, -, rfl⟩ := buildUnit_eq_ok.1 h
  rfl

/-- A reparse that succeeds builds a unit of the same main file. -/
theorem mainFile_of_reparse {u v : CompilationUnit} {unsaved : List FileBuffer}
    (h : Yields (modelEngine.reparse u unsaved) s (.ok v) s') : v.mainFile = u.mainFile :=
  mainFile_of_buildUnit (buildUnit_of_reparse h)

/-- A unit of the model engine is one of the file it was first parsed for. -/
theorem mainFile_of_parsedAs {main : FilePath} {unsaved : List FileBuffer} {u : CompilationUnit}
    (h : ParsedAs modelEngine main unsaved u) : u.mainFile = main := by
  induction h with
  | parse hmain h =>
    obtain ⟨-, -, -, hbuild⟩ := yields_parse.1 h
    exact (mainFile_of_buildUnit hbuild).trans hmain
  | reparse _ h ih => exact (mainFile_of_reparse h).trans ih

/-- A parse that was told to fail says so. -/
theorem runFrom_parse_of_fails (hfails : s.failsOn r = true) :
    EngineM.runFrom (modelEngine.parse r) s =
      (.ok (.error (.parseFailed r.mainFile failureReason)), s.afterParse r) := by
  show EngineM.runFrom (parse r) s = _
  unfold parse
  rw [runFrom_bind]
  show EngineM.runFrom (set _ >>= fun _ => _) s = _
  rw [runFrom_bind]
  show EngineM.runFrom (if s.failsOn r = true then _ else _) (s.afterParse r) = _
  rw [if_pos hfails]
  rfl

/-- A parse is counted and recorded, whatever its answer. -/
theorem state_of_parse {answer : Except EngineError CompilationUnit}
    (h : Yields (modelEngine.parse r) s answer s') : s' = s.afterParse r := by
  have hrun : Yields (parse r) s answer s' := h
  unfold parse at hrun
  simp only [yields_bind, yields_get, yields_set] at hrun
  obtain ⟨_, _, ⟨hget, -⟩, _, t, ht, hrun⟩ := hrun
  have hafter : t = s.afterParse r := by
    rw [ht, hget]
    rfl
  split at hrun
  · exact (yields_pure.1 hrun).2.trans hafter
  split at hrun
  · exact (yields_pure.1 hrun).2.trans hafter
  · obtain ⟨_, _, hmk, hpure⟩ := yields_bind.1 hrun
    obtain ⟨-, rfl⟩ := yields_mk.1 hmk
    exact (yields_pure.1 hpure).2.trans hafter

/-- A scan is one parse, whatever it finds. -/
theorem state_of_definitions? {path : FilePath} {code : String} {args : List String}
    {found : Option (List Definition)}
    (h : Yields (definitions? modelEngine path code args) s found s') :
    s' = s.afterParse (scanRequest path code args) := by
  unfold definitions? at h
  obtain ⟨answer, t, hparse, h⟩ := yields_bind.1 h
  have hafter := state_of_parse hparse
  cases answer with
  | ok u => exact (yields_pure.1 h).2.trans hafter
  | error e => exact (yields_pure.1 h).2.trans hafter

end Model

open Model

variable {path : FilePath} {code : String} {args : List String} {s s' s₁ : ModelState}

/-- The sources of a sketch take at most one scan, those of any other file none. -/
theorem Transformer.state_of_sources {t t' : Transformer} {made : Sources}
    (h : Yields (t.sources modelEngine path code args) s (made, t') s') :
    s' = s ∨ path.kind = .sketchEntry ∧ s' = s.afterParse (scanRequest path code args) := by
  have withHeader {u : Transformer} {header : String} {scan : EngineM ModelState (List Definition)}
      {r : ModelState} (h : Yields (u.withHeader path code header scan) r (made, t') s') :
      s' = r ∨ ∃ ds, Yields scan r ds s' := by
    rcases yields_withHeader.1 h with ⟨-, -, -, rfl⟩ | ⟨-, _, _, hplaced, -, -⟩
    · exact .inl rfl
    · rcases InsertionMemo.yields_replayOrInject.1 hplaced with ⟨-, -, rfl⟩ | ⟨-, ds, hds, -⟩
      · exact .inl rfl
      · exact .inr ⟨ds, hds⟩
  by_cases hkind : path.kind = .sketchEntry
  · rcases (yields_sources hkind).1 h with ⟨header, -, h⟩ | ⟨-, found, s₁, hfound, h⟩
    · rcases withHeader h with rfl | ⟨ds, hds⟩
      · exact .inl rfl
      · obtain ⟨found, s₁, hfound, hpure⟩ := yields_bind.1 hds
        obtain ⟨-, rfl⟩ := yields_pure.1 hpure
        exact .inr ⟨hkind, state_of_definitions? hfound⟩
    · refine .inr ⟨hkind, ?_⟩
      rcases withHeader h with rfl | ⟨ds, hds⟩
      · exact state_of_definitions? hfound
      · exact (yields_pure.1 hds).2.trans (state_of_definitions? hfound)
  · exact .inl ((yields_sources_plain hkind).1 h).2

/-- Sources that are made of a text leave the script of the engine as it is. -/
theorem Transformer.sameScript_of_sources {t t' : Transformer} {made : Sources}
    (h : Yields (t.sources modelEngine path code args) s (made, t') s') : s.SameScript s' := by
  rcases state_of_sources h with rfl | ⟨-, rfl⟩
  · exact .refl _
  · exact s.sameScript_afterParse _

/-- A file that is no sketch is handed over as it is. -/
theorem yieldsWith_buildSources_plain {σ : Type} {b : UnitBuilder σ} {s : σ} (code : String)
    (hkind : path.kind ≠ .sketchEntry) :
    YieldsWith (buildSources path code) b s (.plain path code) b s :=
  yieldsWith_buildSources_iff.2
    ⟨b.transformer, (Transformer.yields_sources_plain hkind).2 ⟨rfl, rfl⟩, rfl⟩

/-- The first attempt is the only one where no parse is told to fail. -/
theorem runFrom_tryAttempts (request : Attempt → ParseRequest) (a : Attempt)
    (hfails : s.failsOn (request a) = false) (hmain : (request a).mainCode?.isSome)
    (failures : Nat) (reason : String) (rest : List Attempt) :
    EngineM.runFrom (tryAttempts modelEngine request failures reason (a :: rest)) s =
      ((buildUnit (request a).mainFile (request a).unsaved).map fun u => .ok ⟨u, a, failures⟩,
        s.afterParse (request a)) := by
  rw [tryAttempts, runFrom_bind, runFrom_parse hfails hmain]
  cases buildUnit (request a).mainFile (request a).unsaved with
  | error f => rfl
  | ok u => rfl

theorem Sources.mainCode?_request (sources : Sources) (extra : List FileBuffer) (a : Attempt) :
    (sources.request (sources.unsaved ++ extra) a).mainCode?.isSome := by
  have hmem : sources.main ∈ sources.unsaved ++ extra := by simp [Sources.unsaved]
  have hfound : ((sources.unsaved ++ extra).find? fun b => b.path == sources.main.path).isSome := by
    rw [List.find?_isSome]
    exact ⟨_, hmem, by simp⟩
  unfold ParseRequest.mainCode? Sources.request
  rw [Option.isSome_map]
  exact hfound

variable {b b₁ : UnitBuilder ModelState} {sources : Sources} (extra : List FileBuffer)

/-- What becomes of a build once the sources are made. -/
theorem runFrom_build {key : FilePath}
    (hsources : YieldsWith (buildSources key code) b s sources b₁ s₁)
    (hengine : b₁.engine = modelEngine) (hfails : ∀ r, s₁.failsOn r = false) :
    EngineM.runFrom ((build key code extra).run b) s =
      ((buildUnit sources.main.path (sources.unsaved ++ extra)).map fun u =>
          (.ok ⟨key, .ofText code, sources.map, u, sources.unsaved ++ extra,
            compileArguments (b₁.provider key) sources.main.path b₁.profile, 0⟩, b₁),
        s₁.afterParse (sources.request (sources.unsaved ++ extra)
          ⟨"full", compileArguments (b₁.provider key) sources.main.path b₁.profile, .editing⟩)) := by
  unfold build
  rw [runFrom_run_bind_of_yields _ hsources,
    runFrom_run_bind_of_yields _ (yieldsWith_get.2 ⟨rfl, rfl, rfl⟩), runFrom_run_liftM_bind, hengine]
  -- the ladder starts with all arguments
  have hladder := runFrom_tryAttempts (sources.request (sources.unsaved ++ extra))
    ⟨"full", compileArguments (b₁.provider key) sources.main.path b₁.profile, .editing⟩
    (hfails _) (sources.mainCode?_request extra _) 0 ""
  rw [recoveryLadder, List.append_assoc, List.cons_append, hladder]
  dsimp only [Sources.request]
  cases buildUnit sources.main.path (sources.unsaved ++ extra) with
  | error f => rfl
  | ok u => rfl

/-- What becomes of a reparse once the sources are made. -/
theorem runFrom_reparse_of_sources {c : CachedUnit}
    (hsources : YieldsWith (buildSources c.key code) b s sources b₁ s₁)
    (hengine : b₁.engine = modelEngine) (hfails : s₁.reparseFails = false)
    (hname : sources.main.path = c.map.analyzed) :
    EngineM.runFrom ((reparse c code extra).run b) s =
      ((buildUnit c.unit.mainFile (sources.unsaved ++ extra)).map fun u =>
          (.ok { c with
            contentHash := .ofText code, map := sources.map, unit := u
            unsaved := sources.unsaved ++ extra }, b₁),
        s₁.afterReparse) := by
  unfold reparse
  rw [runFrom_run_bind_of_yields _ hsources, if_neg (by simp [hname]),
    runFrom_run_bind_of_yields _ (yieldsWith_get.2 ⟨rfl, rfl, rfl⟩), runFrom_run_liftM_bind, hengine,
    runFrom_reparse hfails]
  cases buildUnit c.unit.mainFile (sources.unsaved ++ extra) with
  | error f => rfl
  | ok u => rfl

/-! ## Units of the model engine -/

/-- A unit that the model engine has made: it was built, and then parsed again any number of times,
by any builders and in any states of the engine. -/
inductive CachedUnit.Modelled : CachedUnit → Prop
  | built {b b' : UnitBuilder ModelState} {s s' : ModelState} {key : FilePath} {code : String}
      {extra : List FileBuffer} {c : CachedUnit} (hengine : b.engine = modelEngine)
      (h : YieldsWith (build key code extra) b s (.ok c) b' s') : Modelled c
  | reparsed {b b' : UnitBuilder ModelState} {s s' : ModelState} {code : String}
      {extra : List FileBuffer} {c d : CachedUnit} (hc : Modelled c)
      (hengine : b.engine = modelEngine)
      (h : YieldsWith (reparse c code extra) b s (.ok d) b' s') : Modelled d

namespace CachedUnit.Modelled

variable {c : CachedUnit}

/-- It is the unit of the file's analysed name. -/
theorem analyzed_eq (hc : c.Modelled) :
    c.map.analyzed = c.key.analyzedName ∧ c.unit.mainFile = c.key.analyzedName := by
  induction hc with
  | built hengine h =>
    obtain ⟨-, hstems⟩ := stemsFrom_build h
    obtain ⟨-, -, sources, ⟨_, _, _, _, hmade⟩, hmap, -, hparsed⟩ := hstems _ rfl
    obtain ⟨hmain, hanalyzed⟩ := Transformer.path_of_sources hmade
    rw [hengine] at hparsed
    rw [hmap, mainFile_of_parsedAs hparsed]
    exact ⟨hanalyzed, hmain⟩
  | reparsed _ hengine h ih =>
    obtain ⟨sources, _, _, hsources, unit, hunit, rfl⟩ := exists_of_reparse h
    obtain ⟨⟨_, _, _, _, hmade⟩, hsame⟩ := yieldsWith_buildSources hsources
    rw [hsame.engine_eq, hengine] at hunit
    exact ⟨(Transformer.path_of_sources hmade).2, (mainFile_of_reparse hunit).trans ih.2⟩

/-- Whatever its unit was made of before, a reparse ends as a build of the text does: in the same
fault, or with the same unit and the same memory of the builder. Only the arguments and the number
of failed attempts are those of the unit. -/
theorem reparse_eq_build (hc : c.Modelled) {b : UnitBuilder ModelState}
    (hengine : b.engine = modelEngine) {s : ModelState} (hparse : ∀ r, s.failsOn r = false)
    (hreparse : s.reparseFails = false) (code : String) (extra : List FileBuffer) :
    ∃ (outcome : Except Fault (CachedUnit × UnitBuilder ModelState)) (s₁ s₂ : ModelState),
      EngineM.runFrom ((build c.key code extra).run b) s =
        (outcome.map fun (u, b') => (.ok u, b'), s₁) ∧
      EngineM.runFrom ((reparse c code extra).run b) s =
        (outcome.map fun (u, b') =>
          (.ok { u with args := c.args, recovery := c.recovery }, b'), s₂) ∧
      ∀ u, b.engine.diagnostics s₂ u = b.engine.diagnostics s₁ u := by
  obtain ⟨hanalyzed, hmainFile⟩ := hc.analyzed_eq
  cases hsources : EngineM.runFrom ((buildSources c.key code).run b) s with
  | mk answer s₁ =>
    cases answer with
    | error f =>
      -- the text of a sketch could not be scanned
      refine ⟨.error f, s₁, s₁, ?_, ?_, fun _ => rfl⟩
      · unfold build
        rw [runFrom_run_bind, hsources]
        rfl
      · unfold reparse
        rw [runFrom_run_bind, hsources]
        rfl
    | ok p =>
      obtain ⟨sources, b₁⟩ := p
      have hrun : YieldsWith (buildSources c.key code) b s sources b₁ s₁ := hsources
      obtain ⟨t, hmade, rfl⟩ := yieldsWith_buildSources_iff.1 hrun
      obtain ⟨hmain, -⟩ := Transformer.path_of_sources hmade
      rw [hengine] at hmade
      have hscript := Transformer.sameScript_of_sources hmade
      refine ⟨(buildUnit c.key.analyzedName (sources.unsaved ++ extra)).map fun u =>
          (⟨c.key, .ofText code, sources.map, u, sources.unsaved ++ extra,
            compileArguments (b.provider c.key) sources.main.path b.profile, 0⟩,
            { b with transformer := t }),
        s₁.afterParse (sources.request (sources.unsaved ++ extra)
          ⟨"full", compileArguments (b.provider c.key) sources.main.path b.profile, .editing⟩),
        s₁.afterReparse, ?_, ?_, ?_⟩
      · have hfails : ∀ r, s₁.failsOn r = false := fun r => by rw [hscript.failsOn_eq, hparse]
        rw [runFrom_build extra hrun hengine hfails, hmain]
        cases buildUnit c.key.analyzedName (sources.unsaved ++ extra) with
        | error f => rfl
        | ok u => rfl
      · have hfails : s₁.reparseFails = false := by rw [hscript.reparseFails_eq, hreparse]
        rw [runFrom_reparse_of_sources extra hrun hengine hfails (hmain.trans hanalyzed.symm), hmainFile]
        cases buildUnit c.key.analyzedName (sources.unsaved ++ extra) with
        | error f => rfl
        | ok u => rfl
      · intro u
        rw [hengine]
        rfl

/-- A sketch that the engine can read is built. -/
theorem exists_build (key : FilePath) (code : String) (ds : List Definition)
    (hkind : key.kind = .sketchEntry) (hreads : (FileModel.ofBuffer ⟨key, code⟩).isOk)
    (hfound : definedIn? code = some ds)
    (hbuild : (buildUnit key.analyzedName (Sources.ofScan key code ds).unsaved).isOk) :
    ∃ c b' s', YieldsWith (build key code []) ⟨modelEngine, fun _ => [], {}, ⟨"/s"⟩, {}⟩ {}
      (.ok c) b' s' ∧ c.key = key ∧ c.contentHash = .ofText code := by
  have hscan := yields_definitions? (s := {}) key code [] hreads rfl
  rw [hfound] at hscan
  obtain ⟨t, hmade⟩ := Transformer.yields_sources_ofScan hkind hscan
  obtain ⟨hmain, -⟩ := Transformer.path_of_sources hmade
  obtain ⟨u, hu⟩ := exists_of_isOk hbuild
  have hsources := (yieldsWith_buildSources_iff
    (b := ⟨modelEngine, fun _ => [], {}, ⟨"/s"⟩, {}⟩)).2 ⟨t, hmade, rfl⟩
  have hrun := runFrom_build [] hsources rfl fun _ => rfl
  rw [List.append_nil, hmain, Option.getD_some, hu] at hrun
  exact ⟨_, _, _, hrun, rfl, rfl⟩

/-- A sketch is parsed again after an edit. -/
theorem reparse_eq_build_after_edit :
    ∃ (c built : CachedUnit) (b b' : UnitBuilder ModelState) (s₁ s₂ : ModelState), c.Modelled ∧
      c.contentHash = .ofText "void f() \x7b\x7d\n" ∧
      YieldsWith (build c.key "\nvoid f() \x7b\x7d\n" []) b {} (.ok built) b' s₁ ∧
      YieldsWith (reparse c "\nvoid f() \x7b\x7d\n" []) b {}
        (.ok { built with args := c.args, recovery := c.recovery }) b' s₂ := by
  have hkind : (FilePath.mk "/s/Blink.ino").kind = .sketchEntry := by decide
  obtain ⟨c, b₀, s₀, hold, hkey, hhash⟩ := exists_build ⟨"/s/Blink.ino"⟩ "void f() \x7b\x7d\n"
    [⟨"f", 1, "void f()"⟩] hkind (by decide +kernel) (by cbv) (by decide +kernel)
  obtain ⟨built, b', s₁, hnew, -, -⟩ := exists_build ⟨"/s/Blink.ino"⟩ "\nvoid f() \x7b\x7d\n"
    [⟨"f", 2, "void f()"⟩] hkind (by decide +kernel) (by cbv) (by decide +kernel)
  have hc := Modelled.built rfl hold
  obtain ⟨outcome, s₁', s₂, hbuild, hreparse, -⟩ := hc.reparse_eq_build
    (b := ⟨modelEngine, fun _ => [], {}, ⟨"/s"⟩, {}⟩) (s := {}) rfl (fun _ => rfl) rfl
    "\nvoid f() \x7b\x7d\n" []
  rw [hkey] at hbuild
  have hanswer := hnew.symm.trans hbuild
  cases outcome with
  | error f => cases hanswer
  | ok p =>
    cases hanswer
    rw [← hkey] at hbuild
    exact ⟨c, p.1, _, p.2, _, s₂, hc, hhash, hbuild, hreparse⟩

end CachedUnit.Modelled

end SketchSense
