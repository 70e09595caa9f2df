import SketchSense.Proofs.Cache.Reparsing
import SketchSense.Proofs.FilePath.Kinds

/-!
# How a build recovers

A build makes one attempt after the other until the engine takes one. The unit keeps the arguments of
the attempt that made it and the number of those before. Where a sketch entry is tried without its
core include, no other argument is missing.

* `withoutPair_append`, that the pair which was added can be taken out again;
* `ModelState.afterParses`, the state after several parses;
* `FirstTaken`, the attempt that a build ends with, and `runFrom_tryAttempts_of_fail`, the attempts
  before it;
* `UnitBuilder.attempts` and `yieldsWith_build_iff`, the builds of any file.
-/

namespace SketchSense

open Model

/-! ## Arguments without the core include -/

section Arguments

variable {header : String} {base flags args : List String}

theorem withoutPair_eq_self (h : ¬ includePair header <:+: args) :
    withoutPair header args = args := by
  fun_induction withoutPair header args with
  | case1 => rfl
  | case2 a => rfl
  | case3 a b rest hpair ih =>
    obtain ⟨rfl, rfl⟩ := hpair
    exact absurd ⟨[], rest, rfl⟩ h
  | case4 a b rest hpair ih => rw [ih fun hinfix => h (List.infix_cons hinfix)]

/-- A pair behind arguments without one is taken out, whatever follows it. -/
theorem withoutPair_append (hname : header ≠ "-include") (hbase : ¬ includePair header <:+: base) :
    withoutPair header (base ++ includePair header ++ flags) = base ++ withoutPair header flags := by
  induction base with
  | nil => simp [includePair, withoutPair]
  | cons a base ih =>
    have ih := ih fun hinfix => hbase (List.infix_cons hinfix)
    cases base with
    | nil =>
      show withoutPair header (a :: "-include" :: header :: flags) = _
      rw [withoutPair, if_neg fun hpair => hname hpair.2.symm]
      exact congrArg (a :: ·) ih
    | cons b base =>
      have hpair : ¬ (a = "-include" ∧ b = header) := by
        rintro ⟨rfl, rfl⟩
        exact hbase ⟨[], base, rfl⟩
      show withoutPair header (a :: b :: (base ++ includePair header ++ flags)) = _
      rw [withoutPair, if_neg hpair]
      exact congrArg (a :: ·) ih

/-- A sketch entry includes the core, and is not compiled as a header. -/
theorem compileArguments_of_isAnalyzedEntry {analyzed : FilePath} {profile : ArgumentProfile}
    (hentry : analyzed.isAnalyzedEntry = true) (hcore : profile.coreInclude ≠ "") :
    compileArguments base analyzed profile =
      base ++ includePair profile.coreInclude ++ profile.warningFlags := by
  have hkind := FilePath.kind_of_isAnalyzedEntry hentry
  simp [compileArguments, hkind, hentry, hcore]

end Arguments

namespace UnitBuilder

variable {σ : Type} {b : UnitBuilder σ} {key : FilePath}

/-- What is tried for a file. -/
def attempts (b : UnitBuilder σ) (key : FilePath) : List Attempt :=
  recoveryLadder (b.arguments key) key.analyzedName b.profile.coreInclude

/-- What is tried for a sketch entry whose other arguments do not include the core. -/
theorem attempts_of_isAnalyzedEntry (hentry : key.analyzedName.isAnalyzedEntry = true)
    (hcore : b.profile.coreInclude ≠ "") (hname : b.profile.coreInclude ≠ "-include")
    (hbase : ¬ includePair b.profile.coreInclude <:+: b.provider key)
    (hflags : ¬ includePair b.profile.coreInclude <:+: b.profile.warningFlags) :
    b.attempts key =
      [⟨"full", b.provider key ++ includePair b.profile.coreInclude ++ b.profile.warningFlags,
          .editing⟩,
        ⟨"no-preamble-limit",
          b.provider key ++ includePair b.profile.coreInclude ++ b.profile.warningFlags,
          ParseOptions.editing.withoutPreambleLimit⟩,
        ⟨"no-core-include", b.provider key ++ b.profile.warningFlags,
          ParseOptions.editing.withoutPreambleLimit⟩,
        ⟨"no-core-include (full options)", b.provider key ++ b.profile.warningFlags, .editing⟩,
        ⟨"no-args", [], ParseOptions.editing.withoutPreambleLimit⟩] := by
  unfold attempts recoveryLadder arguments
  rw [compileArguments_of_isAnalyzedEntry hentry hcore]
  dsimp only
  rw [if_pos hentry, withoutPair_append hname hbase, withoutPair_eq_self hflags]
  rfl

/-- A sketch entry has five attempts, any other file three. -/
theorem length_attempts :
    (b.attempts key).length = if key.analyzedName.isAnalyzedEntry then 5 else 3 :=
  length_recoveryLadder _ _ _

end UnitBuilder

/-! ## Several parses -/

namespace Model

variable {s : ModelState} {r : ParseRequest} {rs : List ParseRequest}

/-- The state after several parses. -/
def ModelState.afterParses (s : ModelState) (rs : List ParseRequest) : ModelState :=
  { s with
    parses := s.parses + rs.length
    recorded := s.recorded ++
      rs.map fun r => ⟨r.mainFile, r.args, r.options, r.unsaved.map (·.path), s.failsOn r⟩ }

theorem ModelState.afterParses_nil (s : ModelState) : s.afterParses [] = s := by
  simp [afterParses]

theorem ModelState.afterParses_cons :
    s.afterParses (r :: rs) = (s.afterParse r).afterParses rs := by
  simp only [afterParses, afterParse, List.length_cons, List.map_cons, List.append_assoc,
    List.singleton_append, Nat.add_assoc, Nat.add_comm 1]

theorem ModelState.afterParses_concat :
    s.afterParses (rs ++ [r]) = (s.afterParses rs).afterParse r := by
  simp only [afterParses, afterParse, List.length_append, List.length_singleton, List.map_append,
    List.map_singleton, List.append_assoc, Nat.add_assoc]

end Model

/-! ## One attempt after the other -/

section Attempts

variable {s : ModelState} {request : Attempt → ParseRequest} {attempts : List Attempt}

/-- What a failed attempt leaves to be told. -/
def refusal (request : Attempt → ParseRequest) (a : Attempt) : String :=
  a.label ++ ": " ++ (EngineError.parseFailed (request a).mainFile failureReason).message

/-- The engine takes attempt `i` and none before it. -/
structure FirstTaken (s : ModelState) (request : Attempt → ParseRequest) (attempts : List Attempt)
    (i : Nat) (a : Attempt) : Prop where
  get : attempts[i]? = some a
  refused : ∀ f ∈ attempts.take i, s.failsOn (request f) = true
  taken : s.failsOn (request a) = false

/-- Parses do not change which attempt that is. -/
theorem FirstTaken.of_sameScript {s' : ModelState} {i : Nat} {a : Attempt}
    (h : FirstTaken s request attempts i a) (hsame : s.SameScript s') :
    FirstTaken s' request attempts i a where
  get := h.get
  refused := by rw [hsame.failsOn_eq]; exact h.refused
  taken := by rw [hsame.failsOn_eq]; exact h.taken

/-- Either the engine takes an attempt, or it takes none. -/
theorem exists_firstTaken (s : ModelState) (request : Attempt → ParseRequest)
    (attempts : List Attempt) :
    (∃ i a, FirstTaken s request attempts i a) ∨ ∀ f ∈ attempts, s.failsOn (request f) = true := by
  cases hfirst : attempts.findIdx? fun a => !s.failsOn (request a) with
  | none =>
    rw [List.findIdx?_eq_none_iff] at hfirst
    exact .inr fun f hf => by simpa using hfirst f hf
  | some i =>
    obtain ⟨hi, htaken, hrefused⟩ := List.findIdx?_eq_some_iff_getElem.1 hfirst
    refine .inl ⟨i, attempts[i], List.getElem?_eq_getElem hi, fun f hf => ?_, by simpa using htaken⟩
    obtain ⟨j, hj, rfl⟩ := List.mem_take_iff_getElem.1 hf
    simpa using hrefused j (by omega)

/-- Attempts that fail are made one after the other, and the rest is tried from there. -/
theorem runFrom_tryAttempts_of_fail (failed rest : List Attempt)
    (hfails : ∀ f ∈ failed, s.failsOn (request f) = true) (failures : Nat) (reason : String) :
    EngineM.runFrom (tryAttempts modelEngine request failures reason (failed ++ rest)) s =
      EngineM.runFrom
        (tryAttempts modelEngine request (failures + failed.length)
          (failed.getLast?.elim reason (refusal request)) rest)
        (s.afterParses (failed.map request)) := by
  induction failed generalizing s failures reason with
  | nil => rw [List.map_nil, ModelState.afterParses_nil]; rfl
  | cons f failed ih =>
    have hf : s.failsOn (request f) = true := hfails f List.mem_cons_self
    have hrest : ∀ g ∈ failed, (s.afterParse (request f)).failsOn (request g) = true :=
      fun g hg => hfails g (List.mem_cons_of_mem _ hg)
    have hreason : failed.getLast?.elim (refusal request f) (refusal request) =
        (f :: failed).getLast?.elim reason (refusal request) := by
      rw [List.getLast?_cons]
      cases failed.getLast? <;> rfl
    rw [List.cons_append, tryAttempts, runFrom_bind, runFrom_parse_of_fails hf]
    dsimp only
    rw [List.map_cons, ModelState.afterParses_cons, List.length_cons, ← hreason,
      Nat.add_comm failed.length, ← Nat.add_assoc]
    exact ih hrest _ _

/-- Where the engine takes an attempt the rest is not tried. -/
theorem runFrom_tryAttempts_of_firstTaken {i : Nat} {a : Attempt}
    (h : FirstTaken s request attempts i a) (hmain : (request a).mainCode?.isSome)
    (reason : String) :
    EngineM.runFrom (tryAttempts modelEngine request 0 reason attempts) s =
      ((buildUnit (request a).mainFile (request a).unsaved).map fun u => .ok ⟨u, a, i⟩,
        s.afterParses ((attempts.take (i + 1)).map request)) := by
  obtain ⟨hi, hget⟩ := List.getElem?_eq_some_iff.1 h.get
  have hsplit : attempts.take i ++ a :: attempts.drop (i + 1) = attempts := by
    rw [← hget, ← List.drop_eq_getElem_cons hi, List.take_append_drop]
  have hlength : (attempts.take i).length = i := by
    rw [List.length_take]
    omega
  have htried : attempts.take (i + 1) = attempts.take i ++ [a] := by
    rw [← List.take_append_getElem hi, hget]
  have hrun := runFrom_tryAttempts_of_fail _ (a :: attempts.drop (i + 1)) h.refused 0 reason
  have htaken : (s.afterParses ((attempts.take i).map request)).failsOn (request a) = false := h.taken
  rw [hsplit, Nat.zero_add, hlength, runFrom_tryAttempts request a htaken hmain] at hrun
  rw [hrun, htried, List.map_append, List.map_singleton, ModelState.afterParses_concat]

end Attempts

/-! ## Builds -/

section Builds

variable {b : UnitBuilder ModelState} {key : FilePath} {code : String} {extra : List FileBuffer}
  {s s₁ : ModelState} {made : Sources} {t : Transformer}

/-- What becomes of a build once the sources are made. -/
theorem runFrom_build_of_sources (hengine : b.engine = modelEngine)
    (hmade : Yields (b.transformer.sources modelEngine key code (b.provider key)) s (made, t) s₁) :
    EngineM.runFrom ((build key code extra).run b) s =
      match EngineM.runFrom (tryAttempts modelEngine (made.request (made.unsaved ++ extra)) 0 ""
          (b.attempts key)) s₁ with
      | (.ok (.ok r), s') =>
        (.ok (.ok ⟨key, .ofText code, made.map, r.unit, made.unsaved ++ extra, r.attempt.args,
          r.failures⟩, { b with transformer := t }), s')
      | (.ok (.error reason), s') =>
        (.ok (.error ⟨key, (b.attempts key).length, reason⟩, { b with transformer := t }), s')
      | (.error f, s') => (.error f, s') := by
  obtain ⟨hmain, -⟩ := Transformer.path_of_sources hmade
  rw [← hengine] at hmade
  have hsources := (yieldsWith_buildSources_iff (b := b)).2 ⟨t, hmade, rfl⟩
  unfold build
  rw [runFrom_run_bind_of_yields _ hsources,
    runFrom_run_bind_of_yields _ (yieldsWith_get.2 ⟨rfl, rfl, rfl⟩), runFrom_run_liftM_bind, hmain,
    hengine]
  have hattempts : recoveryLadder (compileArguments (b.provider key) key.analyzedName b.profile)
      key.analyzedName b.profile.coreInclude = b.attempts key := rfl
  dsimp only
  rw [hattempts]
  cases EngineM.runFrom (tryAttempts modelEngine (made.request (made.unsaved ++ extra)) 0 ""
      (b.attempts key)) s₁ with
  | mk tried s' =>
    cases tried with
    | error f => rfl
    | ok tried => cases tried <;> rfl

/-- A build ends with the first attempt that the engine takes. -/
theorem runFrom_build_of_firstTaken (hengine : b.engine = modelEngine)
    (hmade : Yields (b.transformer.sources modelEngine key code (b.provider key)) s (made, t) s₁)
    {i : Nat} {a : Attempt}
    (h : FirstTaken s (made.request (made.unsaved ++ extra)) (b.attempts key) i a) :
    EngineM.runFrom ((build key code extra).run b) s =
      ((buildUnit key.analyzedName (made.unsaved ++ extra)).map fun unit =>
          (.ok ⟨key, .ofText code, made.map, unit, made.unsaved ++ extra, a.args, i⟩,
            { b with transformer := t }),
        s₁.afterParses
          (((b.attempts key).take (i + 1)).map (made.request (made.unsaved ++ extra)))) := by
  have htaken := h.of_sameScript (Transformer.sameScript_of_sources hmade)
  rw [runFrom_build_of_sources hengine hmade,
    runFrom_tryAttempts_of_firstTaken htaken (made.mainCode?_request extra a),
    ← (Transformer.path_of_sources hmade).1]
  dsimp only [Sources.request]
  cases buildUnit made.main.path (made.unsaved ++ extra) with
  | error f => rfl
  | ok unit => rfl

/-- A build of which all attempts fail tells how many there were, and why the last one failed. -/
theorem yieldsWith_build_of_fail (hengine : b.engine = modelEngine)
    (hmade : Yields (b.transformer.sources modelEngine key code (b.provider key)) s (made, t) s₁)
    (hfails : ∀ f ∈ b.attempts key, s.failsOn (made.request (made.unsaved ++ extra) f) = true) :
    ∃ last, (b.attempts key).getLast? = some last ∧
      YieldsWith (build key code extra) b s
        (.error ⟨key, (b.attempts key).length,
          refusal (made.request (made.unsaved ++ extra)) last⟩)
        { b with transformer := t }
        (s₁.afterParses ((b.attempts key).map (made.request (made.unsaved ++ extra)))) := by
  have hlast : (b.attempts key).getLast? =
      some ⟨"no-args", [], ParseOptions.editing.withoutPreambleLimit⟩ := List.getLast?_concat
  rw [← (Transformer.sameScript_of_sources hmade).failsOn_eq] at hfails
  have hrun := runFrom_tryAttempts_of_fail (b.attempts key) [] hfails 0 ""
  rw [List.append_nil, hlast] at hrun
  refine ⟨_, hlast, ?_⟩
  unfold YieldsWith Yields
  rw [runFrom_build_of_sources hengine hmade, hrun]
  rfl

/-- A build makes the sources of the file, which may take a scan, and then makes its attempts in
order up to the first that the engine takes. Whether a file is tried without its core include is asked
of its analysed name, so a source that is itself named `X.ino.cpp` counts as a sketch entry and has
five attempts too. -/
theorem yieldsWith_build_iff (hengine : b.engine = modelEngine) (key : FilePath) (code : String)
    (extra : List FileBuffer) :
    (∀ s answer b' s', YieldsWith (build key code extra) b s answer b' s' ↔
      ∃ made t s₁,
        Yields (b.transformer.sources modelEngine key code (b.provider key)) s (made, t) s₁ ∧
        (s₁ = s ∨ key.kind = .sketchEntry ∧
          s₁ = s.afterParse (scanRequest key code (b.provider key))) ∧
        b' = { b with transformer := t } ∧
        ((∃ i a unit, FirstTaken s (made.request (made.unsaved ++ extra)) (b.attempts key) i a ∧
            buildUnit key.analyzedName (made.unsaved ++ extra) = .ok unit ∧
            answer = .ok
              ⟨key, .ofText code, made.map, unit, made.unsaved ++ extra, a.args, i⟩ ∧
            s' = s₁.afterParses
              (((b.attempts key).take (i + 1)).map (made.request (made.unsaved ++ extra)))) ∨
          ((∀ f ∈ b.attempts key, s.failsOn (made.request (made.unsaved ++ extra) f) = true) ∧
            (∃ last, (b.attempts key).getLast? = some last ∧
              answer = .error ⟨key, (b.attempts key).length,
                refusal (made.request (made.unsaved ++ extra)) last⟩) ∧
            s' = s₁.afterParses
              ((b.attempts key).map (made.request (made.unsaved ++ extra)))))) ∧
    ((b.attempts key).length = if key.analyzedName.isAnalyzedEntry then 5 else 3) ∧
    (∀ path, b.key path = key → key.kind = .sketchEntry →
      key.analyzedName.isAnalyzedEntry = true) ∧
    (key.analyzedName.isAnalyzedEntry = true →
      b.profile.coreInclude ≠ "" → b.profile.coreInclude ≠ "-include" →
      ¬ includePair b.profile.coreInclude <:+: b.provider key →
      ¬ includePair b.profile.coreInclude <:+: b.profile.warningFlags →
      b.attempts key =
        [⟨"full", b.provider key ++ includePair b.profile.coreInclude ++ b.profile.warningFlags,
            .editing⟩,
          ⟨"no-preamble-limit",
            b.provider key ++ includePair b.profile.coreInclude ++ b.profile.warningFlags,
            ParseOptions.editing.withoutPreambleLimit⟩,
          ⟨"no-core-include", b.provider key ++ b.profile.warningFlags,
            ParseOptions.editing.withoutPreambleLimit⟩,
          ⟨"no-core-include (full options)", b.provider key ++ b.profile.warningFlags, .editing⟩,
          ⟨"no-args", [], ParseOptions.editing.withoutPreambleLimit⟩]) := by
  refine ⟨fun s answer b' s' => ?_, UnitBuilder.length_attempts, ?_,
    UnitBuilder.attempts_of_isAnalyzedEntry⟩
  · constructor
    · intro h
      have hbuild := h
      unfold build at hbuild
      obtain ⟨made, b₁, s₁, hsources, -⟩ := yieldsWith_bind.1 hbuild
      obtain ⟨t, hmade, -⟩ := yieldsWith_buildSources_iff.1 hsources
      rw [hengine] at hmade
      refine ⟨made, t, s₁, hmade, Transformer.state_of_sources hmade, ?_⟩
      rcases exists_firstTaken s (made.request (made.unsaved ++ extra)) (b.attempts key) with
        ⟨i, a, htaken⟩ | hfails
      · have hrun := h.symm.trans (runFrom_build_of_firstTaken hengine hmade htaken)
        cases hunit : buildUnit key.analyzedName (made.unsaved ++ extra) with
        | error f =>
          rw [hunit] at hrun
          cases hrun
        | ok unit =>
          rw [hunit] at hrun
          cases hrun
          exact ⟨rfl, .inl ⟨i, a, unit, htaken, rfl, rfl, rfl⟩⟩
      · obtain ⟨last, hlast, hrun⟩ := yieldsWith_build_of_fail hengine hmade hfails
        cases h.symm.trans hrun
        exact ⟨rfl, .inr ⟨hfails, ⟨last, hlast, rfl⟩, rfl⟩⟩
    · rintro ⟨made, t, s₁, hmade, -, rfl, hend⟩
      rcases hend with ⟨i, a, unit, htaken, hunit, rfl, rfl⟩ | ⟨hfails, ⟨last, hlast, rfl⟩, rfl⟩
      · have hrun := runFrom_build_of_firstTaken hengine hmade htaken
        rw [hunit] at hrun
        exact hrun
      · obtain ⟨last', hlast', hrun⟩ := yieldsWith_build_of_fail hengine hmade hfails
        obtain rfl : last = last' := Option.some.inj (hlast.symm.trans hlast')
        exact hrun
  · rintro path rfl hkind
    exact FilePath.isAnalyzedEntry_analyzedName hkind (FilePath.isNormal_normalize path b.root)

/-- A sketch whose core cannot be included is scanned once and built without it at the third
attempt. -/
theorem build_without_core_include :
    ∃ (b b' : UnitBuilder ModelState) (s s' : ModelState) (c : CachedUnit),
      b.engine = modelEngine ∧ b.provider ⟨"/s/Blink.ino"⟩ = ["-DX"] ∧
      (∀ r, s.failsOn r = r.args.contains "-include") ∧
      YieldsWith (build ⟨"/s/Blink.ino"⟩ "int x;\n" []) b s (.ok c) b' s' ∧
      c.recovery = 2 ∧ c.args = ["-DX"] ∧ s'.parses = s.parses + 4 := by
  obtain ⟨hbuild, -, -, hattempts⟩ := yieldsWith_build_iff
    (b := ⟨modelEngine, fun _ => ["-DX"], {}, ⟨"/s"⟩, {}⟩) rfl ⟨"/s/Blink.ino"⟩ "int x;\n" []
  have hattempts := hattempts (by decide +kernel) (by decide) (by decide) (by decide) (by decide)
  have hkind : (FilePath.mk "/s/Blink.ino").kind = .sketchEntry := by decide
  have hscan := yields_definitions? (s := { failsOn := fun r => r.args.contains "-include" })
    ⟨"/s/Blink.ino"⟩ "int x;\n" ["-DX"] (by decide +kernel) (by decide)
  obtain ⟨t, hmade⟩ := Transformer.yields_sources_ofScan hkind hscan
  obtain ⟨u, hu⟩ := exists_of_isOk
    (x := buildUnit ⟨"/s/Blink.ino.cpp"⟩ [⟨⟨"/s/Blink.ino.cpp"⟩, "int x;\n"⟩]) (by decide +kernel)
  -- there is no function, so the text only changes its name
  have hnone : definedIn? "int x;\n" = some [] := by cbv
  have hrenamed : Sources.ofScan ⟨"/s/Blink.ino"⟩ "int x;\n" [] =
      .renamed ⟨"/s/Blink.ino"⟩ "int x;\n" := rfl
  rw [hnone, Option.getD_some, hrenamed] at hmade
  refine ⟨_, _, _, _, _, rfl, rfl, fun _ => rfl, (hbuild _ _ _ _).2 ⟨_, t, _, hmade, .inr ⟨hkind, rfl⟩,
    rfl, .inl ⟨2, _, u, ⟨by rw [hattempts]; rfl, ?_, ?_⟩, hu, rfl, rfl⟩⟩, rfl, rfl, ?_⟩
  · rw [hattempts]
    decide +kernel
  · decide +kernel
  · rw [hattempts]
    rfl

end Builds

end SketchSense
