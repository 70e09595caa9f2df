import SketchSense.Cache.Builder
import SketchSense.Proofs.Sketch.Making

/-!
# What a build and a reparse yield

Both ways to a unit make the sources of the file first and then ask the engine once with success.
The unit keeps the map and the texts of those sources, so everything in it belongs to one text.

* `SourcesOf` and `ParsedAs`, that sources were made of a text and a unit was made of texts;
* `StemsFrom`, that all of a cached unit stems from one successful parse of a text;
* `stemsFrom_build` and `stemsFrom_reparse`, with what the builder keeps.
-/

namespace SketchSense

variable {σ : Type}

/-- The sources that some call of the builder made of the file's text. -/
def SourcesOf (b : UnitBuilder σ) (key : FilePath) (code : String) (sources : Sources) : Prop :=
  ∃ (t : Transformer) (s : σ) (t' : Transformer) (s' : σ),
    Yields (t.sources b.engine key code (b.provider key)) s (sources, t') s'

/-- The unit of a main file after a successful parse and any number of successful reparses. The
last of them was given these texts. -/
inductive ParsedAs (e : Engine σ) (main : FilePath) : List FileBuffer → CompilationUnit → Prop
  | parse {r : ParseRequest} {s s' : σ} {unit : CompilationUnit} (hmain : r.mainFile = main)
      (h : Yields (e.parse r) s (.ok unit) s') : ParsedAs e main r.unsaved unit
  | reparse {earlier unsaved : List FileBuffer} {old unit : CompilationUnit} {s s' : σ}
      (hold : ParsedAs e main earlier old) (h : Yields (e.reparse old unsaved) s (.ok unit) s') :
      ParsedAs e main unsaved unit

/-- Hash, map, texts and unit all stem from the same successful parse of `code`, with `extra` texts
given along. -/
def StemsFrom (b : UnitBuilder σ) (extra : List FileBuffer) (u : CachedUnit) (code : String) :
    Prop :=
  u.contentHash = .ofText code ∧
    ∃ sources, SourcesOf b u.key code sources ∧ u.map = sources.map ∧
      u.unsaved = sources.unsaved ++ extra ∧ ParsedAs b.engine sources.main.path u.unsaved u.unit

/-- A builder after some builds: only what is remembered between them has changed. -/
def UnitBuilder.SameSetup (b b' : UnitBuilder σ) : Prop :=
  b' = { b with transformer := b'.transformer }

namespace UnitBuilder.SameSetup

variable {b b' b'' : UnitBuilder σ}

theorem engine_eq (h : b.SameSetup b') : b'.engine = b.engine := by rw [h]

theorem root_eq (h : b.SameSetup b') : b'.root = b.root := by rw [h]

theorem provider_eq (h : b.SameSetup b') : b'.provider = b.provider := by rw [h]

theorem profile_eq (h : b.SameSetup b') : b'.profile = b.profile := by rw [h]

theorem key_eq (h : b.SameSetup b') (path : FilePath) : b'.key path = b.key path := by
  unfold UnitBuilder.key
  rw [h.root_eq]

theorem refl (b : UnitBuilder σ) : b.SameSetup b := rfl

theorem symm (h : b.SameSetup b') : b'.SameSetup b := by
  unfold UnitBuilder.SameSetup at h ⊢
  rw [h]

theorem trans (h : b.SameSetup b') (h' : b'.SameSetup b'') : b.SameSetup b'' := by
  unfold UnitBuilder.SameSetup at h h' ⊢
  rw [h', h]

end UnitBuilder.SameSetup

/-- What stems from a text does so for every builder of the same setup. -/
theorem StemsFrom.of_sameSetup {b b' : UnitBuilder σ} {extra : List FileBuffer} {u : CachedUnit}
    {code : String} (h : StemsFrom b extra u code) (hsame : b.SameSetup b') :
    StemsFrom b' extra u code := by
  unfold StemsFrom SourcesOf at h ⊢
  rw [hsame.engine_eq, hsame.provider_eq]
  exact h

/-! ## One step after the other -/

/-- Making sources changes what the builder remembers, and nothing else. -/
theorem yieldsWith_buildSources_iff {path : FilePath} {code : String} {b b' : UnitBuilder σ} {s s' : σ}
    {sources : Sources} :
    YieldsWith (buildSources path code) b s sources b' s' ↔
      ∃ t, Yields (b.transformer.sources b.engine path code (b.provider path)) s (sources, t) s' ∧
        b' = { b with transformer := t } := by
  unfold buildSources
  simp only [yieldsWith_bind, yieldsWith_get, yieldsWith_liftM, yieldsWith_set, yieldsWith_pure]
  constructor
  · rintro ⟨_, _, _, ⟨rfl, rfl, rfl⟩, ⟨made, t⟩, _, s₁, ⟨hmade, rfl⟩, _, _, _, ⟨rfl, rfl⟩, rfl, rfl,
      rfl⟩
    exact ⟨t, hmade, rfl⟩
  · rintro ⟨t, hmade, rfl⟩
    exact ⟨b, b, s, ⟨rfl, rfl, rfl⟩, (sources, t), b, s', ⟨hmade, rfl⟩, ⟨⟩, _, s', ⟨rfl, rfl⟩, rfl,
      rfl, rfl⟩

/-- Sources are made by the transformer that the builder remembers, and nothing else changes. -/
theorem yieldsWith_buildSources {path : FilePath} {code : String} {b b' : UnitBuilder σ} {s s' : σ}
    {sources : Sources} (h : YieldsWith (buildSources path code) b s sources b' s') :
    SourcesOf b path code sources ∧ b.SameSetup b' := by
  obtain ⟨t', hmade, rfl⟩ := yieldsWith_buildSources_iff.1 h
  exact ⟨⟨_, _, _, _, hmade⟩, rfl⟩

/-- An attempt that succeeds is one parse of the texts that every attempt is made on. -/
theorem exists_parse_of_tryAttempts {e : Engine σ} {request : Attempt → ParseRequest}
    {failures : Nat} {reason : String} {attempts : List Attempt} {s s' : σ} {r : Recovered}
    (h : Yields (tryAttempts e request failures reason attempts) s (.ok r) s') :
    ∃ t t', Yields (e.parse (request r.attempt)) t (.ok r.unit) t' := by
  induction attempts generalizing failures reason s with
  | nil => simp [tryAttempts] at h
  | cons a rest ih =>
    rw [tryAttempts, yields_bind] at h
    obtain ⟨answer, t, hparse, hrest⟩ := h
    cases answer with
    | ok unit =>
      simp only [yields_pure, Except.ok.injEq] at hrest
      obtain ⟨rfl, rfl⟩ := hrest
      exact ⟨s, s', hparse⟩
    | error err => exact ih hrest

/-- A new unit has the key it was asked for and stems from the text it was asked for. -/
theorem stemsFrom_build {key : FilePath} {code : String} {extra : List FileBuffer}
    {b b' : UnitBuilder σ} {s s' : σ} {answer : Except CacheError CachedUnit}
    (h : YieldsWith (build key code extra) b s answer b' s') :
    b.SameSetup b' ∧ ∀ u, answer = .ok u → u.key = key ∧ StemsFrom b extra u code := by
  unfold build at h
  simp only [yieldsWith_bind, yieldsWith_get, yieldsWith_liftM] at h
  obtain ⟨sources, b₁, s₁, hsources, _, _, _, ⟨rfl, rfl, rfl⟩, tried, _, s₂, ⟨htried, rfl⟩, hend⟩ := h
  obtain ⟨hmade, hsame⟩ := yieldsWith_buildSources hsources
  rw [hsame.engine_eq] at htried
  cases tried with
  | error reason =>
    simp only [yieldsWith_pure] at hend
    obtain ⟨rfl, rfl, -⟩ := hend
    exact ⟨hsame, by simp⟩
  | ok r =>
    simp only [yieldsWith_pure] at hend
    obtain ⟨rfl, rfl, -⟩ := hend
    obtain ⟨t, t', hparse⟩ := exists_parse_of_tryAttempts htried
    refine ⟨hsame, ?_⟩
    rintro u ⟨⟩
    exact ⟨rfl, rfl, sources, hmade, rfl, rfl, .parse rfl hparse⟩

/-- A unit that was parsed again keeps its key and stems from the new text. -/
theorem stemsFrom_reparse {c : CachedUnit} {earlier code : String} {extra extra' : List FileBuffer}
    {b b' : UnitBuilder σ} {s s' : σ} {answer : Except EngineError CachedUnit}
    (hc : StemsFrom b extra' c earlier)
    (h : YieldsWith (reparse c code extra) b s answer b' s') :
    b.SameSetup b' ∧ ∀ u, answer = .ok u → u.key = c.key ∧ StemsFrom b extra u code := by
  unfold reparse at h
  rw [yieldsWith_bind] at h
  obtain ⟨sources, b₁, s₁, hsources, hrest⟩ := h
  obtain ⟨hmade, hsame⟩ := yieldsWith_buildSources hsources
  split at hrest
  · simp only [yieldsWith_pure] at hrest
    obtain ⟨rfl, rfl, -⟩ := hrest
    exact ⟨hsame, by simp⟩
  · simp only [yieldsWith_bind, yieldsWith_get, yieldsWith_liftM] at hrest
    obtain ⟨_, _, _, ⟨rfl, rfl, rfl⟩, parsed, _, s₂, ⟨hparsed, rfl⟩, hend⟩ := hrest
    rw [hsame.engine_eq] at hparsed
    cases parsed with
    | error e =>
      simp only [yieldsWith_pure] at hend
      obtain ⟨rfl, rfl, -⟩ := hend
      exact ⟨hsame, by simp⟩
    | ok unit =>
      simp only [yieldsWith_pure] at hend
      obtain ⟨rfl, rfl, -⟩ := hend
      refine ⟨hsame, ?_⟩
      rintro u ⟨⟩
      -- the old unit was parsed under the same name, since it has the same key
      obtain ⟨-, old, hold, -, -, hparsedOld⟩ := hc
      obtain ⟨_, _, _, _, hnew⟩ := id hmade
      obtain ⟨_, _, _, _, hold⟩ := hold
      rw [(Transformer.path_of_sources hold).1,
        ← (Transformer.path_of_sources hnew).1] at hparsedOld
      exact ⟨rfl, rfl, sources, hmade, rfl, rfl, .reparse hparsedOld hparsed⟩

/-- A reparse that succeeds makes the sources of the text and asks the engine once. -/
theorem exists_of_reparse {code : String} {b b' : UnitBuilder σ} {s s' : σ} {c d : CachedUnit}
    {extra : List FileBuffer} (h : YieldsWith (reparse c code extra) b s (.ok d) b' s') :
    ∃ sources b₁ s₁, YieldsWith (buildSources c.key code) b s sources b₁ s₁ ∧
      ∃ unit, Yields (b₁.engine.reparse c.unit (sources.unsaved ++ extra)) s₁ (.ok unit) s' ∧
        d = { c with
          contentHash := .ofText code, map := sources.map, unit
          unsaved := sources.unsaved ++ extra } := by
  unfold reparse at h
  rw [yieldsWith_bind] at h
  obtain ⟨sources, b₁, s₁, hsources, hrest⟩ := h
  split at hrest
  · simp only [yieldsWith_pure] at hrest
    obtain ⟨hanswer, -⟩ := hrest
    cases hanswer
  · simp only [yieldsWith_bind, yieldsWith_get, yieldsWith_liftM] at hrest
    obtain ⟨_, _, _, ⟨rfl, rfl, rfl⟩, parsed, _, s₂, ⟨hparsed, rfl⟩, hend⟩ := hrest
    cases parsed with
    | error e =>
      simp only [yieldsWith_pure] at hend
      obtain ⟨hanswer, -⟩ := hend
      cases hanswer
    | ok unit =>
      simp only [yieldsWith_pure] at hend
      obtain ⟨hanswer, -, rfl⟩ := hend
      cases hanswer
      exact ⟨sources, _, _, hsources, unit, hparsed, rfl⟩

/-- A build whose first attempt is parsed yields the unit of that parse. -/
theorem yieldsWith_build_of_parse {key : FilePath} {code : String} (extra : List FileBuffer)
    {b : UnitBuilder σ} {s s₁ s₂ : σ} {made : Sources} {t : Transformer} {args : List String}
    {unit : CompilationUnit}
    (hmade : Yields (b.transformer.sources b.engine key code (b.provider key)) s (made, t) s₁)
    (hargs : args = compileArguments (b.provider key) made.main.path b.profile)
    (hparse : Yields (b.engine.parse ⟨made.main.path, args, made.unsaved ++ extra, .editing⟩) s₁
      (.ok unit) s₂) :
    YieldsWith (build key code extra) b s
      (.ok ⟨key, .ofText code, made.map, unit, made.unsaved ++ extra, args, 0⟩)
      { b with transformer := t } s₂ := by
  unfold build buildSources
  simp only [yieldsWith_bind, yieldsWith_get, yieldsWith_liftM, yieldsWith_set, yieldsWith_pure]
  refine ⟨made, { b with transformer := t }, s₁, ?_, { b with transformer := t },
    { b with transformer := t }, s₁, ⟨rfl, rfl, rfl⟩,
    .ok ⟨unit, ⟨"full", args, .editing⟩, 0⟩, { b with transformer := t }, s₂, ⟨?_, rfl⟩, ?_⟩
  · exact ⟨b, b, s, ⟨rfl, rfl, rfl⟩, (made, t), b, s₁, ⟨hmade, rfl⟩, ⟨⟩,
      { b with transformer := t }, s₁, ⟨rfl, rfl⟩, rfl, rfl, rfl⟩
  · rw [← hargs]
    show Yields (tryAttempts _ _ _ _ (_ :: _)) _ _ _
    rw [tryAttempts, yields_bind]
    exact ⟨.ok unit, s₂, hparse, by simp⟩
  · rw [yieldsWith_pure]
    exact ⟨rfl, rfl, rfl⟩

end SketchSense
