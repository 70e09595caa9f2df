import SketchSense.Proofs.Cache.Reading
import SketchSense.Proofs.Cache.Recovering
import SketchSense.Proofs.Cache.Units
import SketchSense.Proofs.Sketch.Handover

/-!
# Requests that end

Whatever the model engine was told to fail on, a request for a unit ends as long as the engine can read
the texts that it is given: a parse that fails is a reason why there is no unit, not a fault.

* `Ends`, that a computation ends with a result;
* `UnitBuilder.CanParse`, that the engine can read a file as it is handed over, and
  `UnitBuilder.CanParse.again`, that this stays so;
* `exists_yields_parse` and `exists_yields_reparse`, single calls;
* `UnitCache.ends_resolveWith`, requests for units, and `UnitCache.get?_of_resolveWith`, that a unit
  which answers one is kept.
-/

namespace SketchSense

open Model

/-! ## Computations that end -/

section Ends

variable {σ τ α β : Type}

/-- The computation, started with `t` in `s`, ends with a result. -/
def Ends (x : StateT τ (EngineM σ) α) (t : τ) (s : σ) : Prop := ∃ a t' s', YieldsWith x t s a t' s'

theorem ends_pure (a : α) (t : τ) (s : σ) : Ends (pure a : StateT τ (EngineM σ) α) t s :=
  ⟨a, t, s, yieldsWith_pure.2 ⟨rfl, rfl, rfl⟩⟩

variable {x : StateT τ (EngineM σ) α} {f : α → StateT τ (EngineM σ) β} {t u : τ} {s r : σ} {a : α}

/-- A computation whose first step has a run ends if it ends from there. -/
theorem ends_bind_iff_of_yields (h : YieldsWith x t s a u r) :
    Ends (x >>= f) t s ↔ Ends (f a) u r := by
  unfold Ends
  simp only [yieldsWith_bind_of_yields h]

theorem ends_bind_pure_iff {g : α → β} : Ends (do return g (← x)) t s ↔ Ends x t s := by
  constructor
  · rintro ⟨_, t', s', h⟩
    obtain ⟨a, t₁, s₁, hx, -⟩ := yieldsWith_bind.1 h
    exact ⟨a, t₁, s₁, hx⟩
  · rintro ⟨a, t', s', hx⟩
    exact (ends_bind_iff_of_yields hx).2 (ends_pure _ _ _)

theorem ends_liftM_iff {x : EngineM σ α} :
    Ends (liftM x : StateT τ (EngineM σ) α) t s ↔ ∃ a s', Yields x s a s' := by
  constructor
  · rintro ⟨a, t', s', h⟩
    exact ⟨a, s', (yieldsWith_liftM.1 h).1⟩
  · rintro ⟨a, s', h⟩
    exact ⟨a, t, s', yieldsWith_liftM.2 ⟨h, rfl⟩⟩

end Ends

/-! ## Single calls -/

section Calls

variable {s : ModelState}

/-- A parse of texts that can be read ends. -/
theorem exists_yields_parse {r : ParseRequest} (hmain : r.mainCode?.isSome)
    (hreads : ∀ t ∈ r.unsaved, CanRead t.code) (s : ModelState) :
    ∃ answer, Yields (modelEngine.parse r) s answer (s.afterParse r) := by
  cases hfails : s.failsOn r with
  | true => exact ⟨_, runFrom_parse_of_fails hfails⟩
  | false =>
    obtain ⟨u, hu⟩ := exists_buildUnit_of_canRead hreads r.mainFile
    refine ⟨.ok u, ?_⟩
    unfold Yields
    rw [runFrom_parse hfails hmain, hu]
    rfl

/-- A reparse that was told to fail says so. -/
theorem runFrom_reparse_of_fails (hfails : s.reparseFails = true) (u : CompilationUnit)
    (unsaved : List FileBuffer) :
    EngineM.runFrom (modelEngine.reparse u unsaved) s =
      (.ok (.error (.reparseFailed u.mainFile failureReason)), s.afterReparse) := by
  show EngineM.runFrom (Model.reparse u unsaved) s = _
  unfold Model.reparse
  rw [runFrom_bind]
  show EngineM.runFrom (set _ >>= fun _ => _) s = _
  rw [runFrom_bind]
  show EngineM.runFrom (if s.reparseFails = true then _ else _) s.afterReparse = _
  rw [if_pos hfails]
  rfl

/-- A reparse with texts that can be read ends. -/
theorem exists_yields_reparse (u : CompilationUnit) (unsaved : List FileBuffer)
    (hreads : ∀ t ∈ unsaved, CanRead t.code) (s : ModelState) :
    ∃ answer, Yields (modelEngine.reparse u unsaved) s answer s.afterReparse := by
  cases hfails : s.reparseFails with
  | true => exact ⟨_, runFrom_reparse_of_fails hfails u unsaved⟩
  | false =>
    obtain ⟨v, hv⟩ := exists_buildUnit_of_canRead hreads u.mainFile
    refine ⟨.ok v, ?_⟩
    unfold Yields
    rw [runFrom_reparse hfails, hv]
    rfl

/-- Attempts on texts that can be read end, with a unit or with a reason. -/
theorem exists_yields_tryAttempts (request : Attempt → ParseRequest)
    (hmain : ∀ a, (request a).mainCode?.isSome)
    (hreads : ∀ a, ∀ t ∈ (request a).unsaved, CanRead t.code) (attempts : List Attempt)
    (failures : Nat) (reason : String) (s : ModelState) :
    ∃ answer s', Yields (tryAttempts modelEngine request failures reason attempts) s answer s' := by
  induction attempts generalizing failures reason s with
  | nil => exact ⟨_, _, yields_pure.2 ⟨rfl, rfl⟩⟩
  | cons a rest ih =>
    obtain ⟨parsed, hparsed⟩ := exists_yields_parse (hmain a) (hreads a) s
    cases parsed with
    | ok unit =>
      refine ⟨.ok ⟨unit, a, failures⟩, s.afterParse (request a), ?_⟩
      rw [tryAttempts]
      exact yields_bind.2 ⟨_, _, hparsed, yields_pure.2 ⟨rfl, rfl⟩⟩
    | error err =>
      obtain ⟨answer, s', hrest⟩ :=
        ih (failures + 1) (a.label ++ ": " ++ err.message) (s.afterParse (request a))
      refine ⟨answer, s', ?_⟩
      rw [tryAttempts]
      exact yields_bind.2 ⟨_, _, hparsed, hrest⟩

end Calls

/-! ## Sources -/

variable {b b' : UnitBuilder ModelState} {s s' : ModelState} {key path : FilePath} {code : String}

/-- The engine can read the text of a file, and all texts that it is given for the file next. -/
structure UnitBuilder.CanParse (b : UnitBuilder ModelState) (s : ModelState) (key : FilePath)
    (code : String) : Prop where
  text : CanRead code
  handed : ∀ made b' s', YieldsWith (buildSources key code) b s made b' s' →
    ∀ t ∈ made.unsaved, CanRead t.code

instance (b : UnitBuilder ModelState) (s : ModelState) (key : FilePath) (code : String) :
    Decidable (b.CanParse s key code) :=
  match hrun : EngineM.runFrom ((buildSources key code).run b) s with
  | (.ok (made, _), _) =>
    decidable_of_iff (CanRead code ∧ ∀ t ∈ made.unsaved, CanRead t.code) (by
      refine ⟨fun h => ⟨h.1, fun made' b' s' hmade => ?_⟩, fun h => ⟨h.text, h.handed _ _ _ hrun⟩⟩
      rw [(Prod.mk.inj (hmade.unique hrun).1).1]
      exact h.2)
  | (.error _, _) =>
    decidable_of_iff (CanRead code) (by
      refine ⟨fun h => ⟨h, fun made b' s' hmade => ?_⟩, fun h => h.text⟩
      unfold YieldsWith Yields at hmade
      rw [hrun] at hmade
      cases hmade)

/-- The sources of a text that can be read are made. -/
theorem exists_buildSources (hb : UsesModel b) (hreads : CanRead code) (key : FilePath)
    (s : ModelState) :
    ∃ made t s', made = (b.transformer.handOver key code (scanned s key code (b.provider key))).1 ∧
      t = (b.transformer.handOver key code (scanned s key code (b.provider key))).2 ∧
      YieldsWith (buildSources key code) b s made { b with transformer := t } s' := by
  obtain ⟨s', hmade⟩ := b.transformer.yields_handOver hreads key (b.provider key) s
  refine ⟨_, _, s', rfl, rfl, yieldsWith_buildSources_iff.2 ⟨_, ?_, rfl⟩⟩
  rw [hb]
  exact hmade

/-- What a file is handed over as is made once more when it is handed over again. -/
theorem UnitBuilder.CanParse.again {made : Sources} {s₁ : ModelState} (h : b.CanParse s key code)
    (hb : UsesModel b) (hmade : YieldsWith (buildSources key code) b s made b' s')
    (hscript : s.SameScript s₁) : b'.CanParse s₁ key code := by
  obtain ⟨made₁, t, s₂, rfl, rfl, hrun⟩ := exists_buildSources hb h.text key s
  obtain ⟨hsame, -⟩ := hmade.unique hrun
  obtain ⟨rfl, rfl⟩ := Prod.mk.inj hsame
  refine ⟨h.text, fun again b₂ s₃ hagain => ?_⟩
  obtain ⟨made₂, t₂, s₄, hmade₂, -, hrun₂⟩ := exists_buildSources
    (b := { b with
      transformer := (b.transformer.handOver key code (scanned s key code (b.provider key))).2 })
    hb h.text key s₁
  obtain ⟨hsame₂, -⟩ := hagain.unique hrun₂
  rw [hscript.scanned_eq, Transformer.handOver_again] at hmade₂
  rw [(Prod.mk.inj hsame₂).1, hmade₂]
  exact h.handed _ _ _ hrun

/-! ## Units -/

/-- A build ends. -/
theorem ends_build (hb : UsesModel b) (h : b.CanParse s key code) : Ends (build key code []) b s := by
  obtain ⟨made, t, s₁, -, -, hmade⟩ := exists_buildSources hb h.text key s
  have hreads := h.handed _ _ _ hmade
  obtain ⟨tried, s₂, htried⟩ := exists_yields_tryAttempts (s := s₁)
    (made.request (made.unsaved ++ [])) (fun a => made.mainCode?_request [] a)
    (fun a t ht => hreads t (by simpa [Sources.request] using ht))
    (recoveryLadder (compileArguments (b.provider key) made.main.path b.profile) made.main.path
      b.profile.coreInclude) 0 ""
  have hlift : YieldsWith (liftM (tryAttempts b.engine (made.request (made.unsaved ++ [])) 0 ""
      (recoveryLadder (compileArguments (b.provider key) made.main.path b.profile) made.main.path
        b.profile.coreInclude)))
      { b with transformer := t } s₁ tried { b with transformer := t } s₂ := by
    refine yieldsWith_liftM.2 ⟨?_, rfl⟩
    rw [hb]
    exact htried
  have hget : YieldsWith (get : BuildM ModelState _) { b with transformer := t } s₁
      { b with transformer := t } { b with transformer := t } s₁ :=
    yieldsWith_get.2 ⟨rfl, rfl, rfl⟩
  unfold build
  rw [ends_bind_iff_of_yields hmade, ends_bind_iff_of_yields hget, ends_bind_iff_of_yields hlift]
  cases tried with
  | ok r => exact ends_pure _ _ _
  | error reason => exact ends_pure _ _ _

/-- A unit that is parsed again ends with a unit or with a reason, and can be built then. -/
theorem exists_yieldsWith_reparse (c : CachedUnit) (hb : UsesModel b) (h : b.CanParse s c.key code) :
    ∃ answer b' s', YieldsWith (reparse c code []) b s answer b' s' ∧ UsesModel b' ∧
      b'.CanParse s' c.key code := by
  obtain ⟨made, t, s₁, -, -, hmade⟩ := exists_buildSources hb h.text c.key s
  have hscript := (framed_of_buildSources hb hmade).script
  have hb₁ : UsesModel { b with transformer := t } := hb
  by_cases hname : made.main.path == c.map.analyzed
  · obtain ⟨answer, hanswer⟩ := exists_yields_reparse c.unit (made.unsaved ++ [])
      (fun t ht => h.handed _ _ _ hmade t (by simpa using ht)) s₁
    have hlift : YieldsWith (liftM (b.engine.reparse c.unit (made.unsaved ++ [])))
        { b with transformer := t } s₁ answer { b with transformer := t } s₁.afterReparse := by
      refine yieldsWith_liftM.2 ⟨?_, rfl⟩
      rw [hb]
      exact hanswer
    have hcan := h.again hb hmade (hscript.trans s₁.sameScript_afterReparse)
    have hget : YieldsWith (get : BuildM ModelState _) { b with transformer := t } s₁
        { b with transformer := t } { b with transformer := t } s₁ :=
      yieldsWith_get.2 ⟨rfl, rfl, rfl⟩
    unfold reparse
    simp only [yieldsWith_bind_of_yields hmade, if_neg (not_not_intro hname),
      yieldsWith_bind_of_yields hget, yieldsWith_bind_of_yields hlift]
    cases answer with
    | ok unit => exact ⟨_, _, _, yieldsWith_pure.2 ⟨rfl, rfl, rfl⟩, hb₁, hcan⟩
    | error e => exact ⟨_, _, _, yieldsWith_pure.2 ⟨rfl, rfl, rfl⟩, hb₁, hcan⟩
  · have hcan := h.again hb hmade hscript
    unfold reparse
    simp only [yieldsWith_bind_of_yields hmade, if_pos hname]
    exact ⟨_, _, _, yieldsWith_pure.2 ⟨rfl, rfl, rfl⟩, hb₁, hcan⟩

namespace UnitCache

variable {c c' : UnitCache}

/-- A unit that a request is answered with is kept. -/
theorem get?_of_resolveWith {stale : Bool} {u : CachedUnit} {action : UnitAction}
    (h : YieldsWith (c.resolveWith stale path code) b s (.ok (u, action), c') b' s') :
    c'.units.get? (b.key path) = some u := by
  have hcreate {b : UnitBuilder ModelState} {s : ModelState} {key : FilePath}
      (h : YieldsWith (c.create key code) b s (.ok (u, action), c') b' s') :
      c'.units.get? key = some u := by
    obtain ⟨-, ⟨v, -, -, hend⟩ | ⟨e, hend⟩⟩ := create_cases h
    · cases hend
      exact c.units.get?_insert_self key u
    · cases (Prod.mk.inj hend).1
  unfold resolveWith at h
  rw [yieldsWith_bind_of_yields (yieldsWith_get.2 ⟨rfl, rfl, rfl⟩)] at h
  dsimp only at h
  split at h
  · exact hcreate h
  · next unit hunit =>
    split at h
    · obtain ⟨hend, -⟩ := yieldsWith_pure.1 h
      cases hend
      exact hunit
    · unfold update at h
      obtain ⟨parsed, _, _, -, hrest⟩ := yieldsWith_bind.1 h
      cases parsed with
      | ok v =>
        obtain ⟨hend, -⟩ := yieldsWith_pure.1 hrest
        cases hend
        exact c.units.get?_insert_self (b.key path) u
      | error e => exact hcreate hrest

theorem ends_create (c : UnitCache) (hb : UsesModel b) (h : b.CanParse s key code) :
    Ends (c.create key code) b s := by
  obtain ⟨built, b', s', hbuilt⟩ := ends_build hb h
  unfold create
  rw [ends_bind_iff_of_yields hbuilt]
  cases built with
  | ok u => exact ends_pure _ _ _
  | error e => exact ends_pure _ _ _

/-- A request for a unit ends. -/
theorem ends_resolveWith (hc : c.Reading) (hb : UsesModel b) (stale : Bool)
    (h : b.CanParse s (b.key path) code) : Ends (c.resolveWith stale path code) b s := by
  have hget : YieldsWith (get : BuildM ModelState _) b s b b s := yieldsWith_get.2 ⟨rfl, rfl, rfl⟩
  unfold resolveWith
  rw [ends_bind_iff_of_yields hget]
  dsimp only
  cases hunit : c.units.get? (b.key path) with
  | none => exact ends_create c hb h
  | some unit =>
    dsimp only
    split
    · exact ends_pure _ _ _
    · have hkey : unit.key = b.key path :=
        (hc.of_get? (FilePath.isNormal_normalize path b.root) hunit).1
      rw [← hkey] at h
      obtain ⟨parsed, b₁, s₁, hparsed, hb₁, hcan⟩ := exists_yieldsWith_reparse unit hb h
      unfold update
      rw [ends_bind_iff_of_yields hparsed]
      cases parsed with
      | ok v => exact ends_pure _ _ _
      | error e =>
        rw [hkey] at hcan
        exact ends_create c hb₁ hcan

end UnitCache

end SketchSense
