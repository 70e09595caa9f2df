import SketchSense.Analysis.Request
import SketchSense.Proofs.Cache.Presenting

/-!
# Analyses that are reached

An analysis starts with nothing kept and answers requests, one after the other. In between it may
forget everything, get other arguments and find other texts on disk, and the engine may be in any
state. Whatever happens, all that is kept presents files by their keys.

* `AnalysisCore.Step` and `AnalysisCore.Reached`, with the paths that occur restricted to some;
* `AnalysisCore.Presenting`, what is true of all that is kept;
* one lemma for every operation: it keeps that, and its answer is taken from units of such keys;
* `AnalysisCore.Reached.presenting`, that it holds of every analysis that is reached.
-/

namespace SketchSense

variable {σ α : Type} {P : FilePath → Prop} {root : FilePath}

/-! ## What may happen -/

/-- The paths that a request names. -/
def Request.paths : Request → List FilePath
  | .diagnostics file => [file.path]
  | .completions p => [p.file.path]
  | .hover p files => p.file.path :: files.map (·.path)
  | .definition p files => p.file.path :: files.map (·.path)
  | .occurrences p _ files => p.file.path :: files.map (·.path)
  | .symbols file _ => [file.path]
  | .container p => [p.file.path]
  | .project files => files.map (·.path)

/-- `P` holds of every path with a text on disk. -/
def OnDisk (P : FilePath → Prop) (disk : FilePath → Option String) : Prop :=
  ∀ p, (disk p).isSome → P p

namespace AnalysisCore

/-- What may happen to an analysis where `P` holds of all paths that occur. -/
inductive Step (P : FilePath → Prop) : AnalysisCore σ → AnalysisCore σ → Prop
  | answer {c c' : AnalysisCore σ} {live : Bool} {r : Request} {e : Enumeration ProjectUnit}
      {s s' : σ} {a : Answer} (hpaths : ∀ p ∈ r.paths, P p)
      (h : YieldsWith (CoreM.answer live r e) c s a c' s') : Step P c c'
  | invalidateAll (c : AnalysisCore σ) : Step P c c.invalidateAll
  /-- Other arguments are provided from now on. -/
  | provide (c : AnalysisCore σ) (provider : FilePath → List String) :
      Step P c { c with builder := { c.builder with provider } }
  /-- Files on disk are written, removed or moved. -/
  | rewrite (c : AnalysisCore σ) {disk : FilePath → Option String} (h : OnDisk P disk) :
      Step P c { c with disk }

/-- An analysis of the sketch in `root` that was reached from the one that knows nothing. -/
inductive Reached (P : FilePath → Prop) (root : FilePath) : AnalysisCore σ → Prop
  | start (engine : Engine σ) (provided : FilePath → List String)
      {disk : FilePath → Option String} {settings : Settings} (hroot : settings.root = root)
      (hdisk : OnDisk P disk) : Reached P root (.ofSettings engine provided disk settings)
  | step {c c' : AnalysisCore σ} (h : Reached P root c) (hstep : Step P c c') : Reached P root c'

end AnalysisCore

/-! ## What is kept -/

/-- The key of a path of which `P` holds. -/
def IsKeyOf (P : FilePath → Prop) (root key : FilePath) : Prop :=
  ∃ p, P p ∧ p.normalize root = key

theorem IsKeyOf.isNormal {key : FilePath} (h : IsKeyOf P root key) : key.IsNormal := by
  obtain ⟨p, -, rfl⟩ := h
  exact FilePath.isNormal_normalize p root

/-- The symbols of a unit that presents its file. -/
def ListsUnit (P : FilePath → Prop) (root : FilePath) (symbols : List Symbol) : Prop :=
  ∃ u : CachedUnit, u.Presents (IsKeyOf P root) ∧ symbols = u.symbols

/-- All that is kept presents files by the keys of paths of which `P` holds. -/
structure AnalysisCore.Presenting (P : FilePath → Prop) (root : FilePath) (c : AnalysisCore σ) :
    Prop where
  rooted : RootedAt root c.builder
  disk : OnDisk P c.disk
  units : c.units.Presenting (IsKeyOf P root)
  project : c.project.Presenting (IsKeyOf P root) root
  symbols : ∀ e ∈ c.symbols.lists.entries, ListsUnit P root e.2.symbols

namespace AnalysisCore.Presenting

theorem start (engine : Engine σ) (provided : FilePath → List String)
    {disk : FilePath → Option String} {settings : Settings} (hroot : settings.root = root)
    (hdisk : OnDisk P disk) : Presenting P root (.ofSettings engine provided disk settings) := by
  refine ⟨hroot, hdisk, ?_, ?_, ?_⟩
  · intro e he
    exact absurd he List.not_mem_nil
  · intro e he
    exact absurd he List.not_mem_nil
  · intro e he
    exact absurd he List.not_mem_nil

theorem invalidateAll {c : AnalysisCore σ} (h : c.Presenting P root) :
    c.invalidateAll.Presenting P root := by
  refine ⟨h.rooted, h.disk, ?_, ?_, ?_⟩
  · intro e he
    exact absurd he List.not_mem_nil
  · intro e he
    exact absurd he List.not_mem_nil
  · intro e he
    exact absurd he List.not_mem_nil

end AnalysisCore.Presenting

namespace CoreM

/-! ## Steps -/

/-- The computation keeps an analysis presenting files by their keys, and `Q` holds of its results. -/
abbrev KeepsPresenting (P : FilePath → Prop) (root : FilePath) (x : CoreM σ α) (Q : α → Prop) :
    Prop :=
  Keeps (AnalysisCore.Presenting P root) x Q

/-- Building units changes nothing but the builder, and not its root. -/
theorem keeps_building {x : BuildM σ α} {Q : α → Prop} (hx : Keeps (RootedAt root) x Q) :
    KeepsPresenting P root (building x) Q := by
  intro c s a c' s' hrun hc
  unfold building at hrun
  simp only [yieldsWith_bind, yieldsWith_get, yieldsWith_liftM, yieldsWith_set,
    yieldsWith_pure] at hrun
  obtain ⟨_, _, _, ⟨rfl, rfl, rfl⟩, ⟨made, b⟩, _, _, ⟨hmade, rfl⟩, _, _, _, ⟨rfl, rfl⟩, rfl, rfl,
    rfl⟩ := hrun
  obtain ⟨hroot, hresult⟩ := hx hmade hc.rooted
  exact ⟨⟨hroot, hc.disk, hc.units, hc.project, hc.symbols⟩, hresult⟩

theorem keeps_orFault (x : Except Fault α) :
    KeepsPresenting (σ := σ) P root (orFault x) fun a => x = .ok a := by
  refine keeps_liftM fun s a s' hrun => ?_
  exact (yields_mk.1 hrun).1

/-- The key of a path of which `P` holds. -/
theorem keeps_keyOf {path : FilePath} (hpath : P path) :
    KeepsPresenting (σ := σ) P root (keyOf path) (IsKeyOf P root) := by
  unfold keyOf
  refine keeps_bind keeps_get fun c hc => keeps_pure ⟨path, hpath, ?_⟩
  rw [← hc.rooted]
  rfl

/-- A file is answered with a unit that presents it alone, or with none. -/
theorem keeps_unitWith? {file : FileBuffer} (hpath : P file.path) (stale : Bool) :
    KeepsPresenting (σ := σ) P root (unitWith? stale file) fun r =>
      ∀ u, r = some u → u.PresentsAlone (IsKeyOf P root) := by
  unfold unitWith?
  refine keeps_bind keeps_get fun c hc => ?_
  have hkey : IsKeyOf P root (file.path.normalize root) := ⟨file.path, hpath, rfl⟩
  refine keeps_bind (keeps_building (UnitCache.keeps_resolveWith hc.units hkey stale file.code))
    fun r hr => ?_
  obtain ⟨answer, units⟩ := r
  refine keeps_bind (keeps_modify fun c hc => ⟨hc.rooted, hc.disk, hr.1, hc.project, hc.symbols⟩)
    fun _ _ => ?_
  cases answer with
  | ok found =>
    refine keeps_pure ?_
    rintro u ⟨⟩
    exact hr.2 found.1 found.2 rfl
  | error e =>
    refine keeps_pure ?_
    rintro u ⟨⟩

theorem keeps_unit? {file : FileBuffer} (hpath : P file.path) :
    KeepsPresenting (σ := σ) P root (unit? file) fun r =>
      ∀ u, r = some u → u.PresentsAlone (IsKeyOf P root) :=
  keeps_unitWith? hpath false

theorem keeps_announce (channel : FilePath) (diagnostics : List Diagnostic) :
    KeepsPresenting (σ := σ) P root (announce channel diagnostics) (·.diagnostics = diagnostics) := by
  unfold announce
  refine keeps_bind keeps_get fun c _ => ?_
  refine keeps_bind (keeps_modify fun c hc =>
    ⟨hc.rooted, hc.disk, hc.units, hc.project, hc.symbols⟩) fun _ _ => ?_
  exact keeps_pure rfl

/-! ## Diagnostics -/

/-- What is reported for a file: what was collected for a unit that presents it, the failure of a
file inside the sketch, or nothing. -/
inductive Reported (P : FilePath → Prop) (root : FilePath) : List Diagnostic → Prop
  | collected {u : CachedUnit} (hu : u.Presents (IsKeyOf P root)) (raw : List RawDiagnostic) :
      Reported P root (Scope.collect ⟨root, u.map⟩ raw)
  | failure {key : FilePath} (hkey : IsKeyOf P root key) (h : key.isInside root = true) :
      Reported P root [.parseFailure key]
  | nothing : Reported P root []

theorem keeps_diagnostics {file : FileBuffer} (hpath : P file.path) :
    KeepsPresenting (σ := σ) P root (diagnostics file) fun pass =>
      Reported P root pass.diagnostics := by
  unfold diagnostics
  refine keeps_bind (keeps_keyOf hpath) fun key hkey => ?_
  refine keeps_bind (keeps_unit? hpath) fun unit hunit => ?_
  refine keeps_bind keeps_get fun c hc => ?_
  have hroot : c.root = root := hc.rooted
  cases unit with
  | some u =>
    refine keeps_bind keeps_getThe fun s _ => (keeps_announce _ _).mono fun pass hpass => ?_
    rw [hpass, hroot]
    exact .collected (hunit u rfl).toPresents _
  | none =>
    refine (keeps_announce _ _).mono fun pass hpass => ?_
    rw [hpass, hroot]
    split
    · next hinside => exact .failure hkey hinside
    · exact .nothing

/-- A project reports what the units report that the pass leaves. -/
theorem yieldsWith_projectDiagnostics {files : List FileBuffer} (hpaths : ∀ f ∈ files, P f.path)
    {e : Enumeration ProjectUnit} {c c' : AnalysisCore σ} {s s' : σ} {pass : DiagnosticsPass}
    (hc : c.Presenting P root) (h : YieldsWith (projectDiagnostics files e) c s pass c' s') :
    c'.Presenting P root ∧
      pass.diagnostics = mergedDiagnostics (c'.project.units.valuesIn e) := by
  have hkeys : ∀ f ∈ files, IsKeyOf P root (f.path.normalize root) :=
    fun f hf => ⟨f.path, hpaths f hf, rfl⟩
  unfold projectDiagnostics announce at h
  simp only [yieldsWith_bind, yieldsWith_get, yieldsWith_modify, yieldsWith_pure] at h
  obtain ⟨_, _, _, ⟨rfl, rfl, rfl⟩, r, c₁, _, hrefresh, _, _, _, ⟨rfl, rfl⟩, _, _, _,
    ⟨rfl, rfl, rfl⟩, _, _, _, ⟨rfl, rfl, rfl⟩, _, _, _, ⟨rfl, rfl⟩, rfl, rfl, rfl⟩ := h
  obtain ⟨hc₁, hproject, hreported⟩ := keeps_building (ProjectCache.keeps_refresh
    (fun _ => IsKeyOf.isNormal) hc.project hkeys e) hrefresh hc
  exact ⟨⟨hc₁.rooted, hc₁.disk, hc₁.units, hproject, hc₁.symbols⟩, hreported⟩

/-! ## Questions about a position -/

/-- Completions are chosen among the candidates of the engine, marked with the symbols of a unit. -/
theorem keeps_completions {p : EditPosition} (hpath : P p.file.path) :
    KeepsPresenting (σ := σ) P root (completions p) fun items =>
      items = [] ∨ ∃ (symbols : List Symbol) (typed : String) (candidates : List Candidate)
        (limit : Nat), ListsUnit P root symbols ∧
          items = chooseCompletions typed (candidates.map (·.item symbols root)) limit := by
  unfold completions
  refine keeps_bind (keeps_unitWith? hpath true) fun unit hunit => ?_
  cases unit with
  | none => exact keeps_pure (.inl rfl)
  | some u =>
    refine keeps_bind (keeps_keyOf hpath) fun key _ => ?_
    refine keeps_bind (keeps_building (keeps_buildSources key p.file.code)) fun now _ => ?_
    refine keeps_bind keeps_get fun c hc => ?_
    refine keeps_bind keeps_getThe fun s _ => ?_
    refine keeps_bind (keeps_orFault _) fun items hitems => keeps_pure (.inr ?_)
    have hroot : c.root = root := hc.rooted
    unfold CachedUnit.complete at hitems
    cases hplace : now.map.toAnalyzed p.line p.column with
    | error fault =>
      rw [hplace] at hitems
      cases hitems
    | ok l =>
      rw [hplace] at hitems
      cases hitems
      rw [hroot]
      exact ⟨u.symbols, _, _, _, ⟨u, (hunit u rfl).toPresents, rfl⟩, rfl⟩

theorem keeps_hover {p : EditPosition} (hpath : P p.file.path) (files : List FileBuffer) :
    KeepsPresenting (σ := σ) P root (hover p files) fun _ => True := by
  unfold hover
  refine keeps_bind (keeps_unit? hpath) fun unit _ => ?_
  cases unit with
  | none => exact keeps_pure trivial
  | some u =>
    refine keeps_bind keeps_get fun c _ => ?_
    exact keeps_liftM fun _ _ _ _ => trivial

/-- A definition is looked for from a unit that presents its file alone. -/
theorem keeps_definition {p : EditPosition} (hpath : P p.file.path) (files : List FileBuffer) :
    KeepsPresenting (σ := σ) P root (definition p files) fun r =>
      r = none ∨ ∃ (c : AnalysisCore σ) (u : CachedUnit) (s s' : σ), c.Presenting P root ∧
        u.PresentsAlone (IsKeyOf P root) ∧
        Yields (findDefinition? c.builder (c.textsFor u files) u p.line p.column) s r s' := by
  unfold definition
  refine keeps_bind (keeps_unit? hpath) fun unit hunit => ?_
  cases unit with
  | none => exact keeps_pure (.inl rfl)
  | some u =>
    refine keeps_bind keeps_get fun c hc => ?_
    exact keeps_liftM fun s r s' hrun => .inr ⟨c, u, s, s', hc, hunit u rfl, hrun⟩

/-- A container is one of a unit. -/
theorem keeps_container {p : EditPosition} (hpath : P p.file.path) :
    KeepsPresenting (σ := σ) P root (container p) fun r =>
      r = none ∨ ∃ u : CachedUnit, u.Presents (IsKeyOf P root) ∧
        u.container? p.line p.column = .ok r := by
  unfold container
  refine keeps_bind (keeps_unit? hpath) fun unit hunit => ?_
  cases unit with
  | none => exact keeps_pure (.inl rfl)
  | some u =>
    exact (keeps_orFault _).mono fun r hr => .inr ⟨u, (hunit u rfl).toPresents, hr⟩

/-! ## Occurrences and symbols -/

/-- Every location is one of the occurrences of an entity in a unit. -/
def AreOccurrences (P : FilePath → Prop) (root : FilePath) (ls : List Location) : Prop :=
  ∀ l ∈ ls, ∃ (u : CachedUnit) (target : OccurrenceTarget) (within : Option FilePath),
    u.Presents (IsKeyOf P root) ∧ l ∈ u.occurrences target within

theorem areOccurrences_nil : AreOccurrences P root [] := by
  intro l hl
  exact absurd hl List.not_mem_nil

theorem AreOccurrences.append {ls ms : List Location} (hls : AreOccurrences P root ls)
    (hms : AreOccurrences P root ms) : AreOccurrences P root (ls ++ ms) := by
  intro l hl
  rcases List.mem_append.1 hl with hl | hl
  · exact hls l hl
  · exact hms l hl

theorem AreOccurrences.sortUnique {ls : List Location} (h : AreOccurrences P root ls) :
    AreOccurrences P root (Location.sortUnique ls) := by
  intro l hl
  have hl := mem_of_mem_dropRepeats hl
  exact h l ((sortBy_perm _ _).mem_iff.1 hl)

/-- Files are searched one after the other. -/
theorem keeps_occurrencesAmong (target : OccurrenceTarget) (within : FilePath)
    {files : List FileBuffer} (hpaths : ∀ f ∈ files, P f.path) :
    KeepsPresenting (σ := σ) P root (occurrencesAmong target within files)
      (AreOccurrences P root) := by
  induction files with
  | nil => exact keeps_pure areOccurrences_nil
  | cons f files ih =>
    rw [List.forall_mem_cons] at hpaths
    unfold occurrencesAmong
    refine keeps_bind (keeps_unit? hpaths.1) fun unit hunit => ?_
    refine keeps_bind (ih hpaths.2) fun others hothers => keeps_pure (.append ?_ hothers)
    cases unit with
    | none => exact areOccurrences_nil
    | some u => exact fun l hl => ⟨u, target, _, (hunit u rfl).toPresents, hl⟩

theorem keeps_otherFiles (key : FilePath) {files : List FileBuffer} (hpaths : ∀ f ∈ files, P f.path) :
    KeepsPresenting (σ := σ) P root (otherFiles key files) fun others =>
      ∀ f ∈ others, P f.path := by
  unfold otherFiles
  refine keeps_bind keeps_get fun c _ => keeps_pure fun f hf => ?_
  exact hpaths f (List.mem_filter.1 hf).1

theorem keeps_occurrences {p : EditPosition} (hpath : P p.file.path) (scope : OccurrenceScope)
    {files : List FileBuffer} (hpaths : ∀ f ∈ files, P f.path) (live : Bool) :
    KeepsPresenting (σ := σ) P root (occurrences p scope files live) (AreOccurrences P root) := by
  unfold occurrences
  refine keeps_bind (keeps_unit? hpath) fun unit hunit => ?_
  cases unit with
  | none => exact keeps_pure areOccurrences_nil
  | some u =>
    have hhere (target : OccurrenceTarget) (within : Option FilePath) :
        AreOccurrences P root (u.occurrences target within) :=
      fun l hl => ⟨u, target, within, (hunit u rfl).toPresents, hl⟩
    refine keeps_bind (keeps_orFault _) fun target _ => ?_
    cases target with
    | none => exact keeps_pure areOccurrences_nil
    | some target =>
      cases scope with
      | currentFile => exact keeps_pure (hhere target none).sortUnique
      | project =>
        refine keeps_bind keeps_get fun c _ => ?_
        have hnone : KeepsPresenting (σ := σ) P root (pure [])
            fun others : List FileBuffer => ∀ f ∈ others, P f.path :=
          keeps_pure fun f hf => absurd hf List.not_mem_nil
        cases live with
        | false =>
          refine keeps_bind hnone fun others hothers => ?_
          refine keeps_bind (keeps_occurrencesAmong target _ hothers) fun found hfound => ?_
          exact keeps_pure ((hhere target _).append hfound).sortUnique
        | true =>
          refine keeps_bind (keeps_keyOf hpath) fun key _ => ?_
          refine keeps_bind (keeps_otherFiles key hpaths) fun others hothers => ?_
          refine keeps_bind (keeps_occurrencesAmong target _ hothers) fun found hfound => ?_
          exact keeps_pure ((hhere target _).append hfound).sortUnique

/-- A symbol list is that of a unit, now or when it was kept. -/
theorem keeps_symbols {file : FileBuffer} (hpath : P file.path) (now : Nat) :
    KeepsPresenting (σ := σ) P root (symbols file now) fun r =>
      r = [] ∨ ListsUnit P root r := by
  unfold symbols
  refine keeps_bind (keeps_keyOf hpath) fun key _ => ?_
  refine keeps_bind keeps_get fun c hc => ?_
  split
  · next kept hkept =>
    refine keeps_pure (.inr ?_)
    unfold SymbolCache.lookup? at hkept
    split at hkept
    · cases hkept
    · next l hl =>
      obtain ⟨k, hmem, -⟩ := Table.exists_mem_of_find?_eq_some hl
      split at hkept
      · rw [← Option.some.inj hkept]
        exact hc.symbols _ hmem
      · cases hkept
  · refine keeps_bind (keeps_unit? hpath) fun unit hunit => ?_
    cases unit with
    | none => exact keeps_pure (.inl rfl)
    | some u =>
      have hlists : ListsUnit P root u.symbols := ⟨u, (hunit u rfl).toPresents, rfl⟩
      refine keeps_bind (keeps_modify fun c hc =>
        ⟨hc.rooted, hc.disk, hc.units, hc.project, fun e he => ?_⟩) fun _ _ => ?_
      · rcases Table.mem_put he with hold | rfl | ⟨hvalue, -⟩
        · exact hc.symbols e hold
        · exact hlists
        · rw [hvalue]
          exact hlists
      · exact keeps_pure (.inr hlists)

/-! ## Requests -/

/-- Answering a request keeps an analysis presenting files by their keys. -/
theorem keeps_answer {r : Request} (hpaths : ∀ p ∈ r.paths, P p) (live : Bool)
    (e : Enumeration ProjectUnit) :
    KeepsPresenting (σ := σ) P root (answer live r e) fun _ => True := by
  cases r with
  | diagnostics file =>
    exact keeps_bind (keeps_diagnostics (hpaths _ (by simp [Request.paths])))
      fun _ _ => keeps_pure trivial
  | completions p =>
    exact keeps_bind (keeps_completions (hpaths _ (by simp [Request.paths])))
      fun _ _ => keeps_pure trivial
  | hover p files =>
    exact keeps_bind (keeps_hover (hpaths _ (by simp [Request.paths])) files)
      fun _ _ => keeps_pure trivial
  | definition p files =>
    exact keeps_bind (keeps_definition (hpaths _ (by simp [Request.paths])) files)
      fun _ _ => keeps_pure trivial
  | occurrences p scope files =>
    have hfiles : ∀ f ∈ files, P f.path :=
      fun f hf => hpaths _ (List.mem_cons_of_mem _ (List.mem_map_of_mem hf))
    exact keeps_bind (keeps_occurrences (hpaths _ (by simp [Request.paths])) scope hfiles live)
      fun _ _ => keeps_pure trivial
  | symbols file now =>
    exact keeps_bind (keeps_symbols (hpaths _ (by simp [Request.paths])) now)
      fun _ _ => keeps_pure trivial
  | container p =>
    exact keeps_bind (keeps_container (hpaths _ (by simp [Request.paths])))
      fun _ _ => keeps_pure trivial
  | project files =>
    have hproject : KeepsPresenting (σ := σ) P root (projectDiagnostics files e) fun _ => True :=
      fun c s pass c' s' hrun hc => ⟨(yieldsWith_projectDiagnostics
        (fun f hf => hpaths _ (List.mem_map_of_mem hf)) hc hrun).1, trivial⟩
    exact keeps_bind hproject fun _ _ => keeps_pure trivial

end CoreM

namespace AnalysisCore

theorem Presenting.step {c c' : AnalysisCore σ} (hc : c.Presenting P root) (h : Step P c c') :
    c'.Presenting P root := by
  cases h with
  | answer hpaths hrun => exact (CoreM.keeps_answer hpaths _ _ hrun hc).1
  | invalidateAll => exact hc.invalidateAll
  | provide provider => exact ⟨hc.rooted, hc.disk, hc.units, hc.project, hc.symbols⟩
  | rewrite hdisk => exact ⟨hc.rooted, hdisk, hc.units, hc.project, hc.symbols⟩

/-- Whatever happened to an analysis, all that it keeps presents files by their keys. -/
theorem Reached.presenting {c : AnalysisCore σ} (h : Reached P root c) : c.Presenting P root := by
  induction h with
  | start engine provided hroot hdisk => exact .start engine provided hroot hdisk
  | step _ hstep ih => exact ih.step hstep

end AnalysisCore

end SketchSense
