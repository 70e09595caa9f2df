import SketchSense.Analysis.Request
import SketchSense.Proofs.Cache.Units
import SketchSense.Proofs.Engine.Keeping

/-!
# What questions leave as it is

To answer a question the unit of a file is asked for, and the rest is read off that unit. So nothing
that is kept changes but the units and what the builder remembers; a question for symbols may change
the kept lists as well.

* `CoreM.yieldsWith_unit?_iff`, the unit of a file, and `CoreM.yieldsWith_unit?`, where nothing is
  kept about it;
* `AnalysisCore.SameButUnits` and `CoreM.KeepsRest`, with one lemma for every kind of question;
* `CoreM.exists_announce_of_diagnostics` and `CoreM.exists_announce_of_projectDiagnostics`, what comes
  before diagnostics are announced;
* `CoreM.yieldsWith_symbols_iff`, the two ways to a list of symbols.
-/

namespace SketchSense

variable {σ α : Type}

/-- The analyses differ in the builder and the units at most. -/
def AnalysisCore.SameButUnits (c c' : AnalysisCore σ) : Prop :=
  c' = { c with builder := c'.builder, units := c'.units }

namespace AnalysisCore.SameButUnits

variable {c c' c'' : AnalysisCore σ}

theorem refl (c : AnalysisCore σ) : c.SameButUnits c := rfl

theorem trans (h : c.SameButUnits c') (h' : c'.SameButUnits c'') : c.SameButUnits c'' := by
  unfold SameButUnits at h h' ⊢
  rw [h', h]

theorem symbols_eq (h : c.SameButUnits c') : c'.symbols = c.symbols := by rw [h]

theorem notifier_eq (h : c.SameButUnits c') : c'.notifier = c.notifier := by rw [h]

end AnalysisCore.SameButUnits

namespace CoreM

/-! ## Steps -/

/-- Building leaves all but the builder as it is. -/
theorem yieldsWith_building_iff {x : BuildM σ α} {c c' : AnalysisCore σ} {s s' : σ} {a : α} :
    YieldsWith (building x) c s a c' s' ↔
      ∃ b, YieldsWith x c.builder s a b s' ∧ c' = { c with builder := b } := by
  unfold building
  simp only [yieldsWith_bind, yieldsWith_get, yieldsWith_liftM, yieldsWith_set, yieldsWith_pure]
  constructor
  · rintro ⟨_, _, _, ⟨rfl, rfl, rfl⟩, ⟨_, b⟩, _, _, ⟨hx, rfl⟩, _, _, _, ⟨rfl, rfl⟩, rfl, rfl, rfl⟩
    exact ⟨b, hx, rfl⟩
  · rintro ⟨b, hx, rfl⟩
    exact ⟨c, c, s, ⟨rfl, rfl, rfl⟩, (a, b), c, s', ⟨hx, rfl⟩, ⟨⟩, _, s', ⟨rfl, rfl⟩, rfl, rfl,
      rfl⟩

/-- The unit of a file is the one that the cache answers with. -/
theorem yieldsWith_unitWith?_iff {stale : Bool} {file : FileBuffer} {c c' : AnalysisCore σ} {s s' : σ}
    {a : Option CachedUnit} :
    YieldsWith (unitWith? stale file) c s a c' s' ↔ ∃ b answer units,
      YieldsWith (c.units.resolveWith stale file.path file.code) c.builder s (answer, units) b s' ∧
        a = answer.toOption.map (·.1) ∧ c' = { c with builder := b, units } := by
  unfold unitWith?
  constructor
  · intro h
    obtain ⟨_, _, _, hget, hrest⟩ := yieldsWith_bind.1 h
    obtain ⟨rfl, rfl, rfl⟩ := yieldsWith_get.1 hget
    obtain ⟨⟨answer, units⟩, _, _, hbuilding, hrest⟩ := yieldsWith_bind.1 hrest
    obtain ⟨b, hresolve, rfl⟩ := yieldsWith_building_iff.1 hbuilding
    obtain ⟨_, _, _, hmodify, hend⟩ := yieldsWith_bind.1 hrest
    obtain ⟨rfl, rfl⟩ := yieldsWith_modify.1 hmodify
    refine ⟨b, answer, units, ?_⟩
    cases answer with
    | ok r =>
      obtain ⟨rfl, rfl, rfl⟩ := yieldsWith_pure.1 hend
      exact ⟨hresolve, rfl, rfl⟩
    | error e =>
      obtain ⟨rfl, rfl, rfl⟩ := yieldsWith_pure.1 hend
      exact ⟨hresolve, rfl, rfl⟩
  · rintro ⟨b, answer, units, hresolve, rfl, rfl⟩
    simp only [yieldsWith_bind, yieldsWith_get]
    refine ⟨c, c, s, ⟨rfl, rfl, rfl⟩, _, _, s', yieldsWith_building_iff.2 ⟨b, hresolve, rfl⟩, ⟨⟩, _,
      s', yieldsWith_modify.2 ⟨rfl, rfl⟩, ?_⟩
    cases answer with
    | ok r => exact yieldsWith_pure.2 ⟨rfl, rfl, rfl⟩
    | error e => exact yieldsWith_pure.2 ⟨rfl, rfl, rfl⟩

theorem yieldsWith_unit?_iff {file : FileBuffer} {c c' : AnalysisCore σ} {s s' : σ}
    {a : Option CachedUnit} :
    YieldsWith (unit? file) c s a c' s' ↔ ∃ b answer units,
      YieldsWith (c.units.resolveWith false file.path file.code) c.builder s (answer, units) b s' ∧
        a = answer.toOption.map (·.1) ∧ c' = { c with builder := b, units } :=
  yieldsWith_unitWith?_iff

/-- A file about which nothing is kept gets the unit that is built for it. -/
theorem yieldsWith_unit? {c : AnalysisCore σ} (file : FileBuffer) {b : UnitBuilder σ}
    {s s' : σ} {u : CachedUnit} (hnone : c.units.units.get? (c.builder.key file.path) = none)
    (hbuild : YieldsWith (build (c.builder.key file.path) file.code []) c.builder s (.ok u) b s') :
    ∃ units, YieldsWith (unit? file) c s (some u) { c with builder := b, units } s' :=
  ⟨(c.units.keep (c.builder.key file.path) u .created).2, yieldsWith_unit?_iff.2
    ⟨b, _, _, UnitCache.yieldsWith_resolveWith_of_build false hnone hbuild, rfl, rfl⟩⟩

/-! ## Questions -/

/-- Of `c₀` nothing changes but the builder and the units. -/
abbrev KeepsRest (c₀ : AnalysisCore σ) (x : CoreM σ α) : Prop :=
  Keeps c₀.SameButUnits x fun _ => True

variable {c₀ : AnalysisCore σ}

theorem keepsRest_building (x : BuildM σ α) : KeepsRest c₀ (building x) := by
  intro c s a c' s' hrun hc
  obtain ⟨b, -, rfl⟩ := yieldsWith_building_iff.1 hrun
  exact ⟨hc.trans rfl, trivial⟩

theorem keepsRest_orFault (x : Except Fault α) : KeepsRest c₀ (orFault x) :=
  keeps_liftM fun _ _ _ _ => trivial

theorem keepsRest_get : KeepsRest c₀ get :=
  keeps_get.mono fun _ _ => trivial

theorem keepsRest_keyOf (path : FilePath) : KeepsRest c₀ (keyOf path) :=
  keeps_bind keepsRest_get fun _ _ => keeps_pure trivial

theorem keepsRest_unitWith? (stale : Bool) (file : FileBuffer) :
    KeepsRest c₀ (unitWith? stale file) := by
  unfold unitWith?
  refine keeps_bind keepsRest_get fun c _ => ?_
  refine keeps_bind (keepsRest_building _) fun r _ => ?_
  refine keeps_bind (keeps_modify fun _ hc => hc.trans rfl) fun _ _ => ?_
  split
  · exact keeps_pure trivial
  · exact keeps_pure trivial

theorem keepsRest_unit? (file : FileBuffer) : KeepsRest c₀ (unit? file) :=
  keepsRest_unitWith? false file

theorem keepsRest_completions (p : EditPosition) :
    KeepsRest c₀ (completions p) := by
  unfold completions
  refine keeps_bind (keepsRest_unitWith? true p.file) fun unit _ => ?_
  cases unit with
  | none => exact keeps_pure trivial
  | some u =>
    refine keeps_bind (keepsRest_keyOf _) fun key _ => ?_
    refine keeps_bind (keepsRest_building _) fun now _ => ?_
    refine keeps_bind keepsRest_get fun c _ => ?_
    refine keeps_bind keeps_getThe fun s _ => ?_
    exact keeps_bind (keepsRest_orFault _) fun items _ => keeps_pure trivial

theorem keepsRest_hover (p : EditPosition) (files : List FileBuffer) :
    KeepsRest c₀ (hover p files) := by
  unfold hover
  refine keeps_bind (keepsRest_unit? p.file) fun unit _ => ?_
  cases unit with
  | none => exact keeps_pure trivial
  | some u => exact keeps_bind keepsRest_get fun c _ => keeps_liftM fun _ _ _ _ => trivial

theorem keepsRest_definition (p : EditPosition) (files : List FileBuffer) :
    KeepsRest c₀ (definition p files) := by
  unfold definition
  refine keeps_bind (keepsRest_unit? p.file) fun unit _ => ?_
  cases unit with
  | none => exact keeps_pure trivial
  | some u => exact keeps_bind keepsRest_get fun c _ => keeps_liftM fun _ _ _ _ => trivial

theorem keepsRest_container (p : EditPosition) :
    KeepsRest c₀ (container p) := by
  unfold container
  refine keeps_bind (keepsRest_unit? p.file) fun unit _ => ?_
  cases unit with
  | none => exact keeps_pure trivial
  | some u => exact keepsRest_orFault _

theorem keepsRest_occurrencesAmong (target : OccurrenceTarget) (within : FilePath)
    (files : List FileBuffer) :
    KeepsRest c₀ (occurrencesAmong target within files) := by
  induction files with
  | nil => exact keeps_pure trivial
  | cons f files ih =>
    unfold occurrencesAmong
    refine keeps_bind (keepsRest_unit? f) fun unit _ => ?_
    exact keeps_bind ih fun others _ => keeps_pure trivial

theorem keepsRest_otherFiles (key : FilePath) (files : List FileBuffer) :
    KeepsRest c₀ (otherFiles key files) :=
  keeps_bind keepsRest_get fun _ _ => keeps_pure trivial

theorem keepsRest_occurrences (p : EditPosition) (scope : OccurrenceScope)
    (files : List FileBuffer) (live : Bool) :
    KeepsRest c₀ (occurrences p scope files live) := by
  unfold occurrences
  refine keeps_bind (keepsRest_unit? p.file) fun unit _ => ?_
  cases unit with
  | none => exact keeps_pure trivial
  | some u =>
    refine keeps_bind (keepsRest_orFault _) fun target _ => ?_
    cases target with
    | none => exact keeps_pure trivial
    | some target =>
      cases scope with
      | currentFile => exact keeps_pure trivial
      | project =>
        refine keeps_bind keepsRest_get fun c _ => ?_
        cases live with
        | false =>
          have hnone : KeepsRest c₀ (pure ([] : List FileBuffer)) := keeps_pure trivial
          refine keeps_bind hnone fun others _ => ?_
          exact keeps_bind (keepsRest_occurrencesAmong _ _ _) fun found _ => keeps_pure trivial
        | true =>
          refine keeps_bind (keepsRest_keyOf _) fun key _ => ?_
          refine keeps_bind (keepsRest_otherFiles _ _) fun others _ => ?_
          exact keeps_bind (keepsRest_occurrencesAmong _ _ _) fun found _ => keeps_pure trivial

/-! ## Passes -/

section Passes

variable {c c' : AnalysisCore σ} {s s' : σ} {p : DiagnosticsPass}

/-- The only effect of announcing diagnostics is on the notifier. -/
theorem yieldsWith_announce_iff {channel : FilePath} {ds : List Diagnostic} {p : DiagnosticsPass} :
    YieldsWith (announce channel ds) c s p c' s' ↔
      p = ⟨channel, ds, (c.notifier.observe channel ds).1⟩ ∧
        c' = { c with notifier := (c.notifier.observe channel ds).2 } ∧ s' = s := by
  unfold announce
  simp only [yieldsWith_bind, yieldsWith_get, yieldsWith_modify, yieldsWith_pure]
  constructor
  · rintro ⟨_, _, _, ⟨rfl, rfl, rfl⟩, _, _, _, ⟨rfl, rfl⟩, rfl, rfl, rfl⟩
    exact ⟨rfl, rfl, rfl⟩
  · rintro ⟨rfl, rfl, rfl⟩
    exact ⟨c, c, _, ⟨rfl, rfl, rfl⟩, ⟨⟩, _, _, ⟨rfl, rfl⟩, rfl, rfl, rfl⟩

/-- Before the diagnostics of a file are announced the unit of the file is asked for. -/
theorem exists_announce_of_diagnostics {file : FileBuffer}
    (h : YieldsWith (diagnostics file) c s p c' s') :
    ∃ ds c₁ s₁, c.SameButUnits c₁ ∧
      YieldsWith (announce (file.path.normalize c.root) ds) c₁ s₁ p c' s' := by
  unfold diagnostics keyOf at h
  simp only [yieldsWith_bind, yieldsWith_get, yieldsWith_pure] at h
  obtain ⟨_, _, _, ⟨_, _, _, ⟨rfl, rfl, rfl⟩, rfl, rfl, rfl⟩, unit, c₁, s₁, hunit, _, _, _,
    ⟨rfl, rfl, rfl⟩, hannounce⟩ := h
  have hsame := (keepsRest_unit? file hunit (.refl _)).1
  cases unit with
  | none => exact ⟨_, _, _, hsame, hannounce⟩
  | some u =>
    obtain ⟨_, c₂, s₂, hread, hannounce⟩ := yieldsWith_bind.1 hannounce
    exact ⟨_, _, _, (keeps_getThe hread hsame).1, hannounce⟩

/-- Before the diagnostics of a project are announced its units are brought up to date. -/
theorem exists_announce_of_projectDiagnostics {files : List FileBuffer}
    {e : Enumeration ProjectUnit} (h : YieldsWith (projectDiagnostics files e) c s p c' s') :
    ∃ ds c₁ s₁, c₁ = { c with builder := c₁.builder, project := c₁.project } ∧
      YieldsWith (announce c₁.root ds) c₁ s₁ p c' s' := by
  unfold projectDiagnostics at h
  simp only [yieldsWith_bind, yieldsWith_get, yieldsWith_modify] at h
  obtain ⟨_, _, _, ⟨rfl, rfl, rfl⟩, r, _, _, hbuilding, _, _, _, ⟨rfl, rfl⟩, _, _, _,
    ⟨rfl, rfl, rfl⟩, hannounce⟩ := h
  obtain ⟨b, -, rfl⟩ := yieldsWith_building_iff.1 hbuilding
  exact ⟨_, _, _, rfl, hannounce⟩

end Passes

/-! ## Symbols -/

/-- A list of symbols is one that is kept, or it is that of the unit for the text and is kept from now
on. -/
theorem yieldsWith_symbols_iff {file : FileBuffer} {now : Nat} {c c' : AnalysisCore σ} {s s' : σ}
    {list : List Symbol} :
    YieldsWith (symbols file now) c s list c' s' ↔
      (c.symbols.lookup? (c.builder.key file.path) (.ofText file.code) now = some list ∧ c' = c ∧
        s' = s) ∨
      (c.symbols.lookup? (c.builder.key file.path) (.ofText file.code) now = none ∧
        ((list = [] ∧ YieldsWith (unit? file) c s none c' s') ∨
          ∃ u c₁, YieldsWith (unit? file) c s (some u) c₁ s' ∧ list = u.symbols ∧
            c' = { c₁ with
              symbols := c₁.symbols.store (c.builder.key file.path) (.ofText file.code) now
                u.symbols })) := by
  have hkey : YieldsWith (keyOf file.path) c s (c.builder.key file.path) c s := by
    unfold keyOf
    simp only [yieldsWith_bind, yieldsWith_get, yieldsWith_pure]
    exact ⟨c, c, s, ⟨rfl, rfl, rfl⟩, rfl, rfl, rfl⟩
  unfold symbols
  rw [yieldsWith_bind_of_yields hkey, yieldsWith_bind_of_yields (yieldsWith_get.2 ⟨rfl, rfl, rfl⟩)]
  cases c.symbols.lookup? (c.builder.key file.path) (.ofText file.code) now with
  | some kept => simp [eq_comm]
  | none =>
    simp only [reduceCtorEq, false_and, true_and, false_or]
    constructor
    · intro h
      obtain ⟨unit, c₁, s₁, hunit, hend⟩ := yieldsWith_bind.1 h
      cases unit with
      | none =>
        obtain ⟨rfl, rfl, rfl⟩ := yieldsWith_pure.1 hend
        exact .inl ⟨rfl, hunit⟩
      | some u =>
        obtain ⟨_, _, _, hmodify, hend⟩ := yieldsWith_bind.1 hend
        obtain ⟨rfl, rfl⟩ := yieldsWith_modify.1 hmodify
        obtain ⟨rfl, rfl, rfl⟩ := yieldsWith_pure.1 hend
        exact .inr ⟨u, c₁, hunit, rfl, rfl⟩
    · rintro (⟨rfl, hunit⟩ | ⟨u, c₁, hunit, rfl, rfl⟩)
      · exact yieldsWith_bind.2 ⟨none, _, _, hunit, yieldsWith_pure.2 ⟨rfl, rfl, rfl⟩⟩
      · refine yieldsWith_bind.2 ⟨some u, _, _, hunit, ?_⟩
        exact yieldsWith_bind.2 ⟨⟨⟩, _, _, yieldsWith_modify.2 ⟨rfl, rfl⟩,
          yieldsWith_pure.2 ⟨rfl, rfl, rfl⟩⟩

end CoreM

end SketchSense
