import Mathlib.Logic.Relation
import SketchSense.Analysis.Request
import SketchSense.Proofs.Cache.Likeness

/-!
# Analyses that answer alike

Two analyses that keep the same answer one request alike, and so they do if the paths in one of the
requests are spelled in another way, as long as nothing is asked for by the spelling itself.

* `AnalysisCore.KeepsSame` and `AnalysisCore.Continues`, together `AnalysisCore.Matches`;
* `Request.Respells`, a request under other spellings;
* one lemma for every operation, and `CoreM.runsAlike_answer`, that requests are answered alike.
-/

namespace SketchSense

variable {σ α β : Type}

/-! ## What decides the answers -/

namespace AnalysisCore

/-- The analyses keep the same. The numbers about the work of their caches may differ. -/
structure KeepsSame (c d : AnalysisCore σ) : Prop where
  builder : d.builder = c.builder
  disk : d.disk = c.disk
  units : d.units.units = c.units.units
  project : d.project.units = c.project.units
  symbols : d.symbols = c.symbols
  notifier : d.notifier = c.notifier
  completionLimit : d.completionLimit = c.completionLimit

/-- The analysis `c` is what answering made of `o`: it is set up in the same way, and its units were
come by in requests. -/
structure Continues (o c : AnalysisCore σ) : Prop where
  setup : o.builder.SameSetup c.builder
  sameDisk : c.disk = o.disk
  sameGrace : c.symbols.grace = o.symbols.grace
  sameLimit : c.completionLimit = o.completionLimit
  resolved : Relation.ReflTransGen (UnitCache.Resolves o.builder) o.units c.units

/-- The analyses keep the same, and they continue `o`. -/
structure Matches (o c d : AnalysisCore σ) : Prop extends KeepsSame c d, Continues o c

theorem KeepsSame.refl (c : AnalysisCore σ) : c.KeepsSame c := ⟨rfl, rfl, rfl, rfl, rfl, rfl, rfl⟩

theorem KeepsSame.trans {c d e : AnalysisCore σ} (h : c.KeepsSame d) (h' : d.KeepsSame e) :
    c.KeepsSame e :=
  ⟨h'.builder.trans h.builder, h'.disk.trans h.disk, h'.units.trans h.units,
    h'.project.trans h.project, h'.symbols.trans h.symbols, h'.notifier.trans h.notifier,
    h'.completionLimit.trans h.completionLimit⟩

theorem Continues.refl (c : AnalysisCore σ) : c.Continues c :=
  ⟨.refl c.builder, rfl, rfl, rfl, .refl⟩

variable {o c d : AnalysisCore σ}

theorem KeepsSame.matches (h : c.KeepsSame d) : c.Matches c d := ⟨h, .refl c⟩

theorem Matches.root_eq (h : o.Matches c d) : d.root = c.root := by
  unfold AnalysisCore.root
  rw [h.builder]

theorem Matches.key_eq (h : o.Matches c d) {p q : FilePath}
    (hpath : q.normalize o.root = p.normalize o.root) : d.builder.key q = c.builder.key p := by
  rw [h.builder, h.setup.key_eq, h.setup.key_eq]
  exact hpath

end AnalysisCore

/-! ## Requests under other spellings -/

/-- A position in the same file under another spelling. -/
structure EditPosition.Respells (root : FilePath) (p q : EditPosition) : Prop where
  file : p.file.Respells root q.file
  line : q.line = p.line
  column : q.column = p.column

/-- Under every path the same text is found among the open files. -/
def FoundAlike (files others : List FileBuffer) : Prop :=
  ∀ path, codeOf? path others = codeOf? path files

/-- A request under other spellings. The open files of a question about a name are looked up as
they are spelled; where files are chosen by their kinds, so do the spellings have to be. -/
inductive Request.Respells (root : FilePath) : Request → Request → Prop
  | diagnostics {f g : FileBuffer} (h : f.Respells root g) :
      Respells root (.diagnostics f) (.diagnostics g)
  | completions {p q : EditPosition} (h : p.Respells root q) :
      Respells root (.completions p) (.completions q)
  | hover {p q : EditPosition} {files others : List FileBuffer} (h : p.Respells root q)
      (hfound : FoundAlike files others) : Respells root (.hover p files) (.hover q others)
  | definition {p q : EditPosition} {files others : List FileBuffer} (h : p.Respells root q)
      (hfound : FoundAlike files others) : Respells root (.definition p files) (.definition q others)
  | occurrences {p q : EditPosition} {scope : OccurrenceScope} {files others : List FileBuffer}
      (h : p.Respells root q)
      (hfiles : scope = .project → List.Forall₂ (FileBuffer.RespellsKind root) files others) :
      Respells root (.occurrences p scope files) (.occurrences q scope others)
  | symbols {f g : FileBuffer} {now : Nat} (h : f.Respells root g) :
      Respells root (.symbols f now) (.symbols g now)
  | container {p q : EditPosition} (h : p.Respells root q) :
      Respells root (.container p) (.container q)
  | project {files others : List FileBuffer}
      (h : List.Forall₂ (FileBuffer.RespellsKind root) files others) :
      Respells root (.project files) (.project others)

theorem Request.Respells.refl (root : FilePath) (r : Request) : r.Respells root r := by
  have hfile (f : FileBuffer) : f.Respells root f := .refl root f
  have hposition (p : EditPosition) : p.Respells root p := ⟨hfile p.file, rfl, rfl⟩
  have hfiles (fs : List FileBuffer) : List.Forall₂ (FileBuffer.RespellsKind root) fs fs :=
    List.forall₂_same.2 fun f _ => .refl root f
  cases r with
  | diagnostics f => exact .diagnostics (hfile f)
  | completions p => exact .completions (hposition p)
  | hover p files => exact .hover (hposition p) fun _ => rfl
  | definition p files => exact .definition (hposition p) fun _ => rfl
  | occurrences p scope files => exact .occurrences (hposition p) fun _ => hfiles files
  | symbols f now => exact .symbols (hfile f)
  | container p => exact .container (hposition p)
  | project files => exact .project (hfiles files)

/-! ## Questions that look for texts -/

section Texts

variable (b : UnitBuilder σ) {t t' : SourceTexts} (h : ∀ path, t'.text? path = t.text? path)

include h

theorem definitionAmong?_congr (key : FunctionKey) (paths : List FilePath) :
    definitionAmong? b t' key paths = definitionAmong? b t key paths := by
  induction paths with
  | nil => rfl
  | cons path rest ih =>
    unfold definitionAmong?
    rw [h, ih]

theorem siblingDefinition?_congr (c : Cursor) :
    siblingDefinition? b t' c = siblingDefinition? b t c := by
  unfold siblingDefinition?
  split
  · rfl
  · exact definitionAmong?_congr b h _ _

theorem findDefinition?_congr (e : CachedUnit) (line column : Nat) :
    findDefinition? b t' e line column = findDefinition? b t e line column := by
  unfold findDefinition?
  simp only [siblingDefinition?_congr b h]

theorem siblingDocumentation_congr (c : Cursor) (code : String) :
    siblingDocumentation b t' c code = siblingDocumentation b t c code := by
  unfold siblingDocumentation
  simp only [siblingDefinition?_congr b h, h]

theorem documentationOf_congr (u : CompilationUnit) (c : Cursor) :
    documentationOf b t' u c = documentationOf b t u c := by
  unfold documentationOf
  simp only [siblingDocumentation_congr b h, h]

theorem hover?_congr (e : CachedUnit) (line column : Nat) :
    hover? b t' e line column = hover? b t e line column := by
  unfold hover? hoverOf
  simp only [documentationOf_congr b h]

end Texts

/-- Where open files are found alike, so are all texts. -/
theorem AnalysisCore.Matches.text?_eq {o c d : AnalysisCore σ} (h : o.Matches c d)
    {files others : List FileBuffer} (hfound : FoundAlike files others) (u : CachedUnit)
    (path : FilePath) : (d.textsFor u others).text? path = (c.textsFor u files).text? path := by
  unfold AnalysisCore.textsFor SourceTexts.text?
  rw [h.disk, hfound]

namespace CoreM

/-! ## Steps -/

/-- The computations run alike on analyses that keep the same and are set up like `o`. -/
abbrev RunsAlike (o : AnalysisCore σ) (x : CoreM σ α) (y : CoreM σ β) (Q : α → β → Prop) : Prop :=
  Alike o.Matches x y Q

variable {o : AnalysisCore σ}

/-- Building is what it is on the builder. -/
theorem runFrom_building (x : BuildM σ α) (c : AnalysisCore σ) (s : σ) :
    EngineM.runFrom ((building x).run c) s = match EngineM.runFrom (x.run c.builder) s with
      | (.ok (a, builder), s') => (.ok (a, { c with builder }), s')
      | (.error e, s') => (.error e, s') := by
  have hget : YieldsWith (get : CoreM σ (AnalysisCore σ)) c s c c s := yieldsWith_get.2 ⟨rfl, rfl, rfl⟩
  unfold building
  rw [runFrom_run_bind_of_yields _ hget, runFrom_run_liftM_bind]
  cases EngineM.runFrom (x.run c.builder) s with
  | mk r s' => cases r <;> rfl

theorem runsAlike_building {x : BuildM σ α} {y : BuildM σ β} {Q : α → β → Prop}
    (h : o.builder.BuildsAlike x y Q) : RunsAlike o (building x) (building y) Q := by
  intro c d s hcd
  have hends := h s ⟨hcd.builder, hcd.setup⟩
  rw [runFrom_building, runFrom_building]
  generalize EngineM.runFrom (x.run c.builder) s = first,
    EngineM.runFrom (y.run d.builder) s = second at hends ⊢
  cases hends with
  | ok s' hab htu => exact .ok s' hab { hcd with builder := htu.1, setup := htu.2 }
  | fault e s' => exact .fault e s'

/-- A computation that runs like itself goes on from where it starts. -/
theorem RunsAlike.continues {x : CoreM σ α} {Q : α → α → Prop} {c c' : AnalysisCore σ} {s s' : σ}
    {a : α} (hx : RunsAlike c x x Q) (h : YieldsWith x c s a c' s') : c.Continues c' := by
  obtain ⟨_, _, -, -, hmatches⟩ := hx.exists_yieldsWith (AnalysisCore.KeepsSame.refl c).matches h
  exact hmatches.toContinues

theorem runsAlike_keyOf {p q : FilePath} (hpath : q.normalize o.root = p.normalize o.root) :
    RunsAlike o (keyOf p) (keyOf q) Eq := by
  unfold keyOf
  apply alike_bind alike_get
  intro c d hcd
  exact alike_pure (hcd.key_eq hpath).symm

theorem runsAlike_unitWith? {f g : FileBuffer} (hfile : f.Respells o.root g) (stale : Bool) :
    RunsAlike o (unitWith? stale f) (unitWith? stale g) Eq := by
  unfold unitWith?
  apply alike_bind alike_get
  intro c d hcd
  rw [hfile.code]
  have hresolve := UnitCache.buildsAlike_resolveWith hcd.units hfile.key stale f.code
  apply alike_bind (runsAlike_building hresolve.and_run)
  rintro ⟨_, units⟩ ⟨r, units'⟩ ⟨⟨rfl, hunits⟩, t, u, s, t', s', ⟨rfl, ht⟩, hrun⟩
  have hresolved := hcd.resolved.tail ⟨_, t', s, s', stale, f.path, f.code, _, ht, hrun⟩
  apply alike_bind (alike_modify fun c d hcd => { hcd with units := hunits, resolved := hresolved })
  intro _ _ _
  cases r with
  | ok found => exact alike_pure rfl
  | error e => exact alike_pure rfl

theorem runsAlike_announce {channel channel' : FilePath} (hchannel : channel = channel')
    {ds ds' : List Diagnostic} (hds : ds = ds') :
    RunsAlike o (announce channel ds) (announce channel' ds') Eq := by
  subst hchannel hds
  unfold announce
  apply alike_bind alike_get
  intro c d hcd
  rw [hcd.notifier]
  apply alike_bind (alike_modify fun c d hcd => { hcd with notifier := rfl })
  intro _ _ _
  exact alike_pure rfl

/-! ## Operations -/

theorem runsAlike_diagnostics {f g : FileBuffer} (hfile : f.Respells o.root g) :
    RunsAlike o (diagnostics f) (diagnostics g) Eq := by
  unfold diagnostics
  apply alike_bind (runsAlike_keyOf hfile.key)
  rintro key _ rfl
  apply alike_bind (runsAlike_unitWith? hfile false)
  rintro unit _ rfl
  apply alike_bind alike_get
  intro c d hcd
  cases unit with
  | some u =>
    apply alike_bind alike_getThe
    rintro s _ rfl
    apply runsAlike_announce rfl
    rw [hcd.builder, hcd.root_eq]
  | none =>
    apply runsAlike_announce rfl
    rw [hcd.root_eq]

theorem runsAlike_projectDiagnostics {files others : List FileBuffer}
    (h : List.Forall₂ (FileBuffer.RespellsKind o.root) files others) (e : Enumeration ProjectUnit) :
    RunsAlike o (projectDiagnostics files e) (projectDiagnostics others e) Eq := by
  unfold projectDiagnostics
  apply alike_bind alike_get
  intro c d hcd
  apply alike_bind (runsAlike_building (ProjectCache.buildsAlike_refresh hcd.project h e))
  rintro ⟨ds, project⟩ ⟨_, project'⟩ ⟨rfl, hproject⟩
  apply alike_bind (alike_modify fun c d hcd => { hcd with project := hproject })
  intro _ _ _
  apply alike_bind alike_get
  intro c d hcd
  exact runsAlike_announce hcd.root_eq.symm rfl

theorem runsAlike_completions {p q : EditPosition} (h : p.Respells o.root q) :
    RunsAlike o (completions p) (completions q) Eq := by
  unfold completions
  rw [h.line, h.column, h.file.code]
  apply alike_bind (runsAlike_unitWith? h.file true)
  rintro unit _ rfl
  cases unit with
  | none => exact alike_pure rfl
  | some u =>
    apply alike_bind (runsAlike_keyOf h.file.key)
    rintro key _ rfl
    apply alike_bind (runsAlike_building (alike_of_keeps (keepsSetup_buildSources key p.file.code)))
    rintro _ now ⟨rfl, -⟩
    apply alike_bind alike_get
    intro c d hcd
    apply alike_bind alike_getThe
    rintro s _ rfl
    rw [hcd.builder, hcd.root_eq, hcd.completionLimit]
    apply alike_bind (alike_liftM _)
    rintro items _ rfl
    exact alike_pure rfl

theorem runsAlike_hover {p q : EditPosition} (h : p.Respells o.root q)
    {files others : List FileBuffer} (hfound : FoundAlike files others) :
    RunsAlike o (hover p files) (hover q others) Eq := by
  unfold hover
  rw [h.line, h.column]
  apply alike_bind (runsAlike_unitWith? h.file false)
  rintro unit _ rfl
  cases unit with
  | none => exact alike_pure rfl
  | some u =>
    apply alike_bind alike_get
    intro c d hcd
    rw [hcd.builder, hover?_congr c.builder (hcd.text?_eq hfound u)]
    exact alike_liftM _

theorem runsAlike_definition {p q : EditPosition} (h : p.Respells o.root q)
    {files others : List FileBuffer} (hfound : FoundAlike files others) :
    RunsAlike o (definition p files) (definition q others) Eq := by
  unfold definition
  rw [h.line, h.column]
  apply alike_bind (runsAlike_unitWith? h.file false)
  rintro unit _ rfl
  cases unit with
  | none => exact alike_pure rfl
  | some u =>
    apply alike_bind alike_get
    intro c d hcd
    rw [hcd.builder, findDefinition?_congr c.builder (hcd.text?_eq hfound u)]
    exact alike_liftM _

theorem runsAlike_container {p q : EditPosition} (h : p.Respells o.root q) :
    RunsAlike o (container p) (container q) Eq := by
  unfold container
  rw [h.line, h.column]
  apply alike_bind (runsAlike_unitWith? h.file false)
  rintro unit _ rfl
  cases unit with
  | none => exact alike_pure rfl
  | some u => exact alike_liftM _

theorem runsAlike_occurrencesAmong (target : OccurrenceTarget) {files others : List FileBuffer}
    (h : List.Forall₂ (FileBuffer.RespellsKind o.root) files others) (within : FilePath) :
    RunsAlike o (occurrencesAmong target within files) (occurrencesAmong target within others) Eq := by
  induction h with
  | nil => exact alike_pure rfl
  | cons hfg _ ih =>
    unfold occurrencesAmong
    apply alike_bind (runsAlike_unitWith? hfg.toRespells false)
    rintro unit _ rfl
    apply alike_bind ih
    rintro found _ rfl
    exact alike_pure rfl

/-- The other files of a snapshot are chosen by kind and key. -/
theorem runsAlike_otherFiles (key : FilePath) {files others : List FileBuffer}
    (h : List.Forall₂ (FileBuffer.RespellsKind o.root) files others) :
    RunsAlike o (otherFiles key files) (otherFiles key others)
      (List.Forall₂ (FileBuffer.RespellsKind o.root)) := by
  unfold otherFiles
  apply alike_bind alike_get
  intro c d hcd
  apply alike_pure
  induction h with
  | nil => exact .nil
  | cons hfg _ ih =>
    rw [List.filter_cons, List.filter_cons, hfg.kind, hcd.key_eq hfg.key]
    split
    · exact .cons hfg ih
    · exact ih

theorem runsAlike_occurrences {p q : EditPosition} (h : p.Respells o.root q)
    {scope : OccurrenceScope} {files others : List FileBuffer}
    (hfiles : scope = .project → List.Forall₂ (FileBuffer.RespellsKind o.root) files others)
    (live : Bool) :
    RunsAlike o (occurrences p scope files live) (occurrences q scope others live) Eq := by
  unfold occurrences
  rw [h.line, h.column]
  apply alike_bind (runsAlike_unitWith? h.file false)
  rintro unit _ rfl
  cases unit with
  | none => exact alike_pure rfl
  | some u =>
    apply alike_bind (alike_liftM _)
    rintro target _ rfl
    cases target with
    | none => exact alike_pure rfl
    | some target =>
      cases scope with
      | currentFile => exact alike_pure rfl
      | project =>
        apply alike_bind alike_get
        intro c d hcd
        rw [hcd.root_eq]
        have hamong (fs gs : List FileBuffer)
            (hfs : List.Forall₂ (FileBuffer.RespellsKind o.root) fs gs) :=
          alike_bind (R := o.Matches) (runsAlike_occurrencesAmong target hfs c.root)
            fun found found' hfound => alike_pure (congrArg (fun ls => Location.sortUnique
              (u.occurrences target (some c.root) ++ ls)) hfound)
        cases live with
        | false => exact alike_bind (alike_pure List.Forall₂.nil) hamong
        | true =>
          apply alike_bind (runsAlike_keyOf h.file.key)
          rintro key _ rfl
          exact alike_bind (runsAlike_otherFiles key (hfiles rfl)) hamong

theorem runsAlike_symbols {f g : FileBuffer} (hfile : f.Respells o.root g) (now : Nat) :
    RunsAlike o (symbols f now) (symbols g now) Eq := by
  unfold symbols
  rw [hfile.code]
  apply alike_bind (runsAlike_keyOf hfile.key)
  rintro key _ rfl
  apply alike_bind alike_get
  intro c d hcd
  rw [hcd.symbols]
  split
  · exact alike_pure rfl
  · apply alike_bind (runsAlike_unitWith? hfile false)
    rintro unit _ rfl
    cases unit with
    | none => exact alike_pure rfl
    | some u =>
      apply alike_bind (alike_modify fun c d hcd =>
        { hcd with symbols := by rw [hcd.symbols], sameGrace := hcd.sameGrace })
      intro _ _ _
      exact alike_pure rfl

/-! ## Requests -/

/-- Analyses that keep the same answer a request under other spellings with the same. -/
theorem runsAlike_answer {r r' : Request} (h : r.Respells o.root r') (live : Bool)
    (e : Enumeration ProjectUnit) : RunsAlike o (answer live r e) (answer live r' e) Eq := by
  have hanswer {α : Type} {x y : CoreM σ α} (hxy : RunsAlike o x y Eq) (f : α → Answer) :
      RunsAlike o (x >>= fun a => pure (f a)) (y >>= fun a => pure (f a)) Eq :=
    alike_bind hxy fun _ _ hab => alike_pure (congrArg f hab)
  cases h with
  | diagnostics h => exact hanswer (runsAlike_diagnostics h) _
  | completions h => exact hanswer (runsAlike_completions h) _
  | hover h hfound => exact hanswer (runsAlike_hover h hfound) _
  | definition h hfound => exact hanswer (runsAlike_definition h hfound) _
  | occurrences h hfiles => exact hanswer (runsAlike_occurrences h hfiles live) _
  | symbols h => exact hanswer (runsAlike_symbols h _) _
  | container h => exact hanswer (runsAlike_container h) _
  | project h => exact hanswer (runsAlike_projectDiagnostics h e) _

end CoreM

end SketchSense
