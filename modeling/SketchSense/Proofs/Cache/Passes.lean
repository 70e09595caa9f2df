import SketchSense.Proofs.Cache.Refreshing
import SketchSense.Proofs.Collation
import SketchSense.Proofs.FilePath.Kinds

/-!
# Passes over a project

A project keeps units from pass to pass and decides for each whether to keep it, to parse again in
it or to make it anew. Whichever it is, every unit was made of a source of some pass and of the
headers that were open then, and after a pass the units of its files are made of what is open now.

* `Pass` and `ProjectCache.Reached`, the caches that passes and clearing lead to;
* `UnitsSound` and `ProjectCache.Advanced`, what every step of a pass keeps, with
  `ProjectCache.unitsSound_of_reached`;
* `ProjectCache.Advanced.exists_refreshFiles`, that a pass gets through, and
  `ProjectCache.exists_refreshFiles_of_current`, that it does nothing where nothing changed.
-/

namespace SketchSense

open Model

/-! ## Passes -/

/-- A pass over some open files, with the builder and the engine it starts with. -/
structure Pass where
  builder : UnitBuilder ModelState
  state : ModelState
  files : List FileBuffer

namespace Pass

variable {p : Pass} {root : FilePath} {f : FileBuffer}

def headers (p : Pass) : List FileBuffer := openHeaders p.builder p.files

def sources (p : Pass) : List FileBuffer := ProjectCache.sourceFiles p.builder p.files

/-- Whether a key is that of a source. -/
def isOpen (p : Pass) (key : FilePath) : Bool := p.sources.any (·.path == key)

def headerPaths (p : Pass) : List FilePath := p.headers.map (·.path)

/-- What is hashed of the texts of a pass: the open headers together, and every text alone. -/
def hashed (p : Pass) : List (List UInt8) :=
  headersBytes p.headers :: (p.sources ++ p.headers).map fun f => ContentHash.textBytes f.code

/-- The pass is over a sketch in this directory, with an engine that never fails. -/
structure Fits (p : Pass) (root : FilePath) : Prop where
  engine : p.builder.engine = modelEngine
  root : p.builder.root = root
  quiet : p.state.Quiet

/-- The unit of the file was made of what is open in the pass. -/
def IsCurrent (p : Pass) (units : Table FilePath ProjectUnit) (f : FileBuffer) : Prop :=
  ∃ e, units.get? f.path = some e ∧ e.input = p.builder.projectInput f.path f.code p.headers

/-- A source of a pass is the text of an open file under its key. -/
theorem exists_of_mem_sources (h : f ∈ p.sources) :
    ∃ g ∈ p.files, g.kind.isProjectSource = true ∧ f = ⟨p.builder.key g.path, g.code⟩ ∧
      f.kind = g.kind := by
  obtain ⟨g, hg, rfl⟩ := List.mem_map.1 (mem_of_mem_keepFirst h)
  obtain ⟨hmem, hkind⟩ := List.mem_filter.1 hg
  refine ⟨g, hmem, hkind, rfl, FilePath.kind_normalize _ fun hother => ?_⟩
  unfold FileBuffer.kind at hkind
  rw [hother] at hkind
  cases hkind

/-- A header of a pass is the text of an open file under its key. -/
theorem exists_of_mem_headers (h : f ∈ p.headers) :
    ∃ g ∈ p.files, f = ⟨p.builder.key g.path, g.code⟩ ∧ f.kind = .header := by
  obtain ⟨g, hg, rfl⟩ := List.mem_map.1 h
  obtain ⟨hmem, hkind⟩ := List.mem_filter.1 hg
  have hheader : g.path.kind = .header := of_decide_eq_true hkind
  refine ⟨g, hmem, rfl, (FilePath.kind_normalize _ ?_).trans hheader⟩
  rw [hheader]
  decide

theorem kind_of_mem_headers (h : f ∈ p.headers) : f.kind = .header := by
  obtain ⟨-, -, -, hkind⟩ := exists_of_mem_headers h
  exact hkind

theorem Fits.path_of_mem_sources (hp : p.Fits root) (h : f ∈ p.sources) :
    ∃ path : FilePath, f.path = path.normalize root := by
  obtain ⟨g, -, -, rfl, -⟩ := exists_of_mem_sources h
  exact ⟨g.path, by rw [← hp.root]; rfl⟩

theorem pairwise_sources (p : Pass) :
    p.sources.Pairwise fun f g => (f.path == g.path) = false :=
  pairwise_keepFirst _ _

end Pass

/-! ## What every step keeps -/

/-- Every key is a normal path and has one unit. The unit of a file that is no sketch was made, in
one of the passes, of a source and the headers that were open then. -/
structure UnitsSound (root : FilePath) (passes : List Pass) (units : Table FilePath ProjectUnit) :
    Prop where
  distinct : units.Distinct
  keyed : ∀ e ∈ units.entries, ∃ path : FilePath, e.1 = path.normalize root
  made : ∀ e ∈ units.entries, e.1.kind ≠ .sketchEntry → ∃ p ∈ passes, ∃ f ∈ p.sources,
    e.2.Stands root e.1 f.code p.headers ∧ e.2.input = p.builder.projectInput e.1 f.code p.headers

namespace UnitsSound

variable {root : FilePath} {passes : List Pass} {units : Table FilePath ProjectUnit}

theorem empty (root : FilePath) (passes : List Pass) : UnitsSound root passes {} :=
  ⟨Table.distinct_empty, by simp, by simp⟩

theorem cons (h : UnitsSound root passes units) (p : Pass) : UnitsSound root (p :: passes) units :=
  ⟨h.distinct, h.keyed, fun e he hkind =>
    let ⟨q, hq, hmade⟩ := h.made e he hkind
    ⟨q, List.mem_cons_of_mem _ hq, hmade⟩⟩

theorem restrict (h : UnitsSound root passes units) (p : FilePath → Bool) :
    UnitsSound root passes (units.restrict p) :=
  ⟨h.distinct.restrict p, fun e he => h.keyed e (List.mem_filter.1 he).1,
    fun e he => h.made e (List.mem_filter.1 he).1⟩

/-- The unit found under a normal path is that of an entry with this very key. -/
theorem mem_of_get? (h : UnitsSound root passes units) {path : FilePath} {e : ProjectUnit}
    (he : units.get? (path.normalize root) = some e) :
    (path.normalize root, e) ∈ units.entries := by
  obtain ⟨k, hmem, hk⟩ := Table.exists_mem_of_find?_eq_some he
  obtain ⟨path', hpath'⟩ := h.keyed _ hmem
  dsimp only at hpath'
  rw [hpath'] at hk
  rwa [hpath', FilePath.normalize_eq_of_beq hk] at hmem

/-- A unit may be entered that was made of a source and the headers of one of the passes. -/
theorem insert (h : UnitsSound root passes units) {path key : FilePath} {e : ProjectUnit}
    (hkey : key = path.normalize root)
    (he : key.kind ≠ .sketchEntry → ∃ p ∈ passes, ∃ f ∈ p.sources,
      e.Stands root key f.code p.headers ∧ e.input = p.builder.projectInput key f.code p.headers) :
    UnitsSound root passes (units.insert key e) := by
  -- an entry that the table has afterwards was there before or is the new one
  have hentries (x : FilePath × ProjectUnit) (hx : x ∈ (units.insert key e).entries) :
      x ∈ units.entries ∨ x = (key, e) := by
    rcases Table.mem_put hx with hold | hnew | ⟨hunit, hbeq, y, hmem⟩
    · exact .inl hold
    · exact .inr hnew
    · obtain ⟨path', hpath'⟩ := h.keyed _ hmem
      dsimp only at hpath'
      rw [hpath', hkey] at hbeq
      refine .inr (Prod.ext ?_ hunit)
      rw [hpath', FilePath.normalize_eq_of_beq hbeq, hkey]
  refine ⟨h.distinct.insert key e, fun x hx => ?_, fun x hx hkind => ?_⟩
  · rcases hentries x hx with hold | rfl
    · exact h.keyed x hold
    · exact ⟨path, hkey⟩
  · rcases hentries x hx with hold | rfl
    · exact h.made x hold hkind
    · exact he hkind

end UnitsSound

namespace ProjectCache

variable {root : FilePath} {passes : List Pass} {p : Pass} {c c' : ProjectCache}
  {b b' : UnitBuilder ModelState} {s s' : ModelState} {done fs : List FileBuffer} {f : FileBuffer}

/-- A pass under way, in which some sources have been brought up to date. -/
structure Advanced (root : FilePath) (passes : List Pass) (p : Pass) (done : List FileBuffer)
    (c : ProjectCache) (b : UnitBuilder ModelState) (s : ModelState) : Prop where
  sound : UnitsSound root (p :: passes) c.units
  setup : p.builder.SameSetup b
  quiet : s.Quiet
  current : ∀ f ∈ done, f.kind ≠ .sketchEntry → p.IsCurrent c.units f

theorem Advanced.start (h : UnitsSound root passes c.units) (hp : p.Fits root) :
    Advanced root passes p [] c p.builder p.state :=
  ⟨h.cons p, .refl _, hp.quiet, by simp⟩

/-- The input of a unit is the same for every builder of one setup. -/
theorem projectInput_of_sameSetup (h : b.SameSetup b') (key : FilePath) (code : String)
    (headers : List FileBuffer) :
    b'.projectInput key code headers = b.projectInput key code headers := by
  rw [h]
  rfl

/-- What becomes of a source that is no sketch. -/
theorem Advanced.runFrom_refreshFile (h : Advanced root passes p done c b s) (hp : p.Fits root)
    (hf : f ∈ p.sources) (hkind : f.kind ≠ .sketchEntry) :
    (p.IsCurrent c.units f ∧ YieldsWith (c.refreshFile f.path f.code p.headers) b s
        { c with stats := c.stats.record .reused } b s) ∨
      Makes (c.refreshFile f.path f.code p.headers) c b s f.path f.code p.headers
        (p.builder.projectInput f.path f.code p.headers) := by
  obtain ⟨path, hpath⟩ := hp.path_of_mem_sources hf
  -- a unit that is there was made in some pass, for this very key
  have hold (e : ProjectUnit) (he : c.units.get? f.path = some e) :
      e.input.analyzed = f.path.analyzedName ∧
        ∃ code₀ headers₀, e.Stands b.root f.path code₀ headers₀ := by
    rw [hpath] at he
    have hmem := h.sound.mem_of_get? he
    rw [← hpath] at hmem
    obtain ⟨q, -, g, -, hstands, hinput⟩ := h.sound.made _ hmem hkind
    rw [h.setup.root_eq, hp.root]
    exact ⟨by rw [hinput]; rfl, g.code, q.headers, hstands⟩
  rw [← projectInput_of_sameSetup h.setup]
  have hengine := h.setup.engine_eq.trans hp.engine
  rcases ProjectCache.runFrom_refreshFile hengine h.quiet hkind hold with
    ⟨e, hget, hinput, hrun⟩ | hmakes
  · exact .inl ⟨⟨e, hget, hinput.trans (projectInput_of_sameSetup h.setup _ _ _)⟩, hrun⟩
  · exact .inr hmakes

/-- A source keeps its unit or gets another one. If it is no sketch, either way the unit is the one
for what is open. -/
theorem Advanced.refreshFile_cases (h : Advanced root passes p done c b s) (hp : p.Fits root)
    (hf : f ∈ p.sources)
    (hrun : YieldsWith (c.refreshFile f.path f.code p.headers) b s c' b' s') :
    (c'.units = c.units ∧ (f.kind ≠ .sketchEntry → p.IsCurrent c.units f)) ∨
      ∃ e : ProjectUnit, c'.units = c.units.insert f.path e ∧ (f.kind ≠ .sketchEntry →
        e.Stands root f.path f.code p.headers ∧
          e.input = p.builder.projectInput f.path f.code p.headers) := by
  -- of a sketch it is only said that no other unit changes
  by_cases hkind : f.kind = .sketchEntry
  · obtain ⟨-, hunits⟩ := framed_of_refreshFile (h.setup.engine_eq.trans hp.engine) hrun
    rcases hunits with hsame | ⟨e, hnew⟩
    · exact .inl ⟨hsame, fun hne => absurd hkind hne⟩
    · exact .inr ⟨e, hnew, fun hne => absurd hkind hne⟩
  · rcases h.runFrom_refreshFile hp hf hkind with
      ⟨hcurrent, hreused⟩ | ⟨entry, stats, t, -, hmade, hentry⟩
    · obtain ⟨hanswer, -⟩ := Yields.unique hrun hreused
      cases hanswer
      exact .inl ⟨rfl, fun _ => hcurrent⟩
    · unfold YieldsWith Yields at hrun
      rw [hmade] at hrun
      cases hbuild : buildUnit f.path (⟨f.path, f.code⟩ :: p.headers) with
      | error fault =>
        rw [hbuild] at hrun
        cases hrun
      | ok u =>
        rw [hbuild] at hrun
        cases hrun
        obtain ⟨hstands, hinput⟩ := hentry u hbuild
        rw [h.setup.root_eq, hp.root] at hstands
        exact .inr ⟨entry u, rfl, fun _ => ⟨hstands, hinput⟩⟩

/-- Bringing one more source up to date leaves those before it up to date. -/
theorem Advanced.refreshFile (h : Advanced root passes p done c b s) (hp : p.Fits root)
    (hf : f ∈ p.sources) (hnew : ∀ g ∈ done, (g.path == f.path) = false)
    (hrun : YieldsWith (c.refreshFile f.path f.code p.headers) b s c' b' s') :
    Advanced root passes p (done ++ [f]) c' b' s' := by
  obtain ⟨path, hpath⟩ := hp.path_of_mem_sources hf
  obtain ⟨hframe, -⟩ := framed_of_refreshFile (h.setup.engine_eq.trans hp.engine) hrun
  have hsetup := h.setup.trans hframe.setup
  have hquiet := h.quiet.of_sameScript hframe.script
  rcases h.refreshFile_cases hp hf hrun with ⟨hsame, hcurrent⟩ | ⟨e, hunits, he⟩
  · refine ⟨hsame ▸ h.sound, hsetup, hquiet, fun g hg hkind => ?_⟩
    rw [hsame]
    rcases List.mem_append.1 hg with hg | hg
    · exact h.current g hg hkind
    · rw [List.mem_singleton.1 hg] at hkind ⊢
      exact hcurrent hkind
  · refine ⟨?_, hsetup, hquiet, fun g hg hkind => ?_⟩
    · rw [hunits]
      refine h.sound.insert hpath fun hkind => ⟨p, List.mem_cons_self, f, hf, he hkind⟩
    · unfold Pass.IsCurrent
      rw [hunits]
      rcases List.mem_append.1 hg with hg | hg
      · have hne : (f.path == g.path) = false := by rw [BEq.comm, hnew g hg]
        rw [Table.get?_insert_of_ne _ hne]
        exact h.current g hg hkind
      · rw [List.mem_singleton.1 hg] at hkind ⊢
        exact ⟨e, Table.get?_insert_self _ _ _, (he hkind).2⟩

theorem yieldsWith_refreshFiles_cons {σ : Type} {b b' : UnitBuilder σ} {s s' : σ}
    {headers : List FileBuffer} :
    YieldsWith (refreshFiles headers c (f :: fs)) b s c' b' s' ↔
      ∃ d b₁ s₁, YieldsWith (c.refreshFile f.path f.code headers) b s d b₁ s₁ ∧
        YieldsWith (refreshFiles headers d fs) b₁ s₁ c' b' s' :=
  yieldsWith_bind

/-- The sources of a pass that come before some of its sources have other keys. -/
theorem path_ne_of_append (hparts : done ++ f :: fs = p.sources) :
    ∀ g ∈ done, (g.path == f.path) = false := fun g hg =>
  (List.pairwise_append.1 (hparts ▸ p.pairwise_sources)).2.2 g hg f List.mem_cons_self

/-- After all sources have been brought up to date, they are. -/
theorem Advanced.refreshFiles (h : Advanced root passes p done c b s) (hp : p.Fits root)
    (hparts : done ++ fs = p.sources)
    (hrun : YieldsWith (refreshFiles p.headers c fs) b s c' b' s') :
    Advanced root passes p p.sources c' b' s' := by
  -- the sources that are done move over to `done`, one by one
  induction fs generalizing done c b s with
  | nil =>
    obtain ⟨rfl, rfl, rfl⟩ := yieldsWith_pure.1 hrun
    rwa [← hparts, List.append_nil]
  | cons f fs ih =>
    obtain ⟨d, b₁, s₁, hfile, hrest⟩ := yieldsWith_refreshFiles_cons.1 hrun
    have hf : f ∈ p.sources := by rw [← hparts]; simp
    refine ih (h.refreshFile hp hf (path_ne_of_append hparts) hfile) ?_ hrest
    rw [List.append_assoc]
    exact hparts

/-- A pass brings its sources up to date and keeps their units only. -/
theorem yieldsWith_refresh {σ : Type} {b b' : UnitBuilder σ} {s s' : σ} {files : List FileBuffer}
    {listed : List Diagnostic} {e : Enumeration ProjectUnit} :
    YieldsWith (c.refresh files e) b s (listed, c') b' s' ↔
      ∃ d, YieldsWith (refreshFiles (openHeaders b files) c (sourceFiles b files)) b s d b' s' ∧
        c' = ⟨d.units.restrict fun key => (sourceFiles b files).any (·.path == key), d.stats⟩ ∧
        listed = mergedDiagnostics (c'.units.valuesIn e) := by
  unfold refresh
  simp only [yieldsWith_bind, yieldsWith_get, yieldsWith_pure, Prod.mk.injEq]
  constructor
  · rintro ⟨_, _, _, ⟨rfl, rfl, rfl⟩, d, _, _, hrun, ⟨hlisted, rfl⟩, rfl, rfl⟩
    exact ⟨d, hrun, rfl, hlisted⟩
  · rintro ⟨d, hrun, rfl, hlisted⟩
    exact ⟨b, b, s, ⟨rfl, rfl, rfl⟩, d, b', s', hrun, ⟨hlisted, rfl⟩, rfl, rfl⟩

/-- The caches that some passes, the last one first, and clearing in between lead to. -/
inductive Reached : List Pass → ProjectCache → Prop
  | empty : Reached [] {}
  | refresh {passes : List Pass} {p : Pass} {c c' : ProjectCache} {listed : List Diagnostic}
      {b' : UnitBuilder ModelState} {s' : ModelState} {e : Enumeration ProjectUnit}
      (hc : Reached passes c)
      (h : YieldsWith (c.refresh p.files e) p.builder p.state (listed, c') b' s') :
      Reached (p :: passes) c'
  | clear {passes : List Pass} {c : ProjectCache} (hc : Reached passes c) : Reached passes c.clear

/-- Every unit that a project keeps was made in one of its passes. -/
theorem unitsSound_of_reached (h : Reached passes c) (hfits : ∀ p ∈ passes, p.Fits root) :
    UnitsSound root passes c.units := by
  induction h with
  | empty => exact .empty _ _
  | @refresh passes p c c' listed b' s' e _ hrun ih =>
    have hsound := ih fun q hq => hfits q (List.mem_cons_of_mem _ hq)
    have hp := hfits p List.mem_cons_self
    obtain ⟨d, hfiles, rfl, -⟩ := yieldsWith_refresh.1 hrun
    have hdone := (Advanced.start hsound hp).refreshFiles hp (List.nil_append _) hfiles
    exact hdone.sound.restrict p.isOpen
  | clear _ _ => exact .empty _ _

/-! ## A pass over files that are no sketches -/

/-- The engine can read all that it is given for a source. -/
theorem exists_buildUnit (hf : f ∈ p.sources)
    (hreads : ∀ g ∈ p.sources ++ p.headers, (FileModel.ofBuffer g).isOk) :
    ∃ u, buildUnit f.path (f :: p.headers) = .ok u := by
  have hread (g : FileBuffer) (hg : g ∈ mainLast f.path (f :: p.headers)) :
      ∃ m, FileModel.ofBuffer g = .ok m := by
    have hmem : g ∈ f :: p.headers := by
      rcases List.mem_append.1 hg with hg | hg <;> exact (List.mem_filter.1 hg).1
    refine exists_of_isOk (hreads g ?_)
    rcases List.mem_cons.1 hmem with rfl | hmem
    · exact List.mem_append_left _ hf
    · exact List.mem_append_right _ hmem
  obtain ⟨files, hfiles⟩ := exists_mapM_eq_ok hread
  exact ⟨_, buildUnit_eq_ok.2 ⟨files, hfiles, rfl⟩⟩

/-- Files that are no sketches and that the engine can read are brought up to date, and the builder
remembers nothing of them. -/
theorem Advanced.exists_refreshFiles (h : Advanced root passes p done c p.builder s)
    (hp : p.Fits root) (hparts : done ++ fs = p.sources)
    (hplain : ∀ f ∈ p.sources, f.kind ≠ .sketchEntry)
    (hreads : ∀ g ∈ p.sources ++ p.headers, (FileModel.ofBuffer g).isOk) :
    ∃ c' s', YieldsWith (ProjectCache.refreshFiles p.headers c fs) p.builder s c' p.builder s' := by
  induction fs generalizing done c s with
  | nil => exact ⟨c, s, yieldsWith_pure.2 ⟨rfl, rfl, rfl⟩⟩
  | cons f fs ih =>
    have hf : f ∈ p.sources := by rw [← hparts]; simp
    have hfile : ∃ d s₁, YieldsWith (c.refreshFile f.path f.code p.headers) p.builder s d
        p.builder s₁ := by
      rcases h.runFrom_refreshFile hp hf (hplain f hf) with
        ⟨-, hreused⟩ | ⟨entry, stats, t, -, hmade, -⟩
      · exact ⟨_, _, hreused⟩
      · obtain ⟨u, hu⟩ := exists_buildUnit hf hreads
        rw [hu] at hmade
        exact ⟨_, _, hmade⟩
    obtain ⟨d, s₁, hfile⟩ := hfile
    have hnext := h.refreshFile hp hf (path_ne_of_append hparts) hfile
    obtain ⟨c', s', hrest⟩ := ih hnext (by rw [List.append_assoc]; exact hparts)
    exact ⟨c', s', yieldsWith_refreshFiles_cons.2 ⟨d, p.builder, s₁, hfile, hrest⟩⟩

/-- Sources that are up to date take no step of the engine. -/
theorem exists_refreshFiles_of_current (s : ModelState) (h : ∀ f ∈ fs, p.IsCurrent c.units f) :
    ∃ stats, YieldsWith (refreshFiles p.headers c fs) p.builder s ⟨c.units, stats⟩ p.builder s := by
  induction fs generalizing c with
  | nil => exact ⟨c.stats, yieldsWith_pure.2 ⟨rfl, rfl, rfl⟩⟩
  | cons f fs ih =>
    obtain ⟨e, he, hinput⟩ := h f List.mem_cons_self
    have hfile := yieldsWith_refreshFile_of_current s he hinput
    obtain ⟨stats, hrest⟩ := ih (c := { c with stats := c.stats.record .reused })
      fun g hg => h g (List.mem_cons_of_mem _ hg)
    exact ⟨stats, yieldsWith_refreshFiles_cons.2 ⟨_, _, _, hfile, hrest⟩⟩

end ProjectCache

end SketchSense
