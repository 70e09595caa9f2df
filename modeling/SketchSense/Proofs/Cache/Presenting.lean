import SketchSense.Cache.Project
import SketchSense.Proofs.Cache.Building
import SketchSense.Proofs.Collation
import SketchSense.Proofs.Engine.Keeping
import SketchSense.Proofs.FilePath.Kinds

/-!
# How cached units present their files

Whatever the engine does and however the arguments change, a unit that is kept presents the file of
its key under the analysed name of that file, and what a project reports was collected for such a
unit, or is the failure of a file that has none.

* `CachedUnit.Presents` and `CachedUnit.PresentsAlone`, with `keeps_build` and `keeps_reparse`;
* `UnitCache.Presenting` and `ProjectCache.Presenting`, what is true of all that is kept;
* `UnitCache.keeps_resolveWith` and `ProjectCache.keeps_refresh`.
-/

namespace SketchSense

variable {σ : Type} {root : FilePath} {K : FilePath → Prop}

/-! ## Sources -/

/-- The sources are those of a file with a path: its map leads from there to its analysed name, and
a file that is no sketch has no texts but its own. -/
structure Sources.Presents (s : Sources) (path : FilePath) : Prop where
  edited : s.map.edited = path
  analyzed : s.map.analyzed = path.analyzedName
  plain : path.kind ≠ .sketchEntry → ∀ t ∈ s.unsaved, t.path = path

theorem Transformer.presents_of_sources {t t' : Transformer} {e : Engine σ} {path : FilePath}
    {code : String} {args : List String} {s s' : σ} {made : Sources}
    (h : Yields (t.sources e path code args) s (made, t') s') : made.Presents path := by
  by_cases hkind : path.kind = .sketchEntry
  · -- a sketch is renamed, and the map starts at the sketch with or without a header
    have hedited : made.map.edited = path := by
      have withHeader {u : Transformer} {header : String} {scan : EngineM σ (List Definition)}
          {r : σ} (h : Yields (u.withHeader path code header scan) r (made, t') s') :
          made.map.edited = path := by
        rcases yields_withHeader.1 h with ⟨-, rfl, -⟩ | ⟨-, _, _, -, rfl, -⟩
        · rfl
        · rfl
      rcases (yields_sources hkind).1 h with ⟨_, -, h⟩ | ⟨-, _, _, -, h⟩
      · exact withHeader h
      · exact withHeader h
    exact ⟨hedited, (path_of_sources h).2, fun hplain => absurd hkind hplain⟩
  · obtain ⟨hmade, -⟩ := (yields_sources_plain hkind).1 h
    obtain ⟨rfl, -⟩ := Prod.mk.inj hmade
    refine ⟨rfl, (path_of_sources h).2, fun _ t ht => ?_⟩
    rw [List.mem_singleton.1 ht]
    rfl

/-- A builder with a given root. -/
def RootedAt (root : FilePath) (b : UnitBuilder σ) : Prop := b.root = root

theorem keeps_buildSources (path : FilePath) (code : String) :
    Keeps (RootedAt (σ := σ) root) (buildSources path code) (·.Presents path) := by
  intro b s made b' s' hrun hb
  obtain ⟨⟨t, r, t', r', hmade⟩, hsame⟩ := yieldsWith_buildSources hrun
  exact ⟨hsame.root_eq.trans hb, Transformer.presents_of_sources hmade⟩

/-! ## Units -/

namespace CachedUnit

/-- The unit of a file whose key is one of `K`: the file is presented under its analysed name. -/
structure Presents (K : FilePath → Prop) (u : CachedUnit) : Prop where
  key : K u.key
  edited : u.map.edited = u.key
  analyzed : u.map.analyzed = u.key.analyzedName

/-- A unit that was made without the texts of other files. -/
structure PresentsAlone (K : FilePath → Prop) (u : CachedUnit) : Prop extends u.Presents K where
  plain : u.key.kind ≠ .sketchEntry → ∀ t ∈ u.unsaved, t.path = u.key

end CachedUnit

/-- What a build or a reparse answers with presents a file with a key of `K`, and alone if no texts
were given along. -/
def Made {ε : Type} (K : FilePath → Prop) (extra : List FileBuffer) (r : Except ε CachedUnit) :
    Prop :=
  ∀ u, r = .ok u → u.Presents K ∧ (extra = [] → u.PresentsAlone K)

theorem made_error {ε : Type} (e : ε) (extra : List FileBuffer) :
    Made K extra (.error e : Except ε CachedUnit) := by
  intro u hu
  cases hu

/-- A unit that was made of the sources of its key. -/
theorem made_of_sources {ε : Type} {s : Sources} {u : CachedUnit} {extra : List FileBuffer}
    (hs : s.Presents u.key) (hkey : K u.key) (hmap : u.map = s.map)
    (hunsaved : u.unsaved = s.unsaved ++ extra) : Made K extra (.ok u : Except ε CachedUnit) := by
  rintro v ⟨⟩
  have hpresents : u.Presents K :=
    ⟨hkey, by rw [hmap, hs.edited], by rw [hmap, hs.analyzed]⟩
  refine ⟨hpresents, fun hextra => ⟨hpresents, fun hkind t ht => ?_⟩⟩
  rw [hunsaved, hextra, List.append_nil] at ht
  exact hs.plain hkind t ht

theorem keeps_build {key : FilePath} (hkey : K key) (code : String) (extra : List FileBuffer) :
    Keeps (RootedAt (σ := σ) root) (build key code extra) (Made K extra) := by
  unfold build
  refine keeps_bind (keeps_buildSources key code) fun s hs => ?_
  refine keeps_bind keeps_get fun b _ => ?_
  refine keeps_bind (P := fun _ => True) (keeps_liftM fun _ _ _ _ => trivial) fun tried _ => ?_
  cases tried with
  | ok r => exact keeps_pure (made_of_sources hs hkey rfl rfl)
  | error reason => exact keeps_pure (made_error _ _)

theorem keeps_reparse {c : CachedUnit} (hkey : K c.key) (code : String) (extra : List FileBuffer) :
    Keeps (RootedAt (σ := σ) root) (reparse c code extra) (Made K extra) := by
  unfold reparse
  refine keeps_bind (keeps_buildSources c.key code) fun s hs => ?_
  split
  · exact keeps_pure (made_error _ _)
  · refine keeps_bind keeps_get fun b _ => ?_
    refine keeps_bind (P := fun _ => True) (keeps_liftM fun _ _ _ _ => trivial) fun parsed _ => ?_
    cases parsed with
    | ok unit => exact keeps_pure (made_of_sources hs hkey rfl rfl)
    | error e => exact keeps_pure (made_error _ _)

/-! ## The cache of units -/

namespace UnitCache

/-- Every kept unit presents a file with a key of `K` alone. -/
def Presenting (K : FilePath → Prop) (c : UnitCache) : Prop :=
  ∀ e ∈ c.units.entries, e.2.PresentsAlone K

/-- A request is answered with a unit that presents its file alone, or with none, and so are all
units that are kept then. -/
def Answered (K : FilePath → Prop) (r : Resolved × UnitCache) : Prop :=
  r.2.Presenting K ∧ ∀ u action, r.1 = .ok (u, action) → u.PresentsAlone K

variable {c : UnitCache}

theorem Presenting.get? (hc : c.Presenting K) {key : FilePath} {u : CachedUnit}
    (hu : c.units.get? key = some u) : u.PresentsAlone K := by
  obtain ⟨k, hmem, -⟩ := Table.exists_mem_of_find?_eq_some hu
  exact hc _ hmem

theorem Presenting.keep (hc : c.Presenting K) {u : CachedUnit} (hu : u.PresentsAlone K)
    (key : FilePath) (action : UnitAction) : Answered K (c.keep key u action) := by
  refine ⟨fun e he => ?_, ?_⟩
  · rcases Table.mem_put he with hold | rfl | ⟨hvalue, -⟩
    · exact hc e hold
    · exact hu
    · rw [hvalue]
      exact hu
  · rintro v a ⟨⟩
    exact hu

theorem Presenting.drop (hc : c.Presenting K) (key : FilePath) (e : CacheError) :
    Answered K (c.drop key e) := by
  refine ⟨fun f hf => hc f (Table.mem_of_mem_erase hf), ?_⟩
  rintro v a ⟨⟩

theorem keeps_create (hc : c.Presenting K) {key : FilePath} (hkey : K key) (code : String) :
    Keeps (RootedAt (σ := σ) root) (c.create key code) (Answered K) := by
  unfold create
  refine keeps_bind (keeps_build hkey code []) fun built hbuilt => ?_
  cases built with
  | ok u => exact keeps_pure (hc.keep ((hbuilt u rfl).2 rfl) key .created)
  | error e => exact keeps_pure (hc.drop key e)

theorem keeps_update (hc : c.Presenting K) {key : FilePath} (hkey : K key) {unit : CachedUnit}
    (hunit : unit.PresentsAlone K) (code : String) :
    Keeps (RootedAt (σ := σ) root) (c.update key unit code) (Answered K) := by
  unfold update
  refine keeps_bind (keeps_reparse hunit.key code []) fun parsed hparsed => ?_
  cases parsed with
  | ok u => exact keeps_pure (hc.keep ((hparsed u rfl).2 rfl) key .reparsed)
  | error e => exact keeps_create hc hkey code

/-- A request is answered with a unit that presents its file, whatever text that unit is for. -/
theorem keeps_resolveWith (hc : c.Presenting K) {path : FilePath} (hkey : K (path.normalize root))
    (stale : Bool) (code : String) :
    Keeps (RootedAt (σ := σ) root) (c.resolveWith stale path code) (Answered K) := by
  unfold resolveWith
  refine keeps_bind keeps_get fun b hb => ?_
  have hbkey : b.key path = path.normalize root := by
    rw [← hb]
    rfl
  dsimp only
  rw [hbkey]
  split
  · exact keeps_create hc hkey code
  · next u hu =>
    split
    · refine keeps_pure ⟨hc, ?_⟩
      rintro v a ⟨⟩
      exact hc.get? hu
    · exact keeps_update hc hkey (hc.get? hu) code

end UnitCache

/-! ## The units of a project -/

/-- A unit of a project reports what was collected for it, and without a unit the failure to parse
its file. -/
structure ProjectUnit.Presents (K : FilePath → Prop) (root key : FilePath) (p : ProjectUnit) :
    Prop where
  unit : ∀ u, p.unit = some u →
    u.Presents K ∧ ∃ raw, p.diagnostics = Scope.collect ⟨root, u.map⟩ raw
  failure : p.unit = none → p.diagnostics = [.parseFailureIn key]

namespace ProjectCache

/-- Every entry has a key of `K` and reports what was collected for its unit or its failure. -/
def Presenting (K : FilePath → Prop) (root : FilePath) (c : ProjectCache) : Prop :=
  ∀ e ∈ c.units.entries, K e.1 ∧ e.2.Presents K root e.1

variable {c : ProjectCache} {key : FilePath}

theorem Presenting.insert (hnormal : ∀ k, K k → k.IsNormal) (hc : c.Presenting K root) (hkey : K key)
    {p : ProjectUnit} (hp : p.Presents K root key) (stats : CacheStats) :
    Presenting K root ⟨c.units.insert key p, stats⟩ := by
  intro e he
  rcases Table.mem_put he with hold | rfl | ⟨hvalue, hbeq, old, hold⟩
  · exact hc e hold
  · exact ⟨hkey, hp⟩
  · -- the key that was there before is the same text, since both are normal
    have hold := (hc _ hold).1
    have hsame : e.1 = key :=
      (hnormal _ hold).eq_of_components_eq (hnormal _ hkey) (FilePath.beq_iff.1 hbeq)
    rw [hvalue, hsame]
    exact ⟨hkey, hp⟩

variable (hnormal : ∀ k, K k → k.IsNormal) (hc : c.Presenting K root) (hkey : K key)

include hnormal hc hkey

theorem keeps_enter (input : ProjectInput) {unit : Option CachedUnit}
    (hunit : ∀ u, unit = some u → u.Presents K) (action : UnitAction) :
    Keeps (RootedAt (σ := σ) root) (c.enter key input unit action) (Presenting K root) := by
  unfold enter
  refine keeps_bind keeps_get fun b hb => ?_
  refine keeps_bind keeps_getThe fun s _ => ?_
  refine keeps_pure (hc.insert hnormal hkey ⟨?_, ?_⟩ _)
  · rintro u hu
    cases hu
    refine ⟨hunit u rfl, b.engine.diagnostics s u.unit, ?_⟩
    rw [← hb]
    rfl
  · rintro hu
    cases hu
    rfl

theorem keeps_rebuild (code : String) (headers : List FileBuffer) (input : ProjectInput) :
    Keeps (RootedAt (σ := σ) root) (c.rebuild key code headers input) (Presenting K root) := by
  unfold rebuild
  refine keeps_bind (keeps_build hkey code headers) fun built hbuilt => ?_
  cases built with
  | ok u =>
    refine keeps_enter hnormal hc hkey input ?_ .created
    rintro v ⟨⟩
    exact (hbuilt u rfl).1
  | error e =>
    refine keeps_enter hnormal hc hkey input ?_ .created
    rintro v ⟨⟩

theorem keeps_update (code : String) (headers : List FileBuffer) (input : ProjectInput)
    {old : ProjectUnit} (hold : ∀ u, old.unit = some u → u.Presents K) :
    Keeps (RootedAt (σ := σ) root) (c.update key code headers input old) (Presenting K root) := by
  unfold update
  split
  · next unit hunit _ =>
    refine keeps_bind (keeps_reparse (hold unit hunit).key code headers) fun parsed hparsed => ?_
    cases parsed with
    | ok u =>
      refine keeps_enter hnormal hc hkey input ?_ .reparsed
      rintro v ⟨⟩
      exact (hparsed u rfl).1
    | error e => exact keeps_rebuild hnormal hc hkey code headers input
  · exact keeps_rebuild hnormal hc hkey code headers input

theorem keeps_refreshFile (code : String) (headers : List FileBuffer) :
    Keeps (RootedAt (σ := σ) root) (c.refreshFile key code headers) (Presenting K root) := by
  unfold refreshFile
  refine keeps_bind keeps_get fun b _ => ?_
  dsimp only
  split
  · exact keeps_rebuild hnormal hc hkey code headers _
  · next old hold =>
    obtain ⟨k, hmem, -⟩ := Table.exists_mem_of_find?_eq_some hold
    split
    · exact keeps_update hnormal hc hkey code headers _ fun u hu => ((hc _ hmem).2.unit u hu).1
    · exact keeps_pure hc

omit hc hkey in
/-- Files with keys of `K` are brought up to date one after the other. -/
theorem keeps_refreshFiles (headers : List FileBuffer) {files : List FileBuffer}
    (hfiles : ∀ f ∈ files, K f.path) {c : ProjectCache} (hc : c.Presenting K root) :
    Keeps (RootedAt (σ := σ) root) (refreshFiles headers c files) (Presenting K root) := by
  induction files generalizing c with
  | nil => exact keeps_pure hc
  | cons f files ih =>
    rw [List.forall_mem_cons] at hfiles
    unfold refreshFiles
    refine keeps_bind (keeps_refreshFile hnormal hc hfiles.1 f.code headers) fun c' hc' => ?_
    exact ih hfiles.2 hc'

omit hkey in
/-- A pass reports what the units report that it leaves. -/
theorem keeps_refresh {files : List FileBuffer} (hfiles : ∀ f ∈ files, K (f.path.normalize root))
    (e : Enumeration ProjectUnit) :
    Keeps (RootedAt (σ := σ) root) (c.refresh files e) fun r =>
      r.2.Presenting K root ∧ r.1 = mergedDiagnostics (r.2.units.valuesIn e) := by
  unfold refresh
  refine keeps_bind keeps_get fun b hb => ?_
  have hsources : ∀ f ∈ sourceFiles b files, K f.path := by
    intro f hf
    have hf := mem_of_mem_keepFirst hf
    obtain ⟨g, hg, rfl⟩ := List.mem_map.1 hf
    have hkey := hfiles g (List.mem_filter.1 hg).1
    rw [← hb] at hkey
    exact hkey
  dsimp only
  refine keeps_bind (keeps_refreshFiles hnormal _ hsources hc) fun c' hc' => ?_
  refine keeps_pure ⟨fun e he => hc' e (List.mem_filter.1 he).1, rfl⟩

end ProjectCache

end SketchSense
