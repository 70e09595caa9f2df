import Mathlib.Data.List.Perm.Basic
import SketchSense.Proofs.Cache.Headers
import SketchSense.Proofs.Cache.Passes

/-!
# Project passes have no memory

For files that are no sketches nothing shows of the units that a project keeps: whatever was done
before, a pass reports what a first pass would report, keeps the units of its own files and no
others, and when it is repeated no engine is called. This needs hashes that tell apart what was
open, and they do as long as no two header paths are displayed alike.

* `Pass.report` and `mergedDiagnostics_eq_report`, what the units of a pass report;
* `Pass.Settles`, that the units are those of a pass;
* `ProjectCache.refresh_forgets_history`, that a pass depends on its own files alone, and
  `ProjectCache.refresh_keeps_closed_header`, where a header that was closed is still reported.
-/

namespace SketchSense

open Model

variable {root : FilePath} {passes : List Pass} {p : Pass} {units : Table FilePath ProjectUnit}
  {f : FileBuffer}

/-! ## What is reported -/

/-- The report of a first pass: every source with all open headers. -/
def Pass.report (p : Pass) : List Diagnostic :=
  Diagnostic.sortAndDedup (p.sources.flatMap fun f =>
    Scope.collect ⟨p.builder.root, .identity f.path⟩ ((p.headers ++ [f]).flatMap messages))

/-- Headers come before the file they are open with. -/
theorem mainLast_headers {hs : List FileBuffer} (hf : f.kind ≠ .header)
    (hhs : ∀ h ∈ hs, h.kind = .header) : mainLast f.path (f :: hs) = hs ++ [f] := by
  have hne (h : FileBuffer) (hh : h ∈ hs) : (h.path == f.path) = false := by
    rw [Bool.eq_false_iff]
    intro hbeq
    exact hf ((FilePath.kind_eq_of_beq hbeq).symm.trans (hhs h hh))
  have hothers : hs.filter (!·.path == f.path) = hs :=
    List.filter_eq_self.2 fun h hh => by rw [hne h hh]; rfl
  have hnone : hs.filter (·.path == f.path) = [] :=
    List.filter_eq_nil_iff.2 fun h hh => by rw [hne h hh]; exact Bool.false_ne_true
  unfold mainLast
  rw [List.filter_cons_of_neg (by simp), List.filter_cons_of_pos (by simp), hothers, hnone]

/-- A unit of a source reports the messages of the headers and of the source. -/
theorem ProjectUnit.Stands.diagnostics_eq {e : ProjectUnit} {hs : List FileBuffer}
    (h : e.Stands root f.path f.code hs) (hf : f.kind ≠ .header)
    (hhs : ∀ h ∈ hs, h.kind = .header) :
    e.diagnostics = Scope.collect ⟨root, .identity f.path⟩ ((hs ++ [f]).flatMap messages) := by
  obtain ⟨cached, -, -, -, hbuilt, hdiagnostics⟩ := h
  rw [hdiagnostics, diagnostics_of_buildUnit hbuilt, mainLast_headers hf hhs]

theorem Pass.ne_header_of_mem_sources (hf : f ∈ p.sources) : f.kind ≠ .header := by
  obtain ⟨g, -, hsource, -, hkind⟩ := exists_of_mem_sources hf
  intro hheader
  rw [← hkind, hheader] at hsource
  cases hsource

/-- What a pass finds in a file is shown at a place in a file of a normal path. -/
theorem Pass.isPlain_of_mem_collect (hf : f ∈ p.sources) {r : Diagnostic}
    (hr : r ∈ Scope.collect ⟨root, .identity f.path⟩ ((p.headers ++ [f]).flatMap messages)) :
    r.IsPlain := by
  refine Scope.isPlain_of_mem_collect (fun d hd => (exists_of_mem_flatMap_messages hd).1)
    (fun d hd => ?_) hr
  obtain ⟨-, x, hx, hfile⟩ := exists_of_mem_flatMap_messages hd
  rw [hfile]
  rcases List.mem_append.1 hx with hx | hx
  · obtain ⟨g, -, rfl, -⟩ := exists_of_mem_headers hx
    exact FilePath.isNormal_normalize _ _
  · rw [List.mem_singleton.1 hx]
    obtain ⟨g, -, -, rfl, -⟩ := exists_of_mem_sources hf
    exact FilePath.isNormal_normalize _ _

/-- The units of the sources, in the order of the sources. -/
theorem Pass.values_perm (hdistinct : units.Distinct)
    (hkeys : ∀ k, k ∈ units.keys ↔ ∃ f ∈ p.sources, f.path = k) :
    (units.values.map some).Perm (p.sources.map fun f => units.get? f.path) := by
  have hkeysPerm : units.keys.Perm (p.sources.map (·.path)) := by
    refine (List.perm_ext_iff_of_nodup (Table.nodup_of_pairwise hdistinct)
      (Table.nodup_of_pairwise (List.pairwise_map.2 p.pairwise_sources))).2 fun k => ?_
    rw [hkeys, List.mem_map]
  have hmapped := hkeysPerm.map units.get?
  rwa [hdistinct.map_get?_keys, List.map_map] at hmapped

section Hashes

variable (hfree : ContentHash.CollisionFree (passes.flatMap Pass.hashed))
  (hpaths : FilePath.ToldApart (passes.flatMap Pass.headerPaths))

include hfree hpaths

/-- Units with the same input were made of the same text and the same headers. -/
theorem Pass.perm_of_projectInput_eq {q : Pass} (hp : p ∈ passes) (hq : q ∈ passes)
    {g : FileBuffer} (hf : f ∈ p.sources) (hg : g ∈ q.sources) {key : FilePath}
    (heq : q.builder.projectInput key g.code q.headers =
      p.builder.projectInput key f.code p.headers) :
    g.code = f.code ∧ q.headers.Perm p.headers := by
  have htext (r : Pass) (hr : r ∈ passes) (x : FileBuffer) (hx : x ∈ r.sources ++ r.headers) :
      ContentHash.textBytes x.code ∈ passes.flatMap Pass.hashed :=
    List.mem_flatMap.2 ⟨r, hr, List.mem_cons_of_mem _ (List.mem_map_of_mem hx)⟩
  have hbytes (r : Pass) (hr : r ∈ passes) : headersBytes r.headers ∈ passes.flatMap Pass.hashed :=
    List.mem_flatMap.2 ⟨r, hr, List.mem_cons_self⟩
  have hheaders (r : Pass) (hr : r ∈ passes) (x : FileBuffer) (hx : x ∈ r.headers) :
      x.path ∈ passes.flatMap Pass.headerPaths ∧
        ContentHash.textBytes x.code ∈ passes.flatMap Pass.hashed :=
    ⟨List.mem_flatMap.2 ⟨r, hr, List.mem_map_of_mem hx⟩, htext r hr x (List.mem_append_right _ hx)⟩
  exact ⟨hfree.text_eq (htext q hq g (List.mem_append_left _ hg))
      (htext p hp f (List.mem_append_left _ hf)) (congrArg ProjectInput.contentHash heq),
    perm_of_headersSignature_eq hpaths hfree (hheaders q hq) (hheaders p hp) (hbytes q hq)
      (hbytes p hp) (congrArg ProjectInput.headersSignature heq)⟩

/-- A unit that is up to date reports what a unit made now would report. -/
theorem UnitsSound.perm_of_current (hsound : UnitsSound root passes units) (hp : p.Fits root)
    (hmem : p ∈ passes) (hf : f ∈ p.sources) (hkind : f.kind ≠ .sketchEntry)
    (hcurrent : p.IsCurrent units f) :
    ∃ e, units.get? f.path = some e ∧ e.diagnostics.Perm
      (Scope.collect ⟨root, .identity f.path⟩ ((p.headers ++ [f]).flatMap messages)) := by
  obtain ⟨e, hget, hinput⟩ := hcurrent
  obtain ⟨path, hpath⟩ := hp.path_of_mem_sources hf
  have hentry : (f.path, e) ∈ units.entries := hpath ▸ hsound.mem_of_get? (hpath ▸ hget)
  -- the unit was made in the pass `q`, of the same input
  obtain ⟨q, hq, g, hg, hstands, hmade⟩ := hsound.made _ hentry hkind
  obtain ⟨hcode, hperm⟩ :=
    Pass.perm_of_projectInput_eq hfree hpaths hmem hq hf hg (hmade.symm.trans hinput)
  dsimp only at hstands
  rw [hcode] at hstands
  refine ⟨e, hget, ?_⟩
  rw [hstands.diagnostics_eq (Pass.ne_header_of_mem_sources hf)
    fun h hh => Pass.kind_of_mem_headers hh]
  exact Scope.collect_perm _ (fun d hd => (exists_of_mem_flatMap_messages hd).1)
    ((hperm.append_right _).flatMap_right _)

/-- Units that are up to date report together what a first pass reports. -/
theorem mergedDiagnostics_eq_report (hsound : UnitsSound root passes units) (hp : p.Fits root)
    (hmem : p ∈ passes) (hplain : ∀ f ∈ p.sources, f.kind ≠ .sketchEntry)
    (hcurrent : ∀ f ∈ p.sources, p.IsCurrent units f)
    (hkeys : ∀ k, k ∈ units.keys ↔ ∃ f ∈ p.sources, f.path = k) :
    mergedDiagnostics units.values = p.report := by
  -- the units in the order of the sources, then each unit by what is made now
  have hfound : (units.values.flatMap (·.diagnostics)).Perm
      (p.sources.flatMap fun f => ((units.get? f.path).map (·.diagnostics)).getD []) := by
    have hflat := (Pass.values_perm hsound.distinct hkeys).flatMap_right
      fun e => (e.map ProjectUnit.diagnostics).getD []
    simpa only [List.flatMap_map, Option.map_some, Option.getD_some] using hflat
  have hperm : (units.values.flatMap (·.diagnostics)).Perm (p.sources.flatMap fun f =>
      Scope.collect ⟨p.builder.root, .identity f.path⟩ ((p.headers ++ [f]).flatMap messages)) := by
    refine hfound.trans (List.Perm.flatMap_left _ fun f hf => ?_)
    obtain ⟨e, hget, he⟩ :=
      hsound.perm_of_current hfree hpaths hp hmem hf (hplain f hf) (hcurrent f hf)
    rw [hget, hp.root]
    exact he
  refine (Diagnostic.sortAndDedup_eq_of_perm hperm.symm fun r hr => ?_).symm
  obtain ⟨f, hf, hr⟩ := List.mem_flatMap.1 hr
  exact Pass.isPlain_of_mem_collect hf hr

end Hashes

/-! ## What is kept -/

/-- The units are those of the pass: there is one for the key of every source, and it was made of
what is open. Of files with one key the first counts. -/
structure Pass.Settles (p : Pass) (units : Table FilePath ProjectUnit) : Prop where
  distinct : units.Distinct
  keys : ∀ k, k ∈ units.keys ↔
    ∃ f ∈ p.files, f.kind.isProjectSource = true ∧ p.builder.key f.path = k
  input : ∀ (path : FilePath) (f : FileBuffer),
    p.files.find? (fun g => g.kind.isProjectSource &&
      p.builder.key g.path == p.builder.key path) = some f →
    ∃ e, units.get? (p.builder.key path) = some e ∧
      e.input = p.builder.projectInput (p.builder.key path) f.code p.headers

/-- Units that were made of the same sources are up to date as long as the signature of the headers
is the same, whatever the headers are. -/
theorem Pass.isCurrent_of_headersSignature_eq {q : Pass} (hbuilder : q.builder = p.builder)
    (hsources : q.sources = p.sources)
    (hsignature : headersSignature q.headers = headersSignature p.headers)
    (h : ∀ f ∈ p.sources, p.IsCurrent units f) : ∀ f ∈ q.sources, q.IsCurrent units f := by
  intro f hf
  obtain ⟨e, hget, hinput⟩ := h f (hsources ▸ hf)
  refine ⟨e, hget, hinput.trans ?_⟩
  unfold UnitBuilder.projectInput
  rw [hbuilder, hsignature]

/-- The first file of a key is the source of that key. -/
theorem Pass.mem_sources_of_find? {path : FilePath}
    (h : p.files.find? (fun g => g.kind.isProjectSource &&
      p.builder.key g.path == p.builder.key path) = some f) :
    ⟨p.builder.key path, f.code⟩ ∈ p.sources := by
  have hfind : ((p.files.filter (·.kind.isProjectSource)).map fun g =>
      (⟨p.builder.key g.path, g.code⟩ : FileBuffer)).find? (·.path == p.builder.key path) =
      some ⟨p.builder.key f.path, f.code⟩ := by
    rw [List.find?_map, List.find?_filter]
    simp only [Function.comp_def, Bool.decide_and, Bool.decide_eq_true]
    rw [h]
    rfl
  have hfound := List.find?_some h
  rw [Bool.and_eq_true] at hfound
  have hkey : p.builder.key f.path = p.builder.key path := FilePath.normalize_eq_of_beq hfound.2
  rw [← hkey]
  exact mem_keepFirst_of_find? hfind

/-- A pass over files that are no sketches has no sketches among its sources. -/
theorem Pass.kind_of_mem_plain_sources (hplain : ∀ f ∈ p.files, f.kind ≠ .sketchEntry)
    (hf : f ∈ p.sources) : f.kind ≠ .sketchEntry := by
  obtain ⟨g, hg, -, -, hkind⟩ := exists_of_mem_sources hf
  rw [hkind]
  exact hplain g hg

theorem Pass.settles_of_current (hdistinct : units.Distinct)
    (hkeys : ∀ k, k ∈ units.keys ↔ ∃ f ∈ p.sources, f.path = k)
    (hcurrent : ∀ f ∈ p.sources, p.IsCurrent units f) : p.Settles units := by
  refine ⟨hdistinct, fun k => ?_, fun path f hfind => ?_⟩
  · rw [hkeys]
    constructor
    · rintro ⟨f, hf, rfl⟩
      obtain ⟨g, hg, hsource, rfl, -⟩ := exists_of_mem_sources hf
      exact ⟨g, hg, hsource, rfl⟩
    · rintro ⟨g, hg, hsource, rfl⟩
      have hmem : (⟨p.builder.key g.path, g.code⟩ : FileBuffer) ∈
          (p.files.filter (·.kind.isProjectSource)).map fun f => ⟨p.builder.key f.path, f.code⟩ :=
        List.mem_map.2 ⟨g, List.mem_filter.2 ⟨hg, hsource⟩, rfl⟩
      obtain ⟨f, hf, hbeq⟩ := exists_mem_keepFirst (·.path) hmem
      obtain ⟨g', -, -, rfl, -⟩ := exists_of_mem_sources hf
      exact ⟨_, hf, FilePath.normalize_eq_of_beq hbeq⟩
  · exact hcurrent _ (mem_sources_of_find? hfind)

namespace ProjectCache

variable {c d : ProjectCache} {b : UnitBuilder ModelState} {s : ModelState}

section Restriction

variable (h : Advanced root passes p p.sources d b s)
  (hplain : ∀ f ∈ p.sources, f.kind ≠ .sketchEntry)

include h hplain

theorem Advanced.isCurrent_restrict (hf : f ∈ p.sources) :
    p.IsCurrent (d.units.restrict p.isOpen) f := by
  obtain ⟨e, hget, hinput⟩ := h.current f hf (hplain f hf)
  refine ⟨e, ?_, hinput⟩
  have hopen (j : FilePath) (hj : (j == f.path) = true) : p.isOpen j = true :=
    List.any_eq_true.2 ⟨f, hf, BEq.symm hj⟩
  rw [Table.get?_restrict hopen, hget]

/-- When the units of closed files are given up, those of the sources are left. -/
theorem Advanced.mem_keys_restrict (hp : p.Fits root) (k : FilePath) :
    k ∈ (d.units.restrict p.isOpen).keys ↔
      ∃ f ∈ p.sources, f.path = k := by
  constructor
  · intro hk
    obtain ⟨e, he, rfl⟩ := List.mem_map.1 hk
    obtain ⟨hmem, hopen⟩ := List.mem_filter.1 he
    obtain ⟨f, hf, hbeq⟩ := List.any_eq_true.1 hopen
    obtain ⟨path, hpath⟩ := hp.path_of_mem_sources hf
    obtain ⟨path', hpath'⟩ := h.sound.keyed e hmem
    refine ⟨f, hf, ?_⟩
    rw [hpath, hpath'] at hbeq ⊢
    exact FilePath.normalize_eq_of_beq hbeq
  · rintro ⟨f, hf, rfl⟩
    obtain ⟨e, hget, -⟩ := h.current f hf (hplain f hf)
    obtain ⟨path, hpath⟩ := hp.path_of_mem_sources hf
    have hmem : (f.path, e) ∈ d.units.entries := hpath ▸ h.sound.mem_of_get? (hpath ▸ hget)
    exact List.mem_map.2 ⟨_, List.mem_filter.2 ⟨hmem, List.any_eq_true.2 ⟨f, hf, BEq.rfl⟩⟩, rfl⟩

end Restriction

/-- A pass over files that are no sketches and that the engine can read reports what a first pass
reports and leaves the units of its sources. -/
theorem exists_refresh (hsound : UnitsSound root passes c.units) (hp : p.Fits root)
    (hplain : ∀ f ∈ p.sources, f.kind ≠ .sketchEntry)
    (hreads : ∀ g ∈ p.sources ++ p.headers, (FileModel.ofBuffer g).isOk)
    (hfree : ContentHash.CollisionFree ((p :: passes).flatMap Pass.hashed))
    (hpaths : FilePath.ToldApart ((p :: passes).flatMap Pass.headerPaths)) :
    ∃ c' s', YieldsWith (c.refresh p.files) p.builder p.state (p.report, c') p.builder s' ∧
      mergedDiagnostics c'.units.values = p.report ∧ c'.units.Distinct ∧
      (∀ f ∈ p.sources, p.IsCurrent c'.units f) ∧
      ∀ k, k ∈ c'.units.keys ↔ ∃ f ∈ p.sources, f.path = k := by
  have hstart := Advanced.start hsound hp
  obtain ⟨d, s', hfiles⟩ := hstart.exists_refreshFiles hp (List.nil_append _) hplain hreads
  have hdone := hstart.refreshFiles hp (List.nil_append _) hfiles
  have hkept := hdone.sound.restrict p.isOpen
  have hcurrent (f : FileBuffer) (hf : f ∈ p.sources) := hdone.isCurrent_restrict hplain hf
  have hkeys := hdone.mem_keys_restrict hplain hp
  have hreport :=
    mergedDiagnostics_eq_report hfree hpaths hkept hp List.mem_cons_self hplain hcurrent hkeys
  exact ⟨⟨d.units.restrict p.isOpen, d.stats⟩, s',
    yieldsWith_refresh.2 ⟨d, hfiles, rfl, hreport.symm⟩, hreport, hkept.distinct, hcurrent, hkeys⟩

/-- A pass that finds the units of its sources, and no others, up to date reports what they do and
takes no step of the engine. -/
theorem exists_refresh_of_current (s : ModelState)
    (hcurrent : ∀ f ∈ p.sources, p.IsCurrent c.units f)
    (hkeys : ∀ k, k ∈ c.units.keys ↔ ∃ f ∈ p.sources, f.path = k) :
    ∃ c', YieldsWith (c.refresh p.files) p.builder s (mergedDiagnostics c.units.values, c')
      p.builder s := by
  obtain ⟨stats, hfiles⟩ := exists_refreshFiles_of_current s hcurrent
  have hall : c.units.restrict p.isOpen = c.units := by
    unfold Table.restrict
    rw [List.filter_eq_self.2 fun e he => ?_]
    obtain ⟨f, hf, hpath⟩ := (hkeys e.1).1 (List.mem_map_of_mem he)
    exact List.any_eq_true.2 ⟨f, hf, by rw [hpath, BEq.rfl]⟩
  exact ⟨⟨c.units, stats⟩, yieldsWith_refresh.2
    ⟨⟨c.units, stats⟩, hfiles, congrArg (ProjectCache.mk · stats) hall.symm, rfl⟩⟩

/-- Whatever passes there were before, a pass over files that are no sketches reports what a first
pass reports and leaves its own units. When it is repeated, it reports the same and no engine is
called. -/
theorem refresh_forgets_history (hc : Reached passes c) (now : Pass)
    (hfits : ∀ p ∈ now :: passes, p.Fits root)
    (hplain : ∀ f ∈ now.files, f.kind ≠ .sketchEntry)
    (hreads : ∀ g ∈ now.sources ++ now.headers, (FileModel.ofBuffer g).isOk)
    (hfree : ContentHash.CollisionFree ((now :: passes).flatMap Pass.hashed))
    (hpaths : FilePath.ToldApart ((now :: passes).flatMap Pass.headerPaths)) :
    ∃ (listed : List Diagnostic) (c' fresh again : ProjectCache) (s' s₀ : ModelState),
      YieldsWith (c.refresh now.files) now.builder now.state (listed, c') now.builder s' ∧
      YieldsWith (({} : ProjectCache).refresh now.files) now.builder now.state (listed, fresh)
        now.builder s₀ ∧
      now.Settles c'.units ∧
      YieldsWith (c'.refresh now.files) now.builder s' (listed, again) now.builder s' := by
  have hnow := hfits now List.mem_cons_self
  have hsources (f : FileBuffer) (hf : f ∈ now.sources) : f.kind ≠ .sketchEntry :=
    Pass.kind_of_mem_plain_sources hplain hf
  have hpast := unitsSound_of_reached hc fun p hp => hfits p (List.mem_cons_of_mem _ hp)
  obtain ⟨c', s', hrun, hreport, hdistinct, hcurrent, hkeys⟩ :=
    exists_refresh hpast hnow hsources hreads hfree hpaths
  -- no unit of an empty project was made in any other pass
  obtain ⟨fresh, s₀, hfirst, -⟩ :=
    exists_refresh (c := {}) (UnitsSound.empty root passes) hnow hsources hreads hfree hpaths
  obtain ⟨again, hagain⟩ := exists_refresh_of_current s' hcurrent hkeys
  rw [hreport] at hagain
  exact ⟨now.report, c', fresh, again, s', s₀, hrun, hfirst,
    Pass.settles_of_current hdistinct hkeys hcurrent, hagain⟩

end ProjectCache

/-! ## A header beside a source -/

/-- A pass over a source and a header, with a new builder and a new engine. -/
def Pass.withHeader (path : String) (code : String) : Pass :=
  ⟨⟨modelEngine, fun _ => [], {}, ⟨"/s"⟩, {}⟩, {}, [⟨⟨path⟩, code⟩, ⟨⟨"/s/m.cpp"⟩, "int m;\n"⟩]⟩

section OneHeader

variable {h : FileBuffer} (hheaders : p.headers = [h]) (hsources : p.sources = [f])

include hheaders

theorem Pass.headersBytes_eq : headersBytes p.headers =
    ContentHash.textField h.path.display ++ ContentHash.hashField (.ofText h.code) := by
  rw [hheaders, headersBytes_singleton]

include hsources

theorem Pass.hashed_eq : p.hashed =
    [ContentHash.textField h.path.display ++ ContentHash.hashField (.ofText h.code),
      ContentHash.textBytes f.code, ContentHash.textBytes h.code] := by
  unfold hashed
  rw [headersBytes_eq hheaders, hheaders, hsources]
  rfl

/-- A single message is reported as it is. -/
theorem Pass.report_eq {r : Diagnostic}
    (h : Scope.reports ⟨p.builder.root, .identity f.path⟩ (messages h ++ messages f) = [r]) :
    p.report = [r] := by
  unfold report Scope.collect
  rw [hheaders, hsources, List.flatMap_singleton, List.flatMap_append, List.flatMap_singleton,
    List.flatMap_singleton, h, sortBy, List.mergeSort_singleton, Diagnostic.sortAndDedup, sortBy,
    List.mergeSort_singleton]
  rfl

end OneHeader

theorem Pass.fits_withHeader (path code : String) : (withHeader path code).Fits ⟨"/s"⟩ :=
  ⟨rfl, rfl, fun _ => rfl, rfl, rfl⟩

namespace ProjectCache

/-- A header is edited between two passes. -/
theorem refresh_forgets_edited_header :
    ∃ (c c' fresh again : ProjectCache) (listed : List Diagnostic) (s' s₀ : ModelState),
      Reached [.withHeader "/s/a.h" "#error x\n"] c ∧
      (Pass.withHeader "/s/a.h" "#error x\n").Settles c.units ∧
      YieldsWith (c.refresh (Pass.withHeader "/s/a.h" "#error y\n").files)
        (Pass.withHeader "/s/a.h" "#error y\n").builder {} (listed, c')
        (Pass.withHeader "/s/a.h" "#error y\n").builder s' ∧
      YieldsWith (({} : ProjectCache).refresh (Pass.withHeader "/s/a.h" "#error y\n").files)
        (Pass.withHeader "/s/a.h" "#error y\n").builder {} (listed, fresh)
        (Pass.withHeader "/s/a.h" "#error y\n").builder s₀ ∧
      (Pass.withHeader "/s/a.h" "#error y\n").Settles c'.units ∧
      YieldsWith (c'.refresh (Pass.withHeader "/s/a.h" "#error y\n").files)
        (Pass.withHeader "/s/a.h" "#error y\n").builder s' (listed, again)
        (Pass.withHeader "/s/a.h" "#error y\n").builder s' := by
  have hold : (Pass.withHeader "/s/a.h" "#error x\n").hashed = _ := Pass.hashed_eq rfl rfl
  have hnew : (Pass.withHeader "/s/a.h" "#error y\n").hashed = _ := Pass.hashed_eq rfl rfl
  have hzero : '\x00' ∉ (FilePath.mk "/s/a.h").text.toList := by decide +kernel
  have hfits (code : String) := Pass.fits_withHeader "/s/a.h" code
  obtain ⟨_, c, _, _, s₁, _, hfirst, -, hsettled, -⟩ := refresh_forgets_history .empty
    (Pass.withHeader "/s/a.h" "#error x\n") (List.forall_mem_singleton.2 (hfits _))
    (by decide +kernel) (by decide +kernel)
    (by
      rw [List.flatMap_singleton, hold]
      unfold ContentHash.CollisionFree
      decide +kernel)
    (FilePath.toldApart_of_forall_eq hzero (List.forall_mem_singleton.2 rfl))
  have hreached := Reached.refresh .empty hfirst
  obtain ⟨listed, c', fresh, again, s', s₀, hrun, hfresh, hsettled', hagain⟩ :=
    refresh_forgets_history hreached
      (Pass.withHeader "/s/a.h" "#error y\n")
      (List.forall_mem_cons.2 ⟨hfits _, List.forall_mem_singleton.2 (hfits _)⟩)
      (by decide +kernel) (by decide +kernel)
      (by
        rw [List.flatMap_cons, List.flatMap_singleton, hold, hnew]
        unfold ContentHash.CollisionFree
        decide +kernel)
      (FilePath.toldApart_of_forall_eq hzero
        (List.forall_mem_cons.2 ⟨rfl, List.forall_mem_singleton.2 rfl⟩))
  exact ⟨c, c', fresh, again, listed, s', s₀, hreached, hsettled, hrun, hfresh, hsettled', hagain⟩

/-- A first pass reports the error of the header, if it can be shown. -/
theorem exists_refresh_withHeader (path : String)
    (hheaders : (Pass.withHeader path "#error x\n").headers = [⟨⟨path⟩, "#error x\n"⟩])
    (hsources : (Pass.withHeader path "#error x\n").sources = [⟨⟨"/s/m.cpp"⟩, "int m;\n"⟩])
    (hreads : (FileModel.ofBuffer ⟨⟨path⟩, "#error x\n"⟩).isOk)
    (hzero : '\x00' ∉ path.toList)
    (hfree : ContentHash.CollisionFree [ContentHash.textField (FilePath.mk path).display ++
      ContentHash.hashField (.ofText "#error x\n"), ContentHash.textBytes "int m;\n",
      ContentHash.textBytes "#error x\n"])
    (herror : messages ⟨⟨path⟩, "#error x\n"⟩ = [.at .error ⟨⟨path⟩, 1, 1⟩ "x"])
    (hshown : Scope.reports ⟨⟨"/s"⟩, .identity ⟨"/s/m.cpp"⟩⟩ [.at .error ⟨⟨path⟩, 1, 1⟩ "x"] =
      [⟨⟨⟨path⟩, 1, 1⟩, .error, "x", []⟩]) :
    ∃ c s', YieldsWith (({} : ProjectCache).refresh (Pass.withHeader path "#error x\n").files)
        (Pass.withHeader path "#error x\n").builder {} ([⟨⟨⟨path⟩, 1, 1⟩, .error, "x", []⟩], c)
        (Pass.withHeader path "#error x\n").builder s' ∧
      mergedDiagnostics c.units.values = [⟨⟨⟨path⟩, 1, 1⟩, .error, "x", []⟩] ∧
      (∀ f ∈ (Pass.withHeader path "#error x\n").sources,
        (Pass.withHeader path "#error x\n").IsCurrent c.units f) ∧
      ∀ k, k ∈ c.units.keys ↔
        ∃ f ∈ (Pass.withHeader path "#error x\n").sources, f.path = k := by
  have hnone : messages ⟨⟨"/s/m.cpp"⟩, "int m;\n"⟩ = [] := by cbv
  have hreport := Pass.report_eq hheaders hsources
    (by rw [hnone, herror, List.append_nil]; exact hshown)
  obtain ⟨c, s', hrun, hlisted, -, hcurrent, hkeys⟩ := exists_refresh (c := {}) (.empty ⟨"/s"⟩ [])
    (Pass.fits_withHeader path "#error x\n")
    (by rw [hsources]; exact List.forall_mem_singleton.2 (by decide +kernel))
    (by
      rw [hsources, hheaders]
      exact List.forall_mem_cons.2 ⟨by decide +kernel, List.forall_mem_singleton.2 hreads⟩)
    (by rw [List.flatMap_singleton, Pass.hashed_eq hheaders hsources]; exact hfree)
    (by
      rw [List.flatMap_singleton, Pass.headerPaths, hheaders]
      exact FilePath.toldApart_singleton hzero)
  rw [hreport] at hrun hlisted
  exact ⟨c, s', hrun, hlisted, hcurrent, hkeys⟩

/-- Two headers that are displayed alike have one signature: when the first is closed and the second
is opened, the unit that was made with the first is kept, and its report names a closed file. -/
theorem refresh_keeps_closed_header :
    ∃ (c c' fresh : ProjectCache) (s' s₀ : ModelState),
      Reached [.withHeader "/s/a\\b.h" "#error x\n"] c ∧
      YieldsWith (c.refresh (Pass.withHeader "/s/a/b.h" "#error x\n").files)
        (Pass.withHeader "/s/a/b.h" "#error x\n").builder {}
        ([⟨⟨⟨"/s/a\\b.h"⟩, 1, 1⟩, .error, "x", []⟩], c')
        (Pass.withHeader "/s/a/b.h" "#error x\n").builder s' ∧
      YieldsWith (({} : ProjectCache).refresh (Pass.withHeader "/s/a/b.h" "#error x\n").files)
        (Pass.withHeader "/s/a/b.h" "#error x\n").builder {}
        ([⟨⟨⟨"/s/a/b.h"⟩, 1, 1⟩, .error, "x", []⟩], fresh)
        (Pass.withHeader "/s/a/b.h" "#error x\n").builder s₀ := by
  have hfree (t : String) (ht : t = "/s/a/b.h") : ContentHash.CollisionFree
      [ContentHash.textField t ++ ContentHash.hashField (.ofText "#error x\n"),
        ContentHash.textBytes "int m;\n", ContentHash.textBytes "#error x\n"] := by
    unfold ContentHash.CollisionFree
    rw [ht]
    decide +kernel
  obtain ⟨c, s₁, hfirst, hlisted, hcurrent, hkeys⟩ :=
    exists_refresh_withHeader "/s/a\\b.h" rfl rfl (by decide +kernel) (by decide +kernel)
      (hfree _ (by decide +kernel)) (by cbv) rfl
  obtain ⟨fresh, s₀, hfresh, -⟩ :=
    exists_refresh_withHeader "/s/a/b.h" rfl rfl (by decide +kernel) (by decide +kernel)
      (hfree _ (by decide +kernel)) (by cbv) rfl
  -- both passes have one source and the same bytes for their headers
  have hclosed : (Pass.withHeader "/s/a\\b.h" "#error x\n").sources =
    [⟨⟨"/s/m.cpp"⟩, "int m;\n"⟩] := rfl
  have hopen : (Pass.withHeader "/s/a/b.h" "#error x\n").sources =
    [⟨⟨"/s/m.cpp"⟩, "int m;\n"⟩] := rfl
  have hsources := hopen.trans hclosed.symm
  have hdisplay : (FilePath.mk "/s/a/b.h").display = (FilePath.mk "/s/a\\b.h").display := by
    decide +kernel
  have hbytes : headersBytes (Pass.withHeader "/s/a/b.h" "#error x\n").headers =
      headersBytes (Pass.withHeader "/s/a\\b.h" "#error x\n").headers := by
    rw [Pass.headersBytes_eq (h := ⟨⟨"/s/a/b.h"⟩, "#error x\n"⟩) rfl,
      Pass.headersBytes_eq (h := ⟨⟨"/s/a\\b.h"⟩, "#error x\n"⟩) rfl, hdisplay]
  have hbuilder : (Pass.withHeader "/s/a/b.h" "#error x\n").builder =
    (Pass.withHeader "/s/a\\b.h" "#error x\n").builder := rfl
  have hstill := Pass.isCurrent_of_headersSignature_eq hbuilder hsources
    (congrArg ContentHash.ofBytes hbytes) hcurrent
  obtain ⟨c', hagain⟩ := exists_refresh_of_current {} hstill (hsources ▸ hkeys)
  rw [hlisted] at hagain
  exact ⟨c, c', fresh, {}, s₀, .refresh .empty hfirst, hagain, hfresh⟩

end ProjectCache

end SketchSense
