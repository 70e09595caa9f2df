import SketchSense.Proofs.Cache.Refreshing
import SketchSense.Proofs.Engine.Keeping
import SketchSense.Proofs.FilePath.Kinds
import SketchSense.Proofs.Sketch.Memory

/-!
# Units that the model engine reads

Every unit that is kept was read from the texts of its own file, whatever happened before. While the
engine does not fail a request always ends with a unit for its text, and it is kept.

* `Sources.IsOf`, what the sources of a file look like, and where their map leads;
* `CachedUnit.ReadAlone`, a unit of its own sources, and `UnitCache.Reading`, a cache of such units;
* `UnitCache.keeps_resolveWith_reading`, that every request keeps that;
* `ModelState.Unfailing` and `UnitCache.exists_keeping_of_resolveWith`, what a request ends
  with then.
-/

namespace SketchSense

open Model

variable {σ : Type}

/-! ## Sources -/

/-- The sources of a file. One that is no sketch is handed over as it is; a sketch is renamed, and
with an include at most one line is put in. -/
inductive Sources.IsOf (path : FilePath) : Sources → Prop
  | plain (hkind : path.kind ≠ .sketchEntry) (code : String) : IsOf path (.plain path code)
  | renamed (hkind : path.kind = .sketchEntry) (code : String) : IsOf path (.renamed path code)
  | injected (hkind : path.kind = .sketchEntry) (header : String) {r : InjectedText}
      (hshift : r.lineShift ≤ 1) : IsOf path (.injected path header r)

/-- An include takes the place of a line or is put in as one. -/
theorem InsertionMemo.lineShift_le {m m' : InsertionMemo} {signature : ContentHash} {path : FilePath}
    {code : String} {scan : EngineM σ (List Definition)} {r : InjectedText} {s s' : σ}
    (h : Yields (m.replayOrInject signature path code scan) s (r, m') s') : r.lineShift ≤ 1 := by
  rcases yields_replayOrInject.1 h with ⟨hreplay, -, -⟩ | ⟨-, ds, -, hinject⟩
  · obtain ⟨place, old, -, -, -, rfl⟩ := replay_eq_some hreplay
    exact Nat.zero_le 1
  · unfold inject at hinject
    split at hinject
    · cases hinject
      exact Nat.zero_le 1
    · dsimp only at hinject
      split at hinject
      · cases hinject
        exact Nat.zero_le 1
      · cases hinject
        exact Nat.le_refl 1

theorem Transformer.isOf_of_sources {t t' : Transformer} {e : Engine σ} {path : FilePath}
    {code : String} {args : List String} {s s' : σ} {made : Sources}
    (h : Yields (t.sources e path code args) s (made, t') s') : made.IsOf path := by
  by_cases hkind : path.kind = .sketchEntry
  · have withHeader {u : Transformer} {header : String} {scan : EngineM σ (List Definition)} {r : σ}
        (h : Yields (u.withHeader path code header scan) r (made, t') s') : made.IsOf path := by
      rcases yields_withHeader.1 h with ⟨-, rfl, -⟩ | ⟨-, _, _, hplaced, rfl, -⟩
      · exact .renamed hkind code
      · exact .injected hkind header (InsertionMemo.lineShift_le hplaced)
    rcases (yields_sources hkind).1 h with ⟨_, -, h⟩ | ⟨-, _, _, -, h⟩
    · exact withHeader h
    · exact withHeader h
  · obtain ⟨hmade, -⟩ := (yields_sources_plain hkind).1 h
    obtain ⟨rfl, -⟩ := Prod.mk.inj hmade
    exact .plain hkind code

namespace Sources.IsOf

variable {path : FilePath} {s : Sources} (h : s.IsOf path)

include h

theorem analyzed_eq : s.main.path = path.analyzedName ∧ s.map.analyzed = path.analyzedName := by
  cases h with
  | plain hkind code =>
    unfold FilePath.analyzedName
    rw [if_neg hkind]
    exact ⟨rfl, rfl⟩
  | renamed => exact ⟨rfl, rfl⟩
  | injected => exact ⟨rfl, rfl⟩

theorem lineShift_le : s.map.lineShift ≤ 1 := by
  cases h with
  | plain => exact Nat.zero_le 1
  | renamed => exact Nat.zero_le 1
  | injected hkind header hshift => exact hshift

/-- Only in a sketch a line is put in. -/
theorem lineShift_le_of_kind : s.map.lineShift ≤ if path.kind = .sketchEntry then 1 else 0 := by
  cases h with
  | plain => exact Nat.zero_le _
  | renamed => exact Nat.zero_le _
  | injected hkind header hshift =>
    rw [if_pos hkind]
    exact hshift

/-- The texts of a file are its own and that of the header that is generated for it. -/
theorem path_of_mem {t : FileBuffer} (ht : t ∈ s.unsaved) :
    t.path = path.analyzedName ∨ t.path = path.prototypeHeader := by
  rcases List.mem_append.1 ht with ht | ht
  · cases h with
    | plain => cases ht
    | renamed => cases ht
    | injected =>
      dsimp only [Sources.injected] at ht
      split at ht
      · rw [List.mem_singleton.1 ht]
        exact .inr rfl
      · cases ht
  · rw [List.mem_singleton.1 ht]
    exact .inl h.analyzed_eq.1

/-- The texts of one file have different paths. -/
theorem eq_of_path_beq {a b : FileBuffer} (ha : a ∈ s.unsaved) (hb : b ∈ s.unsaved)
    (hpath : (a.path == b.path) = true) : a = b := by
  cases h with
  | plain hkind code => rw [List.mem_singleton.1 ha, List.mem_singleton.1 hb]
  | renamed hkind code => rw [List.mem_singleton.1 ha, List.mem_singleton.1 hb]
  | @injected hkind header r hshift =>
    unfold Sources.unsaved Sources.injected at ha hb
    dsimp only at ha hb
    by_cases hinjected : r.injected = true
    · rw [if_pos hinjected] at ha hb
      have hne := FilePath.prototypeHeader_ne_analyzedName hkind
      simp only [Option.toList_some, List.cons_append, List.nil_append, List.mem_cons,
        List.not_mem_nil, or_false] at ha hb
      rcases ha with rfl | rfl <;> rcases hb with rfl | rfl
      · rfl
      · rw [hne] at hpath
        cases hpath
      · rw [BEq.comm, hne] at hpath
        cases hpath
      · rfl
    · rw [if_neg hinjected] at ha hb
      rw [List.mem_singleton.1 ha, List.mem_singleton.1 hb]

/-- Where the map leads from a text of the file: from the analysed text back to the file, by the way
that leads forth, or for a file with a name that is kept for sketches to the sketch of that name. -/
theorem toEdited_cases {t : FileBuffer} (ht : t ∈ s.unsaved) {l q : Location} (hl : l.file = t.path)
    (hq : s.map.toEdited l = some q) :
    l.file = s.map.analyzed ∧
      (q.file = path ∧ l.line = q.line + s.map.lineShift ∧ q.column = l.column ∨
        path.isAnalyzedEntry = true ∧ path.isPrototypeHeader = false ∧ q.file = path.editedName) := by
  have hsketch (hkind : path.kind = .sketchEntry) {header : Option FilePath} {shift : Nat}
      (hheader : ∀ h ∈ header, h = path.prototypeHeader) (hfile : l.file = path.analyzedName)
      (hq : (CoordinateMap.mk path path.analyzedName header shift).toEdited l = some q) :
      q.file = path ∧ l.line = q.line + shift ∧ q.column = l.column := by
    obtain ⟨file, line, column⟩ := l
    obtain rfl : file = path.analyzedName := hfile
    rw [CoordinateMap.toEdited_analyzedName hkind hheader] at hq
    split at hq
    · next hlt =>
      cases hq
      dsimp only
      exact ⟨rfl, by omega, rfl⟩
    · cases hq
  cases h with
  | plain hkind code =>
    rw [List.mem_singleton.1 ht] at hl
    have hfile : l.file = path := hl
    refine ⟨hfile, ?_⟩
    unfold CoordinateMap.toEdited at hq
    split at hq
    · cases hq
    · next hheader =>
      rw [if_neg (by simp [Sources.plain, CoordinateMap.identity, CoordinateMap.isRenamed])] at hq
      split at hq
      · next hentry =>
        cases hq
        rw [hfile] at hentry
        refine .inr ⟨hentry, ?_, by rw [hfile]⟩
        rw [hfile] at hheader
        simpa [Sources.plain, CoordinateMap.identity, CoordinateMap.isHeader] using hheader
      · cases hq
        exact .inl ⟨hfile, rfl, rfl⟩
  | renamed hkind code =>
    rw [List.mem_singleton.1 ht] at hl
    exact ⟨hl, .inl (hsketch hkind (by simp) hl hq)⟩
  | @injected hkind header r hshift =>
    have hheader : ∀ h ∈ (if r.injected then some path.prototypeHeader else none),
        h = path.prototypeHeader := by
      intro h hh
      split at hh
      · exact (Option.some.inj hh).symm
      · cases hh
    rcases List.mem_append.1 ht with ht | ht
    · -- what is in the generated header is not shown
      have hinjected : r.injected = true := by
        by_contra hnot
        simp [Sources.injected, hnot] at ht
      have hfile : l.file = path.prototypeHeader := by
        rw [hl]
        simp only [Sources.injected, hinjected, if_true, Option.toList_some,
          List.mem_singleton] at ht
        rw [ht]
      have hhidden : (Sources.injected path header r).map.isHeader l.file = true := by
        simp [CoordinateMap.isHeader, Sources.injected, hinjected, hfile]
      unfold CoordinateMap.toEdited at hq
      rw [if_pos hhidden] at hq
      cases hq
    · rw [List.mem_singleton.1 ht] at hl
      exact ⟨hl, .inl (hsketch hkind hheader hl hq)⟩

/-- A place that the editor knows is normal, if the file is. -/
theorem isNormal_of_toEdited (hnormal : path.IsNormal) {t : FileBuffer} (ht : t ∈ s.unsaved)
    {l q : Location} (hl : l.file = t.path) (hq : s.map.toEdited l = some q) : q.file.IsNormal := by
  rcases (h.toEdited_cases ht hl hq).2 with ⟨hfile, -⟩ | ⟨-, hheader, hfile⟩
  · rw [hfile]
    exact hnormal
  · rw [hfile]
    exact hnormal.editedName hheader

end Sources.IsOf

/-! ## Units -/

/-- The unit of a file that was read from the file's own texts. -/
structure CachedUnit.ReadAlone (u : CachedUnit) : Prop where
  normal : u.key.IsNormal
  sources : ∃ s : Sources, s.IsOf u.key ∧ u.map = s.map ∧ u.unsaved = s.unsaved
  built : buildUnit u.key.analyzedName u.unsaved = .ok u.unit

/-- A builder that uses the model engine. -/
def UsesModel (b : UnitBuilder ModelState) : Prop := b.engine = modelEngine

variable {b b' : UnitBuilder ModelState} {s s' : ModelState} {key path : FilePath} {code : String}

theorem UsesModel.of_sameSetup (h : UsesModel b) (hsame : b.SameSetup b') : UsesModel b' :=
  hsame.engine_eq.trans h

/-- A unit that stems from one text was read from the texts of its file. -/
theorem StemsFrom.readAlone {u : CachedUnit} (h : StemsFrom b [] u code) (hb : UsesModel b)
    (hnormal : u.key.IsNormal) : u.ReadAlone := by
  obtain ⟨-, sources, ⟨_, _, _, _, hmade⟩, hmap, hunsaved, hparsed⟩ := h
  obtain ⟨hmain, -⟩ := Transformer.path_of_sources hmade
  rw [List.append_nil] at hunsaved
  refine ⟨hnormal, ⟨sources, Transformer.isOf_of_sources hmade, hmap, hunsaved⟩, ?_⟩
  rw [hmain, hb] at hparsed
  generalize u.unsaved = unsaved, u.unit = unit at hparsed
  cases hparsed with
  | parse hfile hparse =>
    obtain ⟨-, -, -, hbuild⟩ := yields_parse.1 hparse
    rw [hfile] at hbuild
    exact hbuild
  | reparse hold hreparse =>
    have hbuild := buildUnit_of_reparse hreparse
    rw [mainFile_of_parsedAs hold] at hbuild
    exact hbuild

theorem keeps_build_readAlone (hkey : key.IsNormal) (code : String) :
    Keeps UsesModel (build key code []) fun r => ∀ u, r = .ok u → u.key = key ∧ u.ReadAlone := by
  intro b s answer b' s' hrun hb
  obtain ⟨hsame, hstems⟩ := stemsFrom_build hrun
  refine ⟨hb.of_sameSetup hsame, fun u hu => ?_⟩
  obtain ⟨hukey, hstem⟩ := hstems u hu
  exact ⟨hukey, hstem.readAlone hb (by rw [hukey]; exact hkey)⟩

theorem keeps_reparse_readAlone {c : CachedUnit} (hc : c.ReadAlone) (code : String) :
    Keeps UsesModel (reparse c code []) fun r =>
      ∀ u, r = .ok u → u.key = c.key ∧ u.ReadAlone := by
  intro b s answer b' s' hrun hb
  refine ⟨hb.of_sameSetup (framed_of_reparse hb hrun).setup, ?_⟩
  rintro u rfl
  obtain ⟨sources, b₁, s₁, hsources, unit, hunit, rfl⟩ := exists_of_reparse hrun
  obtain ⟨⟨_, _, _, _, hmade⟩, hsame⟩ := yieldsWith_buildSources hsources
  rw [hb.of_sameSetup hsame, List.append_nil] at hunit
  have hbuild := buildUnit_of_reparse hunit
  rw [mainFile_of_buildUnit hc.built] at hbuild
  exact ⟨rfl, hc.normal, ⟨sources, Transformer.isOf_of_sources hmade, rfl, List.append_nil _⟩,
    by rw [List.append_nil]; exact hbuild⟩

/-! ## The cache of units -/

namespace UnitCache

/-- Every kept unit was read from the texts of the file that is its key. -/
def Reading (c : UnitCache) : Prop := ∀ e ∈ c.units.entries, e.2.key = e.1 ∧ e.2.ReadAlone

theorem reading_empty (stats : CacheStats) : Reading ⟨{}, stats⟩ :=
  fun _ he => absurd he List.not_mem_nil

variable {c c' : UnitCache} {u : CachedUnit} (hc : c.Reading)

include hc

theorem Reading.of_get? (hkey : key.IsNormal) (hu : c.units.get? key = some u) :
    u.key = key ∧ u.ReadAlone := by
  obtain ⟨k, hmem, hk⟩ := Table.exists_mem_of_find?_eq_some hu
  obtain ⟨hukey, halone⟩ := hc _ hmem
  have hukey : u.key = k := hukey
  refine ⟨?_, halone⟩
  rw [hukey]
  rw [← hukey] at hk
  rw [← hukey]
  exact halone.normal.eq_of_components_eq hkey (FilePath.beq_iff.1 hk)

theorem Reading.keep (hkey : u.key = key) (hu : u.ReadAlone) (action : UnitAction) :
    (c.keep key u action).2.Reading := by
  intro e he
  rcases Table.mem_put he with hold | rfl | ⟨hvalue, hbeq, old, hold⟩
  · exact hc e hold
  · exact ⟨hkey, hu⟩
  · -- the key that was there before is the same text, since both are normal
    obtain ⟨holdkey, halone⟩ := hc _ hold
    have hnormal : e.1.IsNormal := by
      rw [← holdkey]
      exact halone.normal
    have hsame := hnormal.eq_of_components_eq (hkey ▸ hu.normal) (FilePath.beq_iff.1 hbeq)
    rw [hvalue, hkey]
    exact ⟨hsame.symm, hu⟩

theorem Reading.drop (key : FilePath) (e : CacheError) : (c.drop key e).2.Reading :=
  fun f hf => hc f (Table.mem_of_mem_erase hf)

theorem keeps_create_reading (hkey : key.IsNormal) (code : String) :
    Keeps UsesModel (c.create key code) (·.2.Reading) := by
  unfold create
  apply keeps_bind (keeps_build_readAlone hkey code)
  intro built hbuilt
  cases built with
  | ok u =>
    obtain ⟨hukey, hu⟩ := hbuilt u rfl
    exact keeps_pure (hc.keep hukey hu .created)
  | error e => exact keeps_pure (hc.drop key e)

theorem keeps_update_reading (hkey : key.IsNormal) (hukey : u.key = key) (hu : u.ReadAlone)
    (code : String) : Keeps UsesModel (c.update key u code) (·.2.Reading) := by
  unfold update
  apply keeps_bind (keeps_reparse_readAlone hu code)
  intro parsed hparsed
  cases parsed with
  | ok v =>
    obtain ⟨hvkey, hv⟩ := hparsed v rfl
    exact keeps_pure (hc.keep (hvkey.trans hukey) hv .reparsed)
  | error e => exact keeps_create_reading hc hkey code

/-- Whatever is asked for, what is kept then was read in the same way. -/
theorem keeps_resolveWith_reading (stale : Bool) (path : FilePath) (code : String) :
    Keeps UsesModel (c.resolveWith stale path code) (·.2.Reading) := by
  unfold resolveWith
  apply keeps_bind keeps_get
  intro b _
  have hkey : (b.key path).IsNormal := FilePath.isNormal_normalize path b.root
  dsimp only
  split
  · exact keeps_create_reading hc hkey code
  · next u hu =>
    split
    · exact keeps_pure hc
    · obtain ⟨hukey, halone⟩ := hc.of_get? hkey hu
      exact keeps_update_reading hc hkey hukey halone code

end UnitCache

/-! ## An engine that does not fail -/

/-- The engine was not told to fail. -/
structure Model.ModelState.Unfailing (s : ModelState) : Prop where
  parse : ∀ r, s.failsOn r = false
  reparse : s.reparseFails = false

theorem Model.ModelState.Unfailing.of_sameScript (h : s.Unfailing) (hscript : s.SameScript s') :
    s'.Unfailing :=
  ⟨fun r => by rw [hscript.failsOn_eq, h.parse], by rw [hscript.reparseFails_eq, h.reparse]⟩

/-- A build ends with a unit. -/
theorem exists_of_build {answer : Except CacheError CachedUnit} (hb : UsesModel b)
    (hs : s.Unfailing) (h : YieldsWith (build key code []) b s answer b' s') :
    s'.Unfailing ∧ ∃ u, answer = .ok u ∧ u.contentHash = .ofText code := by
  obtain ⟨sources, b₁, s₁, hsources⟩ :
      ∃ sources b₁ s₁, YieldsWith (buildSources key code) b s sources b₁ s₁ := by
    unfold build at h
    obtain ⟨sources, b₁, s₁, hsources, -⟩ := yieldsWith_bind.1 h
    exact ⟨sources, b₁, s₁, hsources⟩
  obtain ⟨hsetup, hscript⟩ := framed_of_buildSources hb hsources
  have hrun := runFrom_build [] hsources (hb.of_sameSetup hsetup) (hs.of_sameScript hscript).parse
  have hsame : EngineM.runFrom ((build key code []).run b) s = (.ok (answer, b'), s') := h
  rw [hrun] at hsame
  generalize hunit : buildUnit sources.main.path (sources.unsaved ++ []) = unit at hsame
  cases unit with
  | error f => cases hsame
  | ok u =>
    cases hsame
    exact ⟨hs.of_sameScript (framed_of_build hb h).script, _, rfl, rfl⟩

/-- A unit that is parsed again ends with a unit. -/
theorem exists_of_reparse_readAlone {c : CachedUnit} {answer : Except EngineError CachedUnit}
    (hc : c.ReadAlone) (hb : UsesModel b) (hs : s.Unfailing)
    (h : YieldsWith (reparse c code []) b s answer b' s') :
    s'.Unfailing ∧ ∃ u, answer = .ok u ∧ u.contentHash = .ofText code := by
  obtain ⟨sources, b₁, s₁, hsources⟩ :
      ∃ sources b₁ s₁, YieldsWith (buildSources c.key code) b s sources b₁ s₁ := by
    unfold reparse at h
    obtain ⟨sources, b₁, s₁, hsources, -⟩ := yieldsWith_bind.1 h
    exact ⟨sources, b₁, s₁, hsources⟩
  obtain ⟨hsetup, hscript⟩ := framed_of_buildSources hb hsources
  have hname : sources.main.path = c.map.analyzed := by
    obtain ⟨⟨_, _, _, _, hmade⟩, -⟩ := yieldsWith_buildSources hsources
    obtain ⟨old, hold, hmap, -⟩ := hc.sources
    rw [hmap, hold.analyzed_eq.2, (Transformer.path_of_sources hmade).1]
  have hrun := runFrom_reparse_of_sources [] hsources (hb.of_sameSetup hsetup)
    (hs.of_sameScript hscript).reparse hname
  have hsame : EngineM.runFrom ((reparse c code []).run b) s = (.ok (answer, b'), s') := h
  rw [hrun] at hsame
  generalize hunit : buildUnit c.unit.mainFile (sources.unsaved ++ []) = unit at hsame
  cases unit with
  | error f => cases hsame
  | ok u =>
    cases hsame
    exact ⟨hs.of_sameScript (framed_of_reparse hb h).script, _, rfl, rfl⟩

namespace UnitCache

variable {c c' : UnitCache} {answer : Resolved}

/-- A unit for a text is kept under a key, and nothing else has changed. -/
structure Keeping (c : UnitCache) (key : FilePath) (code : String) (u : CachedUnit)
    (c' : UnitCache) : Prop where
  hash : u.contentHash = .ofText code
  kept : c'.units.get? key = some u
  rest : ∀ k, (key == k) = false → c'.units.get? k = c.units.get? k

theorem keeping_keep {u : CachedUnit} (hash : u.contentHash = .ofText code) (key : FilePath)
    (action : UnitAction) : c.Keeping key code u (c.keep key u action).2 :=
  ⟨hash, c.units.get?_insert_self key u, fun _ hne => c.units.get?_insert_of_ne hne u⟩

/-- While the engine does not fail a text ends with a unit for it, unless it ends in a fault. -/
theorem exists_keeping_of_resolveWith (hc : c.Reading) (hb : UsesModel b) (hs : s.Unfailing)
    (h : YieldsWith (c.resolveWith false path code) b s (answer, c') b' s') :
    s'.Unfailing ∧ ∃ u action, answer = .ok (u, action) ∧ c.Keeping (b.key path) code u c' := by
  unfold resolveWith at h
  obtain ⟨b₁, b₂, s₁, hget, hrest⟩ := yieldsWith_bind.1 h
  obtain ⟨rfl, rfl, rfl⟩ := yieldsWith_get.1 hget
  dsimp only at hrest
  have hkey : (b₂.key path).IsNormal := FilePath.isNormal_normalize path b₂.root
  split at hrest
  · unfold create at hrest
    obtain ⟨built, b₃, s₂, hbuild, hend⟩ := yieldsWith_bind.1 hrest
    obtain ⟨hs₂, u, rfl, hash⟩ := exists_of_build hb hs hbuild
    obtain ⟨hanswer, -, rfl⟩ := yieldsWith_pure.1 hend
    cases hanswer
    exact ⟨hs₂, u, .created, rfl, keeping_keep hash _ _⟩
  · next unit hunit =>
    split at hrest
    · next hreuse =>
      obtain ⟨hanswer, -, rfl⟩ := yieldsWith_pure.1 hrest
      cases hanswer
      have hash := hreuse.resolve_left Bool.false_ne_true
      exact ⟨hs, unit, .reused, rfl, hash, hunit, fun _ _ => rfl⟩
    · unfold update at hrest
      obtain ⟨parsed, b₃, s₂, hparsed, hend⟩ := yieldsWith_bind.1 hrest
      obtain ⟨-, halone⟩ := hc.of_get? hkey hunit
      obtain ⟨hs₂, u, rfl, hash⟩ := exists_of_reparse_readAlone halone hb hs hparsed
      obtain ⟨hanswer, -, rfl⟩ := yieldsWith_pure.1 hend
      cases hanswer
      exact ⟨hs₂, u, .reparsed, rfl, keeping_keep hash _ _⟩

end UnitCache

end SketchSense
