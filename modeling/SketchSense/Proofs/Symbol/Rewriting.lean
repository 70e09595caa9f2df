import SketchSense.Proofs.Cache.Reparsing
import SketchSense.Proofs.Collation
import SketchSense.Proofs.FilePath.Kinds
import SketchSense.Proofs.Model.Relocation
import SketchSense.Proofs.Query.Definition
import SketchSense.Proofs.Sketch.Quiet
import SketchSense.Proofs.Symbol.Collect

/-!
# The symbols of a sketch and of the same text as a source

A sketch whose include takes the place of a blank line declares what its text declares as a plain
source, at the same lines and columns; what the header declares is not shown. So both have the same
symbols, and only the file in them differs.

* `CoordinateMap.Shows`, that the places of one file are shown as those of another;
* `Entity.symbols_moveTo` and `symbols_eq_of_moved`, the symbols of what was read as another file;
* `exists_unit_of_unshifted`, the unit of a sketch whose lines are not shifted;
* `CoreM.symbols_of_unshifted_sketch`, that a sketch lists the symbols of the source.
-/

namespace SketchSense

/-- The symbol in another file. -/
def Symbol.moveTo (file : FilePath) (s : Symbol) : Symbol :=
  { s with location := s.location.moveTo file }

/-! ## How places are shown -/

/-- What is on a line of one file is shown at the same place of another. -/
def CoordinateMap.Shows (m : CoordinateMap) (file shown : FilePath) : Prop :=
  ∀ line column, 1 ≤ line → m.toEdited ⟨file, line, column⟩ = some ⟨shown, line, column⟩

/-- A source is shown under its own name, or as the sketch that it has the name of. -/
theorem CoordinateMap.shows_identity {file : FilePath} (hkind : file.kind = .source) :
    (CoordinateMap.identity file).Shows file file.editedName := by
  have hnot : file.isPrototypeHeader = false := by
    rw [Bool.eq_false_iff]
    intro hheader
    rw [FilePath.kind_of_isPrototypeHeader hheader] at hkind
    cases hkind
  intro line column _
  unfold toEdited isHeader isRenamed FilePath.editedName
  simp only [identity, hnot, Option.any_none, Bool.or_false, Bool.false_eq_true, if_false,
    BEq.rfl, Bool.not_true, Bool.and_false]
  split <;> rfl

/-- A sketch whose lines are not shifted is shown as it is. -/
theorem CoordinateMap.shows_analyzedName {path : FilePath} (hkind : path.kind = .sketchEntry)
    {header : Option FilePath} (hheader : ∀ h ∈ header, h = path.prototypeHeader) :
    (CoordinateMap.mk path path.analyzedName header 0).Shows path.analyzedName path := by
  intro line column hline
  rw [toEdited_analyzedName hkind hheader, if_pos (Nat.lt_of_succ_le hline), Nat.sub_zero]

/-! ## Moved symbols -/

section Moving

variable {m m' : CoordinateMap} {file file' shown shown' : FilePath} (hm : m.Shows file shown)
  (hm' : m'.Shows file' shown') (hfile : file.isEmpty = false) (hfile' : file'.isEmpty = false)

include hm in
theorem CoordinateMap.bodyRange?_moveTo {b : Cursor} (hstart : 1 ≤ b.location.line)
    (hend : 1 ≤ b.extentEnd.line) : m.bodyRange? (b.moveTo file) =
      some ⟨b.location.line, b.location.column, b.extentEnd.line, b.extentEnd.column⟩ := by
  have hfrom := hm b.location.line b.location.column hstart
  have hto := hm b.extentEnd.line b.extentEnd.column hend
  unfold bodyRange?
  show (m.toEdited ⟨file, _, _⟩).bind (fun start => (m.toEdited ⟨file, _, _⟩).bind _) = _
  rw [hfrom, hto]
  rfl

include hm hm' hfile hfile'

/-- The symbol of a cursor is in the file that the cursor is shown in. -/
theorem Cursor.symbolIn_moveTo {c : Cursor} (hc : 1 ≤ c.location.line) (body : Option Cursor)
    (hbody : ∀ b ∈ body, 1 ≤ b.location.line ∧ 1 ≤ b.extentEnd.line) :
    (c.moveTo file').symbolIn m' (body.map (Cursor.moveTo file')) =
      ((c.moveTo file).symbolIn m (body.map (Cursor.moveTo file))).map (Symbol.moveTo shown') := by
  have hrange : (body.map (Cursor.moveTo file')).bind m'.bodyRange? =
      (body.map (Cursor.moveTo file)).bind m.bodyRange? := by
    cases body with
    | none => rfl
    | some b =>
      obtain ⟨hstart, hend⟩ := hbody b rfl
      exact (CoordinateMap.bodyRange?_moveTo hm' hstart hend).trans
        (CoordinateMap.bodyRange?_moveTo hm hstart hend).symm
  have hplace : m.toEdited (c.location.moveTo file) = some (c.location.moveTo shown) := hm _ _ hc
  have hplace' : m'.toEdited (c.location.moveTo file') = some (c.location.moveTo shown') := hm' _ _ hc
  have hknown : (c.location.moveTo file).isUnknown = false := hfile
  have hknown' : (c.location.moveTo file').isUnknown = false := hfile'
  unfold Cursor.symbolIn
  rw [hrange]
  simp only [Cursor.moveTo, hplace, hplace', hknown, hknown']
  split
  · rfl
  · split <;> rfl

namespace Model

omit hm hm' hfile hfile' in
/-- The body of a function is in the file of the function. -/
theorem Entity.body?_moveTo (e : Entity) (f : FilePath) :
    (e.moveTo f).body? =
      (if e.top.cursor.kind.isFunctionLike then
        (e.below.map (·.cursor)).find? (·.kind = .compound) else none).map (Cursor.moveTo f) := by
  have hbelow : (e.moveTo f).below.map (·.cursor) =
      (e.below.map (·.cursor)).map (Cursor.moveTo f) := by
    simp [Entity.moveTo, Named.moveTo]
  have hbody : isBodyIn f ∘ Cursor.moveTo f = fun c => decide (c.kind = .compound) := by
    funext c
    show (decide (c.kind = .compound) && f == f && f == f) = decide (c.kind = .compound)
    rw [BEq.rfl, Bool.and_true, Bool.and_true]
  show (if e.top.cursor.kind.isFunctionLike then
    ((e.moveTo f).below.map (·.cursor)).find? (isBodyIn f) else none) = _
  split
  · rw [hbelow, List.find?_map, hbody]
  · rfl

/-- The symbols of an entity that is read as another file. -/
theorem Entity.symbols_moveTo {e : Entity} (he : e.IsPlaced) :
    (e.moveTo file').symbols m' =
      ((e.moveTo file).symbols m).map (Symbol.moveTo shown') := by
  have hbelow : ∀ n ∈ e.below, 1 ≤ n.cursor.location.line ∧ 1 ≤ n.cursor.extentEnd.line :=
    fun n hn => he n (List.mem_cons_of_mem _ hn)
  have hbody : ∀ b ∈ (if e.top.cursor.kind.isFunctionLike then
      (e.below.map (·.cursor)).find? (·.kind = .compound) else none),
      1 ≤ b.location.line ∧ 1 ≤ b.extentEnd.line := by
    intro b hb
    split at hb
    · obtain ⟨n, hn, rfl⟩ := List.mem_map.1 (List.mem_of_find?_eq_some hb)
      exact hbelow n hn
    · cases hb
  have htop := Cursor.symbolIn_moveTo hm hm' hfile hfile' (he e.top List.mem_cons_self).1 _ hbody
  unfold Entity.symbols
  rw [body?_moveTo, body?_moveTo, List.map_append]
  refine congrArg₂ _ ?_ ?_
  · show ((e.top.cursor.moveTo file').symbolIn m' _).toList =
      ((e.top.cursor.moveTo file).symbolIn m _).toList.map _
    rw [htop, Option.toList_map]
  · simp only [Entity.moveTo, List.filterMap_map, List.map_filterMap]
    exact List.filterMap_congr fun n hn =>
      Cursor.symbolIn_moveTo hm hm' hfile hfile' (hbelow n hn).1 none (by simp)

/-- A unit of what another unit was made of, read as another file and with what is not shown, lists
the same symbols in the file that it is shown as. -/
theorem symbols_eq_of_moved {u u' : CachedUnit} {es hidden : List Entity} (hu : u.map = m)
    (hu' : u'.map = m') (hes : HasEntities u.unit (es.map (Entity.moveTo file)))
    (hes' : HasEntities u'.unit (hidden ++ es.map (Entity.moveTo file')))
    (hhidden : ∀ e ∈ hidden, e.symbols m' = []) (hplaced : ∀ e ∈ es, e.IsPlaced) :
    u'.symbols = u.symbols.map (Symbol.moveTo shown') := by
  rw [hes.symbols_eq, hes'.symbols_eq, hu, hu', List.flatMap_append,
    List.flatMap_eq_nil_iff.2 hhidden, List.nil_append, List.flatMap_map, List.flatMap_map]
  have hmoved : (es.flatMap fun e => (e.moveTo file').symbols m') =
      (es.flatMap fun e => (e.moveTo file).symbols m).map (Symbol.moveTo shown') := by
    rw [List.map_flatMap]
    exact List.flatMap_congr fun e he =>
      Entity.symbols_moveTo hm hm' hfile hfile' (hplaced e he)
  have hshown : ∀ s ∈ es.flatMap fun e => (e.moveTo file).symbols m, s.location.file = shown := by
    intro s hs
    obtain ⟨e, he, hs⟩ := List.mem_flatMap.1 hs
    rw [Entity.symbols_moveTo hm hm hfile hfile (hplaced e he)] at hs
    obtain ⟨_, -, rfl⟩ := List.mem_map.1 hs
    rfl
  rw [hmoved]
  refine sortBy_map _ fun a ha b hb => ?_
  have hself (f : FilePath) : f.compare f = .eq := Std.ReflCmp.compare_self
  unfold Symbol.compare
  rw [hshown a ha, hshown b hb, hself]
  show (Ord.compare a.name b.name).then ((shown'.compare shown').then _) = _
  rw [hself]
  rfl

omit hm hm' hfile hfile' in
/-- Nothing in a generated header is listed. -/
theorem Entity.symbols_of_isHeader (h : m.isHeader file = true) (e : Entity) :
    (e.moveTo file).symbols m = [] := by
  have hnone (c : Cursor) (body : Option Cursor) : (c.moveTo file).symbolIn m body = none := by
    have hplace : m.toEdited (c.location.moveTo file) = none := if_pos h
    unfold Cursor.symbolIn
    simp only [Cursor.moveTo, hplace, Option.map_none]
    split
    · rfl
    · split <;> rfl
  unfold Entity.symbols
  show ((e.top.cursor.moveTo file).symbolIn m _).toList ++
    (e.below.map (Named.moveTo file)).filterMap _ = []
  rw [hnone, List.filterMap_map]
  exact List.filterMap_eq_nil_iff.2 fun n _ => hnone n.cursor none

end Model

end Moving

/-! ## Units -/

open Model

/-- A sketch whose lines are not shifted is shown as it is. -/
theorem Sources.shows_ofScan {key : FilePath} {code : String} {ds : List Definition}
    (hkind : key.kind = .sketchEntry) (hshift : (ofScan key code ds).map.lineShift = 0) :
    (ofScan key code ds).map.Shows key.analyzedName key := by
  obtain ⟨header, shift, hmap, hheader⟩ : ∃ header shift,
      (ofScan key code ds).map = ⟨key, key.analyzedName, header, shift⟩ ∧
        ∀ h ∈ header, h = key.prototypeHeader := by
    unfold ofScan
    split
    · exact ⟨_, _, rfl, by simp⟩
    · exact ⟨_, _, rfl, by simp [eq_comm]⟩
  rw [hmap] at hshift ⊢
  obtain rfl : shift = 0 := hshift
  exact CoordinateMap.shows_analyzedName hkind hheader

/-- The unit of a sketch whose lines are not shifted has the entities of the text, read as the
analysed sketch, and none besides that are listed. -/
theorem exists_unit_of_unshifted {key file : FilePath} {code : String} {ds : List Definition}
    {m : FileModel} (hkind : key.kind = .sketchEntry)
    (hreads : FileModel.ofBuffer ⟨file, code⟩ = .ok m) (hblanks : HasPlainBlanks code)
    (hfound : definedIn? code = some ds) (hshift : (Sources.ofScan key code ds).map.lineShift = 0)
    (hheader : (Sources.ofScan key code ds).header = none ∨ '\n' ∉ key.text.toList) :
    ∃ u hidden, buildUnit key.analyzedName (Sources.ofScan key code ds).unsaved = .ok u ∧
      HasEntities u (hidden ++ m.entities.map (Entity.moveTo key.analyzedName)) ∧
      ∀ e ∈ hidden, e.symbols (Sources.ofScan key code ds).map = [] := by
  obtain ⟨lx, -, hlex, -⟩ := ofBuffer_eq_ok.1 hreads
  cases hsite : attachedSite? key code ds with
  | none =>
    have hmade : Sources.ofScan key code ds = .renamed key code := by
      rw [Sources.ofScan, hsite]
    obtain ⟨m', hm', hentities⟩ := exists_ofBuffer_moveTo key.analyzedName hlex hlex rfl rfl hreads
    have hfiles : (mainLast key.analyzedName (Sources.renamed key code).unsaved).mapM
        FileModel.ofBuffer = .ok [m'] := by
      have hself : mainLast key.analyzedName (Sources.renamed key code).unsaved =
          [⟨key.analyzedName, code⟩] := by
        simp [mainLast, Sources.unsaved, Sources.renamed]
      rw [hself]
      exact mapM_eq_ok_iff.2 (.cons hm' .nil)
    obtain ⟨u, hbuild, hu⟩ := exists_buildUnit hfiles
    rw [List.flatMap_singleton, hentities] at hu
    rw [hmade]
    exact ⟨u, [], hbuild, hu, by simp⟩
  | some i =>
    have hmade : Sources.ofScan key code ds =
        .withInclude key code (prototypeHeader key ds) i := by
      rw [Sources.ofScan, hsite]
    rw [hmade] at hshift hheader ⊢
    -- the include replaces a blank line
    have hlines : ∀ d ∈ ds, 1 ≤ d.line ∧ d.line ≤ Text.lineCount code.toList := by
      have hall := line_of_mem_definedIn? code
      rwa [hfound] at hall
    obtain ⟨hgone, hbelow⟩ := attachedSite?_eq_some hsite hlines
    have hone : i.gone = 1 := by
      have hzero : 1 - i.gone = 0 := hshift
      omega
    have hline : '\n' ∉ key.text.toList := by
      rcases hheader with hnone | hline
      · cases hnone
      · exact hline
    have hplace : includeSite? key (Text.splitLines code.toList) ds = some i := by
      unfold attachedSite? at hsite
      split at hsite
      · cases hsite
      · exact hsite
    obtain ⟨ds', hfound', hds⟩ := exists_definedIn? hlex
    obtain rfl : ds = ds' := Option.some.inj (hfound.symm.trans hfound')
    obtain ⟨mh, hmh⟩ := exists_ofBuffer_prototypeHeader key.prototypeHeader hline hlex
      fun d hd => (hds d).1 hd
    obtain ⟨lx', hlex', htokens, hmacros⟩ := IncludeSite.exists_lex_of_gone hline hblanks hplace
      hbelow hlex hone
    obtain ⟨mm, hmm, hentities⟩ := exists_ofBuffer_moveTo key.analyzedName hlex hlex' htokens
      (hmacros _) hreads
    have hfiles : (mainLast key.analyzedName
        (Sources.withInclude key code (prototypeHeader key ds) i).unsaved).mapM
          FileModel.ofBuffer = .ok [mh, mm] := by
      rw [mainLast_withInclude hkind]
      exact mapM_eq_ok_iff.2 (.cons hmh (.cons hmm .nil))
    obtain ⟨u, hbuild, hu⟩ := exists_buildUnit hfiles
    rw [List.flatMap_cons, List.flatMap_singleton, hentities] at hu
    refine ⟨u, mh.entities, hbuild, hu, fun e he => ?_⟩
    rw [← moveTo_of_ofBuffer hmh e he]
    refine Entity.symbols_of_isHeader ?_ e
    simp [CoordinateMap.isHeader, Sources.withInclude, Sources.injected]

/-- The unit of a source has the entities of its text. -/
theorem exists_unit_of_plain {key : FilePath} {code : String} {m : FileModel}
    (hm : FileModel.ofBuffer ⟨key, code⟩ = .ok m) :
    ∃ u, buildUnit key (Sources.plain key code).unsaved = .ok u ∧
      HasEntities u (m.entities.map (Entity.moveTo key)) := by
  have hfiles : (mainLast key (Sources.plain key code).unsaved).mapM FileModel.ofBuffer =
      .ok [m] := by
    have hself : mainLast key (Sources.plain key code).unsaved = [⟨key, code⟩] := by
      simp [mainLast, Sources.unsaved, Sources.plain]
    rw [hself]
    exact mapM_eq_ok_iff.2 (.cons hm .nil)
  have hfixed : m.entities.map (Entity.moveTo key) = m.entities :=
    (List.map_congr_left (moveTo_of_ofBuffer hm)).trans (List.map_id _)
  obtain ⟨u, hbuild, hu⟩ := exists_buildUnit hfiles
  rw [List.flatMap_singleton, ← hfixed] at hu
  exact ⟨u, hbuild, hu⟩

/-! ## Lists of symbols -/

section Scanned

variable {key : FilePath} {code : String} {ds : List Definition} {b b₁ : UnitBuilder ModelState}
  {s s₁ : ModelState} {made : Sources} (hkind : key.kind = .sketchEntry)
  (hreads : (FileModel.ofBuffer ⟨key, code⟩).isOk)
  (hfails : s.failsOn (scanRequest key code (b.provider key)) = false)

include hkind hreads hfails

/-- A builder that remembers nothing makes the sources of a scan. -/
theorem exists_buildSources_ofScan (hfound : definedIn? code = some ds)
    (hengine : b.engine = modelEngine) (hfresh : b.transformer = {}) :
    ∃ b₁ s₁, YieldsWith (buildSources key code) b s (.ofScan key code ds) b₁ s₁ ∧
      s.SameScript s₁ := by
  have hscan := yields_definitions? key code (b.provider key) hreads hfails
  rw [hfound] at hscan
  obtain ⟨t, hmade⟩ := Transformer.yields_sources_ofScan hkind hscan
  rw [← hengine, ← hfresh] at hmade
  exact ⟨_, _, yieldsWith_buildSources_iff.2 ⟨t, hmade, rfl⟩, ModelState.sameScript_afterParse s _⟩

/-- What a builder that remembers nothing makes are the sources of a scan. -/
theorem ofScan_of_buildSources (hmade : YieldsWith (buildSources key code) b s made b₁ s₁)
    (hengine : b.engine = modelEngine) (hfresh : b.transformer = {}) :
    ∃ ds, definedIn? code = some ds ∧ made = .ofScan key code ds ∧
      made.main.path = key.analyzedName ∧ s.SameScript s₁ := by
  obtain ⟨m, hm⟩ := exists_of_isOk hreads
  obtain ⟨lx, -, hlex, -⟩ := ofBuffer_eq_ok.1 hm
  obtain ⟨ds, hfound, -⟩ := exists_definedIn? hlex
  obtain ⟨_, _, hofScan, hsame⟩ :=
    exists_buildSources_ofScan hkind hreads hfails hfound hengine hfresh
  obtain ⟨hboth, rfl⟩ := Yields.unique hmade hofScan
  obtain ⟨rfl, -⟩ := Prod.mk.inj hboth
  obtain ⟨⟨_, _, _, _, hsources⟩, -⟩ := yieldsWith_buildSources hmade
  exact ⟨ds, hfound, rfl, (Transformer.path_of_sources hsources).1, hsame⟩

end Scanned

namespace CoreM

/-- A file of which no list is kept gets the symbols of its unit. -/
theorem yieldsWith_symbols {σ : Type} {c c' : AnalysisCore σ} {s s' : σ} {file : FileBuffer}
    {u : CachedUnit} (now : Nat) (hnone : c.symbols.lists.get? (c.builder.key file.path) = none)
    (hunit : YieldsWith (unit? file) c s (some u) c' s') :
    YieldsWith (symbols file now) c s u.symbols
      { c' with
        symbols := c'.symbols.store (c.builder.key file.path) (.ofText file.code) now u.symbols }
      s' := by
  have hlookup : c.symbols.lookup? (c.builder.key file.path) (.ofText file.code) now = none := by
    unfold SymbolCache.lookup?
    rw [hnone]
  exact yieldsWith_symbols_iff.2 (.inr ⟨hlookup, .inr ⟨u, c', hunit, rfl, rfl⟩⟩)

variable {s s₁ : ModelState} {p q : FilePath} {code : String} {made : Sources}
  {b₁ : UnitBuilder ModelState} (settings : Settings) (provided : FilePath → List String)
  (disk : FilePath → Option String)

/-- A fresh analysis lists the symbols of the unit that is built from the sources of a file. -/
theorem exists_symbols_of_sources {u : CompilationUnit}
    (hmade : YieldsWith (buildSources (p.normalize settings.root) code)
      (AnalysisCore.ofSettings modelEngine provided disk settings).builder s made b₁ s₁)
    (hfails : ∀ r, s₁.failsOn r = false) (hbuild : buildUnit made.main.path made.unsaved = .ok u)
    (now : Nat) :
    ∃ (e : CachedUnit) (c : AnalysisCore ModelState) (s₂ : ModelState), e.unit = u ∧
      e.map = made.map ∧ YieldsWith (symbols ⟨p, code⟩ now)
        (.ofSettings modelEngine provided disk settings) s e.symbols c s₂ := by
  obtain ⟨-, hsame⟩ := yieldsWith_buildSources hmade
  have hrun := runFrom_build [] hmade hsame.engine_eq hfails
  rw [List.append_nil, hbuild] at hrun
  obtain ⟨units, hunit⟩ := yieldsWith_unit? (c := .ofSettings modelEngine provided disk settings)
    ⟨p, code⟩ (Table.get?_empty _) hrun
  exact ⟨_, _, _, rfl, rfl, yieldsWith_symbols now (Table.get?_empty _) hunit⟩

/-- The names that a fresh analysis lists are those of what the sources declare. -/
theorem exists_names_of_sources {names : List String}
    (hmade : YieldsWith (buildSources (p.normalize settings.root) code)
      (AnalysisCore.ofSettings modelEngine provided disk settings).builder s made b₁ s₁)
    (hfails : ∀ r, s₁.failsOn r = false)
    (hnames : ((mainLast made.main.path made.unsaved).mapM FileModel.ofBuffer).toOption.map
      (fun files => ((files.flatMap (·.entities)).flatMap (Entity.symbols made.map)).map (·.name)) =
        some names) (now : Nat) :
    ∃ (listed : List Symbol) (c : AnalysisCore ModelState) (s₂ : ModelState),
      YieldsWith (symbols ⟨p, code⟩ now) (.ofSettings modelEngine provided disk settings) s
        listed c s₂ ∧ (listed.map (·.name)).Perm names := by
  obtain ⟨files, hfiles, hnamed⟩ := Option.map_eq_some_iff.1 hnames
  cases hread : (mainLast made.main.path made.unsaved).mapM FileModel.ofBuffer with
  | error f =>
    rw [hread] at hfiles
    cases hfiles
  | ok files' =>
    rw [hread] at hfiles
    obtain rfl : files' = files := Option.some.inj hfiles
    obtain ⟨u, hbuild, hu⟩ := exists_buildUnit hread
    obtain ⟨e, c, s₂, rfl, hmap, hlist⟩ := exists_symbols_of_sources settings provided disk hmade
      hfails hbuild now
    refine ⟨_, c, s₂, hlist, ?_⟩
    rw [hu.symbols_eq, hmap, ← hnamed]
    exact (sortBy_perm _ _).map _

/-- A sketch whose sources shift no line lists the symbols of the same text as a source: the same
names at the same lines and columns, with the same bodies and keys, in the same order; only the file
is that of the sketch. -/
theorem symbols_of_unshifted_sketch (hp : p.kind = .sketchEntry) (hq : q.kind = .source)
    (hfails : ∀ r, s.failsOn r = false) (hreads : (FileModel.ofBuffer ⟨p, code⟩).isOk)
    (hblanks : HasPlainBlanks code)
    (hmade : YieldsWith (buildSources (p.normalize settings.root) code)
      (AnalysisCore.ofSettings modelEngine provided disk settings).builder s made b₁ s₁)
    (hshift : made.map.lineShift = 0)
    (hheader : made.header = none ∨ '\n' ∉ (p.normalize settings.root).text.toList) (now : Nat) :
    ∃ (listed : List Symbol) (c c' : AnalysisCore ModelState) (t t' : ModelState),
      YieldsWith (symbols ⟨q, code⟩ now) (.ofSettings modelEngine provided disk settings) s
        listed c t ∧
      YieldsWith (symbols ⟨p, code⟩ now) (.ofSettings modelEngine provided disk settings) s
        (listed.map (Symbol.moveTo (p.normalize settings.root))) c' t' := by
  have hpkey : (p.normalize settings.root).kind = .sketchEntry :=
    (FilePath.kind_normalize _ (by rw [hp]; decide)).trans hp
  have hqkey : (q.normalize settings.root).kind = .source :=
    (FilePath.kind_normalize _ (by rw [hq]; decide)).trans hq
  -- the text is read alike under every name
  obtain ⟨m₀, hm₀⟩ := exists_of_isOk hreads
  obtain ⟨lx, -, hlex, -⟩ := ofBuffer_eq_ok.1 hm₀
  obtain ⟨mp, hmp, -⟩ := exists_ofBuffer_moveTo (p.normalize settings.root) hlex hlex rfl rfl hm₀
  obtain ⟨m, hm, -⟩ := exists_ofBuffer_moveTo (q.normalize settings.root) hlex hlex rfl rfl hm₀
  obtain ⟨ds, hfound, rfl, hmain, hsame⟩ :=
    ofScan_of_buildSources hpkey (by rw [hmp]; rfl) (hfails _) hmade rfl rfl
  obtain ⟨u', hidden, hbuild', hu', hhidden⟩ :=
    exists_unit_of_unshifted hpkey hm hblanks hfound hshift hheader
  obtain ⟨e', c', t', rfl, hmap', hlist'⟩ := exists_symbols_of_sources settings provided disk hmade
    (fun r => by rw [hsame.failsOn_eq, hfails]) (hmain ▸ hbuild') now
  -- the source is handed over as it is
  obtain ⟨u, hbuild, hu⟩ := exists_unit_of_plain hm
  obtain ⟨e, c, t₀, rfl, hmap, hlist⟩ := exists_symbols_of_sources settings provided disk
    (yieldsWith_buildSources_plain code (by rw [hqkey]; decide)) hfails hbuild now
  have hsymbols := symbols_eq_of_moved (CoordinateMap.shows_identity hqkey)
    (Sources.shows_ofScan hpkey hshift) (FilePath.isEmpty_of_kind (by rw [hqkey]; decide))
    (FilePath.isEmpty_analyzedName (by rw [hpkey]; decide)) hmap hmap' hu hu' hhidden
    (isPlaced_of_ofBuffer hm)
  rw [hsymbols] at hlist'
  exact ⟨_, _, _, _, _, hlist, hlist'⟩

/-- A sketch with a blank line above its function. -/
theorem symbols_of_sketch_over_blank_line :
    ∃ (listed : List Symbol) (c c' : AnalysisCore ModelState) (t t' : ModelState),
      YieldsWith (symbols ⟨⟨"/s/Blink.cpp"⟩, "int a;\n\nvoid setup() \x7b a; \x7d\n"⟩ 0)
        (.ofSettings modelEngine (fun _ => []) (fun _ => none) { root := ⟨"/s"⟩ }) {} listed c t ∧
      YieldsWith (symbols ⟨⟨"/s/Blink.ino"⟩, "int a;\n\nvoid setup() \x7b a; \x7d\n"⟩ 0)
        (.ofSettings modelEngine (fun _ => []) (fun _ => none) { root := ⟨"/s"⟩ }) {}
        (listed.map (Symbol.moveTo ⟨"/s/Blink.ino"⟩)) c' t' := by
  have hreads : (FileModel.ofBuffer
      ⟨⟨"/s/Blink.ino"⟩, "int a;\n\nvoid setup() \x7b a; \x7d\n"⟩).isOk := by cbv
  have hfound : definedIn? "int a;\n\nvoid setup() \x7b a; \x7d\n" =
      some [⟨"setup", 3, "void setup()"⟩] := by cbv
  obtain ⟨b₁, s₁, hmade, -⟩ := exists_buildSources_ofScan (s := {}) (b := (AnalysisCore.ofSettings
    modelEngine (fun _ => []) (fun _ => none) { root := ⟨"/s"⟩ }).builder) (by decide) hreads rfl
    hfound rfl rfl
  exact symbols_of_unshifted_sketch (p := ⟨"/s/Blink.ino"⟩) (q := ⟨"/s/Blink.cpp"⟩)
    { root := ⟨"/s"⟩ } (fun _ => []) (fun _ => none) (by decide) (by decide) (fun _ => rfl) hreads
    (hasPlainBlanks_of_not_mem (by decide)) hmade (by cbv) (.inr (by decide)) 0

/-- The rest of a file name with a line feed is read as a declaration on a line that nobody
wrote. -/
theorem symbols_of_sketch_named_over_lines :
    ∃ made b₁ s₁, YieldsWith (buildSources ⟨"/s/a\nint b;.ino"⟩ "int a;\n\nvoid f() \x7b\x7d\n")
        (AnalysisCore.ofSettings modelEngine (fun _ => []) (fun _ => none)
          { root := ⟨"/s"⟩ }).builder {} made b₁ s₁ ∧
      made.map.lineShift = 0 ∧ HasPlainBlanks "int a;\n\nvoid f() \x7b\x7d\n" ∧
      ∃ (listed listed' : List Symbol) (c c' : AnalysisCore ModelState) (t t' : ModelState),
        YieldsWith (symbols ⟨⟨"/s/a\nint b;.cpp"⟩, "int a;\n\nvoid f() \x7b\x7d\n"⟩ 0)
          (.ofSettings modelEngine (fun _ => []) (fun _ => none) { root := ⟨"/s"⟩ }) {} listed c t ∧
        YieldsWith (symbols ⟨⟨"/s/a\nint b;.ino"⟩, "int a;\n\nvoid f() \x7b\x7d\n"⟩ 0)
          (.ofSettings modelEngine (fun _ => []) (fun _ => none) { root := ⟨"/s"⟩ }) {} listed' c' t' ∧
        "b" ∉ listed.map (·.name) ∧ "b" ∈ listed'.map (·.name) := by
  have hreads : (FileModel.ofBuffer
      ⟨⟨"/s/a\nint b;.ino"⟩, "int a;\n\nvoid f() \x7b\x7d\n"⟩).isOk := by cbv
  have hfound : definedIn? "int a;\n\nvoid f() \x7b\x7d\n" = some [⟨"f", 3, "void f()"⟩] := by
    cbv
  obtain ⟨b₁, s₁, hmade, hsame⟩ := exists_buildSources_ofScan (s := {}) (b := (AnalysisCore.ofSettings
    modelEngine (fun _ => []) (fun _ => none) { root := ⟨"/s"⟩ }).builder) (by decide) hreads rfl
    hfound rfl rfl
  obtain ⟨listed, c, t₁, hlist, hperm⟩ := exists_names_of_sources (s := {})
    (p := ⟨"/s/a\nint b;.cpp"⟩) { root := ⟨"/s"⟩ } (fun _ => []) (fun _ => none)
    (yieldsWith_buildSources_plain "int a;\n\nvoid f() \x7b\x7d\n" (by decide)) (fun _ => rfl)
    (show _ = some ["a", "f"] by decide +kernel) 0
  obtain ⟨listed', c', t₂, hlist', hperm'⟩ := exists_names_of_sources (p := ⟨"/s/a\nint b;.ino"⟩)
    { root := ⟨"/s"⟩ } (fun _ => []) (fun _ => none) hmade (fun r => by rw [hsame.failsOn_eq])
    (show _ = some ["a", "b", "f"] by decide +kernel) 0
  refine ⟨_, _, _, hmade, by decide +kernel, hasPlainBlanks_of_not_mem (by decide), ?_⟩
  refine ⟨listed, listed', c, c', t₁, t₂, hlist, hlist', ?_, ?_⟩
  · rw [hperm.mem_iff]
    decide
  · rw [hperm'.mem_iff]
    decide

end CoreM

end SketchSense
