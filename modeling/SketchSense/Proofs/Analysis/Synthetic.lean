import SketchSense.Engine.Prepared
import SketchSense.Proofs.Analysis.Reached
import SketchSense.Proofs.Diagnostic.Scoping
import SketchSense.Proofs.Sketch.Placement

/-!
# No answer names a synthetic file

The engine knows a sketch by another name and reads generated headers, and its locations are in
those files. Nobody who asks gets to see them: as long as no path that is asked for and no file on
disk has such a name, no answer has one, whatever the engine reports and whatever was asked before.

* `Answer.files`, the files that occur in an answer;
* one lemma for each way from the engine's locations to an answer;
* `AnalysisCore.Reached.not_isSynthetic_of_mem_files`, that none of these files is synthetic.
-/

namespace SketchSense

variable {σ : Type} {root : FilePath}

/-! ## Files in answers -/

namespace Diagnostic

mutual

/-- The files that a diagnostic and its notes are in. -/
def files : Diagnostic → List FilePath
  | ⟨location, _, _, children⟩ => location.file :: filesOfAll children

/-- The files that some diagnostics and their notes are in. -/
def filesOfAll : List Diagnostic → List FilePath
  | [] => []
  | d :: ds => files d ++ filesOfAll ds

end

theorem mem_files {d : Diagnostic} {f : FilePath} :
    f ∈ d.files ↔ f = d.location.file ∨ f ∈ filesOfAll d.children := by
  obtain ⟨location, severity, message, children⟩ := d
  rw [files, List.mem_cons]

theorem mem_filesOfAll {ds : List Diagnostic} {f : FilePath} :
    f ∈ filesOfAll ds ↔ ∃ d ∈ ds, f ∈ d.files := by
  induction ds with
  | nil => simp [filesOfAll]
  | cons d ds ih => rw [filesOfAll, List.mem_append, ih, List.exists_mem_cons_iff]

end Diagnostic

/-- The files that occur in an answer. What is shown for a position names no file. -/
def Answer.files : Answer → List FilePath
  | .diagnostics pass => Diagnostic.filesOfAll pass.diagnostics
  | .completions items => items.filterMap (·.file)
  | .hover _ => []
  | .definition target => target.toList.map (·.file)
  | .occurrences targets => targets.map (·.file)
  | .symbols ss => ss.map (·.location.file)
  | .container none => []
  | .container (some c) => c.location.file :: c.members.map (·.location.file)
  | .project pass => Diagnostic.filesOfAll pass.diagnostics

/-! ## Paths -/

/-- The file that a path leads to from `root` has no name made for a sketch. For a path that ends with
a file name that is the name it ends with; one that ends with `..` leads to a directory. -/
def LeadsToOrdinary (root p : FilePath) : Prop := (p.normalize root).isSynthetic = false

theorem not_isSynthetic_of_isKeyOf {key : FilePath} (h : IsKeyOf (LeadsToOrdinary root) root key) :
    key.isSynthetic = false := by
  obtain ⟨p, hp, rfl⟩ := h
  exact hp

/-! ## From units to answers -/

namespace CachedUnit.Presents

variable {u : CachedUnit} (hu : u.Presents (IsKeyOf (LeadsToOrdinary root) root)) {f : FilePath}

include hu

/-- The map of a unit leads to no synthetic file, from wherever the engine has been. -/
theorem not_isSynthetic_of_toEdited {l l' : Location} (h : u.map.toEdited l = some l') :
    l'.file.isSynthetic = false := by
  rcases CoordinateMap.file_of_toEdited h with ⟨hfile, -⟩ | hfile
  · rw [hfile, hu.edited]
    exact not_isSynthetic_of_isKeyOf hu.key
  · rw [hfile]
    exact FilePath.isSynthetic_editedName _

theorem not_isSynthetic_of_mem_collect {raws : List RawDiagnostic} {d : Diagnostic}
    (hd : d ∈ Scope.collect ⟨root, u.map⟩ raws) (hf : f ∈ d.files) : f.isSynthetic = false := by
  obtain ⟨⟨l, -, hplace⟩, notes, hchildren⟩ := Scope.exists_of_mem_collect hd
  rcases Diagnostic.mem_files.1 hf with rfl | hf
  · exact hu.not_isSynthetic_of_toEdited hplace
  · rw [hchildren] at hf
    obtain ⟨note, hnote, hf⟩ := Diagnostic.mem_filesOfAll.1 hf
    obtain ⟨hwhere, hnone⟩ := Scope.of_mem_notes hnote
    rw [Diagnostic.mem_files, hnone] at hf
    obtain rfl := hf.resolve_right List.not_mem_nil
    -- a note may name no file at all
    rcases hwhere with hunknown | ⟨l, hplace⟩
    · exact FilePath.not_isSynthetic_of_isEmpty hunknown
    · exact hu.not_isSynthetic_of_toEdited hplace

theorem not_isSynthetic_of_symbol? {c : Cursor} {s : Symbol} (h : u.symbol? c = some s) :
    s.location.file.isSynthetic = false := by
  unfold symbol? at h
  split at h
  · cases h
  · split at h
    · cases h
    · obtain ⟨l, hplace, rfl⟩ := Option.map_eq_some_iff.1 h
      exact hu.not_isSynthetic_of_toEdited hplace

theorem not_isSynthetic_of_mem_symbols {s : Symbol} (hs : s ∈ u.symbols) :
    s.location.file.isSynthetic = false := by
  obtain ⟨⟨c, parent⟩, -, hsymbol⟩ := List.mem_filterMap.1 ((sortBy_perm _ _).mem_iff.1 hs)
  exact hu.not_isSynthetic_of_symbol? hsymbol

theorem not_isSynthetic_of_mem_members {owner : Cursor} {s : Symbol} (hs : s ∈ u.members owner) :
    s.location.file.isSynthetic = false := by
  obtain ⟨⟨c, parent⟩, -, hsymbol⟩ := List.mem_filterMap.1 ((sortBy_perm _ _).mem_iff.1 hs)
  dsimp only at hsymbol
  split at hsymbol
  · exact hu.not_isSynthetic_of_symbol? hsymbol
  · cases hsymbol

theorem not_isSynthetic_of_container? {line column : Nat} {r : Option Container}
    (h : u.container? line column = .ok r) (hf : f ∈ (Answer.container r).files) :
    f.isSynthetic = false := by
  cases r with
  | none => exact absurd hf List.not_mem_nil
  | some container =>
    unfold container? at h
    cases hplace : u.map.toAnalyzed line column with
    | error fault =>
      rw [hplace] at h
      cases h
    | ok l =>
      rw [hplace] at h
      obtain ⟨⟨c, parent⟩, -, hmade⟩ := Option.bind_eq_some_iff.1 (Except.ok.inj h)
      obtain ⟨l', hedited, rfl⟩ := Option.map_eq_some_iff.1 hmade
      rcases List.mem_cons.1 hf with rfl | hf
      · exact hu.not_isSynthetic_of_toEdited hedited
      · obtain ⟨s, hs, rfl⟩ := List.mem_map.1 hf
        exact hu.not_isSynthetic_of_mem_members hs

theorem not_isSynthetic_of_mem_occurrences {target : OccurrenceTarget} {within : Option FilePath}
    {l : Location} (h : l ∈ u.occurrences target within) : l.file.isSynthetic = false := by
  obtain ⟨⟨c, parent⟩, -, hplace⟩ := List.mem_filterMap.1 h
  dsimp only at hplace
  split at hplace
  · exact hu.not_isSynthetic_of_toEdited (Option.filter_eq_some_iff.1 hplace).1
  · cases hplace

end CachedUnit.Presents

/-! ## Definitions -/

/-- A definition beside a header is in a file with a text. -/
theorem exists_text_of_definitionAmong? {b : UnitBuilder σ} {texts : SourceTexts}
    {key : FunctionKey} {paths : List FilePath} {s s' : σ} {l : Location}
    (h : Yields (definitionAmong? b texts key paths) s (some l) s') :
    ∃ path, (texts.text? path).isSome ∧ (l.file == path) = true := by
  induction paths generalizing s with
  | nil => simp [definitionAmong?] at h
  | cons path rest ih =>
    unfold definitionAmong? at h
    split at h
    · exact ih h
    · next code hcode =>
      rw [yields_bind] at h
      obtain ⟨parsed, t, -, h⟩ := h
      cases parsed with
      | error e => exact ih h
      | ok u =>
        dsimp only at h
        split at h
        · next found hfound =>
          obtain ⟨hl, -⟩ := yields_pure.1 h
          obtain rfl := Option.some.inj hl
          unfold CompilationUnit.findFunction? at hfound
          obtain ⟨⟨c, parent⟩, hfind, rfl⟩ := Option.map_eq_some_iff.1 hfound
          have hfits := List.find?_some hfind
          dsimp only at hfits
          rw [Bool.and_eq_true, Bool.and_eq_true] at hfits
          exact ⟨path, by rw [hcode]; rfl, hfits.1.2⟩
        · exact ih h

/-- What is at a position is in the file that the position was asked in. -/
theorem file_of_cursorAt {u : CachedUnit} {line column : Nat} {a : Location} {c : Cursor}
    (ha : u.map.toAnalyzed line column = .ok a) (hc : u.unit.cursorAt a = some c) :
    (c.location.file == u.map.analyzed) = true := by
  obtain ⟨-, rfl⟩ := toAnalyzed_eq.1 ha
  obtain ⟨n, hn, rfl⟩ := Option.map_eq_some_iff.1 hc
  have hnamed := List.find?_some hn
  unfold Node.isNamedAt at hnamed
  rw [Bool.and_eq_true, Bool.and_eq_true, Bool.and_eq_true] at hnamed
  exact hnamed.1.1.1

/-- What a text is found for is given to the engine, open or on disk. -/
theorem exists_of_isSome_text? {texts : SourceTexts} {path : FilePath}
    (h : (texts.text? path).isSome) :
    (∃ t ∈ texts.unsaved ++ texts.files, (t.path == path) = true) ∨ (texts.disk path).isSome := by
  have hfound {ts : List FileBuffer} (h : (codeOf? path ts).isSome) :
      ∃ t ∈ ts, (t.path == path) = true := by
    unfold codeOf? at h
    rw [Option.isSome_map, List.find?_isSome] at h
    exact h
  unfold SourceTexts.text? at h
  rw [Option.isSome_or, Option.isSome_or, Bool.or_eq_true, Bool.or_eq_true] at h
  rcases h with h | h | h
  · obtain ⟨t, ht, hpath⟩ := hfound h
    exact .inl ⟨t, List.mem_append_left _ ht, hpath⟩
  · obtain ⟨t, ht, hpath⟩ := hfound h
    exact .inl ⟨t, List.mem_append_right _ ht, hpath⟩
  · exact .inr h

/-- A definition is where a unit has it, or beside a header in a file with a text. -/
theorem exists_of_findDefinition? {b : UnitBuilder σ} {texts : SourceTexts} {u : CachedUnit}
    {line column : Nat} {s s' : σ} {l : Location}
    (h : Yields (findDefinition? b texts u line column) s (some l) s') :
    (∃ l₀, u.map.toEdited l₀ = some l) ∨
      u.map.analyzed.kind = .header ∧ ∃ path, (texts.text? path).isSome ∧ (l.file == path) = true := by
  unfold findDefinition? at h
  rw [yields_bind] at h
  obtain ⟨a, t, ha, h⟩ := h
  have hhere {found : Option Cursor} {r : σ}
      (h : Yields (pure (found.bind u.jumpTo?) : EngineM σ _) r (some l) s') :
      ∃ l₀, u.map.toEdited l₀ = some l := by
    obtain ⟨d, -, hd⟩ := Option.bind_eq_some_iff.1 (yields_pure.1 h).1.symm
    unfold CachedUnit.jumpTo? at hd
    split at hd
    · cases hd
    · exact ⟨_, hd⟩
  cases hcursor : u.unit.cursorAt a with
  | none =>
    rw [hcursor] at h
    cases (yields_pure.1 h).1
  | some cursor =>
    rw [hcursor] at h
    dsimp only at h
    split at h
    · next hheader =>
      split at h
      · rw [yields_bind] at h
        obtain ⟨beside, t', hbeside, h⟩ := h
        cases beside with
        | none => exact .inl (hhere h)
        | some found =>
          refine .inr ⟨?_, ?_⟩
          · -- the cursor is in the file that the position was asked in
            rw [← FilePath.kind_eq_of_beq (file_of_cursorAt (yields_mk.1 ha).1 hcursor)]
            exact hheader
          · obtain ⟨hl, -⟩ := yields_pure.1 h
            rw [Option.some.inj hl]
            unfold siblingDefinition? at hbeside
            split at hbeside
            · cases (yields_pure.1 hbeside).1
            · exact exists_text_of_definitionAmong? hbeside
      · exact .inl (hhere h)
    · exact .inl (hhere h)

/-- A file that a sketch is analysed as is no header, so a name in a header is asked for in a file
that is handed over as it is. -/
theorem CachedUnit.PresentsAlone.path_of_header {K : FilePath → Prop} {u : CachedUnit}
    (hu : u.PresentsAlone K) (hkind : u.map.analyzed.kind = .header) :
    ∀ t ∈ u.unsaved, t.path = u.key := by
  refine hu.plain fun hsketch => ?_
  rw [hu.analyzed, FilePath.kind_analyzedName hsketch] at hkind
  split at hkind
  · cases hkind
  · cases hkind

theorem not_isSynthetic_of_findDefinition? {c : AnalysisCore σ} {u : CachedUnit} {s s' : σ}
    {files : List FileBuffer} {line column : Nat} {l : Location}
    (hc : c.Presenting (LeadsToOrdinary root) root)
    (hu : u.PresentsAlone (IsKeyOf (LeadsToOrdinary root) root))
    (hfiles : ∀ f ∈ files, LeadsToOrdinary root f.path)
    (h : Yields (findDefinition? c.builder (c.textsFor u files) u line column) s (some l) s') :
    l.file.isSynthetic = false := by
  rcases exists_of_findDefinition? h with ⟨l₀, hedited⟩ | ⟨hheader, path, htext, hfile⟩
  · exact hu.not_isSynthetic_of_toEdited hedited
  · rw [FilePath.isSynthetic_eq_of_beq hfile]
    rcases exists_of_isSome_text? htext with ⟨text, hmem, hpath⟩ | hdisk
    · rw [← FilePath.isSynthetic_eq_of_beq hpath]
      rcases List.mem_append.1 hmem with hown | hopen
      · rw [hu.path_of_header hheader text hown]
        exact not_isSynthetic_of_isKeyOf hu.key
      · exact FilePath.not_isSynthetic_of_normalize (hfiles text hopen)
    · exact FilePath.not_isSynthetic_of_normalize (hc.disk path hdisk)

/-! ## Completions -/

/-- A chosen completion is in the file of one that was proposed. -/
theorem exists_of_mem_chooseCompletions {typed : String} {is : List CompletionItem} {limit : Nat}
    {i : CompletionItem} (h : i ∈ chooseCompletions typed is limit) : ∃ j ∈ is, i.file = j.file := by
  unfold chooseCompletions CompletionItem.foldOverloads at h
  obtain ⟨j, hj, rfl⟩ := List.mem_map.1 (List.mem_of_mem_take h)
  have hsorted := (sortBy_perm _ _).mem_iff.1 (mem_of_mem_keepFirst hj)
  exact ⟨j, (List.mem_filter.1 hsorted).1, rfl⟩

theorem not_isSynthetic_of_item {symbols : List Symbol} (candidate : Candidate) {f : FilePath}
    (hsymbols : ∀ s ∈ symbols, s.location.file.isSynthetic = false)
    (h : (candidate.item symbols root).file = some f) : f.isSynthetic = false := by
  have hfile : (declaredIn? symbols root candidate.text).or (candidate.file.map (·.editedName)) =
      some f := h
  rcases Option.or_eq_some_iff.1 hfile with hown | ⟨-, hdeclared⟩
  · obtain ⟨s, hs, rfl⟩ := Option.map_eq_some_iff.1 hown
    exact hsymbols s (List.mem_of_find?_eq_some hs)
  · obtain ⟨g, -, rfl⟩ := Option.map_eq_some_iff.1 hdeclared
    exact FilePath.isSynthetic_editedName g

/-! ## Answers -/

namespace AnalysisCore.Reached

theorem not_isSynthetic_of_listsUnit {symbols : List Symbol}
    (h : ListsUnit (LeadsToOrdinary root) root symbols) :
    ∀ s ∈ symbols, s.location.file.isSynthetic = false := by
  obtain ⟨u, hu, rfl⟩ := h
  exact fun s hs => hu.not_isSynthetic_of_mem_symbols hs

theorem not_isSynthetic_of_reported {ds : List Diagnostic}
    (h : CoreM.Reported (LeadsToOrdinary root) root ds) {f : FilePath}
    (hf : f ∈ Diagnostic.filesOfAll ds) : f.isSynthetic = false := by
  cases h with
  | collected hu raw =>
    obtain ⟨d, hd, hf⟩ := Diagnostic.mem_filesOfAll.1 hf
    exact hu.not_isSynthetic_of_mem_collect hd hf
  | failure hkey _ =>
    obtain rfl : f = _ := by
      simpa [Diagnostic.filesOfAll, Diagnostic.files, Diagnostic.parseFailure] using hf
    exact not_isSynthetic_of_isKeyOf hkey
  | nothing => exact absurd hf List.not_mem_nil

theorem not_isSynthetic_of_merged {project : ProjectCache}
    (h : project.Presenting (IsKeyOf (LeadsToOrdinary root) root) root) {o : Enumeration ProjectUnit}
    {f : FilePath} (hf : f ∈ Diagnostic.filesOfAll (mergedDiagnostics (project.units.valuesIn o))) :
    f.isSynthetic = false := by
  obtain ⟨d, hd, hf⟩ := Diagnostic.mem_filesOfAll.1 hf
  have hd := (sortBy_perm _ _).mem_iff.1 (mem_of_mem_keepFirst hd)
  obtain ⟨p, hp, hd⟩ := List.mem_flatMap.1 hd
  obtain ⟨e, he, rfl⟩ := List.mem_map.1 ((project.units.valuesIn_perm o).mem_iff.1 hp)
  obtain ⟨hkey, hunit, hfailure⟩ := h e he
  cases hu : e.2.unit with
  | some u =>
    obtain ⟨hpresents, raw, hraw⟩ := hunit u hu
    rw [hraw] at hd
    exact hpresents.not_isSynthetic_of_mem_collect hd hf
  | none =>
    rw [hfailure hu, List.mem_singleton] at hd
    rw [hd] at hf
    obtain rfl : f = _ := by
      simpa [Diagnostic.filesOfAll, Diagnostic.files, Diagnostic.parseFailureIn] using hf
    exact not_isSynthetic_of_isKeyOf hkey

variable {c c' : AnalysisCore σ} {live : Bool} {r : Request} {e : Enumeration ProjectUnit} {s s' : σ}
  {a : Answer}

/-- Whatever happened to an analysis before, and whatever the engine reports, no file in an answer has
the name under which a sketch is analysed or that of a generated header, as long as no path in a
request and no file on disk leads to one. -/
theorem not_isSynthetic_of_mem_files (hc : c.Reached (LeadsToOrdinary root) root)
    (hpaths : ∀ p ∈ r.paths, LeadsToOrdinary root p)
    (h : YieldsWith (CoreM.answer live r e) c s a c' s') :
    ∀ f ∈ a.files, f.isAnalyzedEntry = false ∧ f.isPrototypeHeader = false := by
  intro f hf
  rw [← Bool.or_eq_false_iff]
  show f.isSynthetic = false
  have hc := hc.presenting
  cases r with
  | diagnostics file =>
    obtain ⟨pass, _, _, hrun, hend⟩ := yieldsWith_bind.1 h
    obtain ⟨rfl, -⟩ := yieldsWith_pure.1 hend
    have hreported := (CoreM.keeps_diagnostics (hpaths _ (by simp [Request.paths])) hrun hc).2
    exact not_isSynthetic_of_reported hreported hf
  | completions p =>
    obtain ⟨items, _, _, hrun, hend⟩ := yieldsWith_bind.1 h
    obtain ⟨rfl, -⟩ := yieldsWith_pure.1 hend
    obtain ⟨i, hi, hfile⟩ := List.mem_filterMap.1 hf
    rcases (CoreM.keeps_completions (hpaths _ (by simp [Request.paths])) hrun hc).2 with
      rfl | ⟨symbols, typed, candidates, limit, hlists, rfl⟩
    · exact absurd hi List.not_mem_nil
    · obtain ⟨j, hj, hsame⟩ := exists_of_mem_chooseCompletions hi
      obtain ⟨candidate, -, rfl⟩ := List.mem_map.1 hj
      rw [hsame] at hfile
      exact not_isSynthetic_of_item candidate (not_isSynthetic_of_listsUnit hlists) hfile
  | hover p files =>
    obtain ⟨shown, _, _, -, hend⟩ := yieldsWith_bind.1 h
    obtain ⟨rfl, -⟩ := yieldsWith_pure.1 hend
    exact absurd hf List.not_mem_nil
  | definition p files =>
    obtain ⟨target, _, _, hrun, hend⟩ := yieldsWith_bind.1 h
    obtain ⟨rfl, -⟩ := yieldsWith_pure.1 hend
    obtain ⟨l, hl, rfl⟩ := List.mem_map.1 hf
    obtain rfl := Option.mem_toList.1 hl
    rcases (CoreM.keeps_definition (hpaths _ (by simp [Request.paths])) files hrun hc).2 with
      hnone | ⟨core, u, t, t', hcore, hu, hfound⟩
    · cases hnone
    · exact not_isSynthetic_of_findDefinition? hcore hu
        (fun g hg => hpaths _ (List.mem_cons_of_mem _ (List.mem_map_of_mem hg))) hfound
  | occurrences p scope files =>
    obtain ⟨targets, _, _, hrun, hend⟩ := yieldsWith_bind.1 h
    obtain ⟨rfl, -⟩ := yieldsWith_pure.1 hend
    obtain ⟨l, hl, rfl⟩ := List.mem_map.1 hf
    have hfiles : ∀ g ∈ files, LeadsToOrdinary root g.path :=
      fun g hg => hpaths _ (List.mem_cons_of_mem _ (List.mem_map_of_mem hg))
    obtain ⟨u, target, within, hu, hmem⟩ := (CoreM.keeps_occurrences
      (hpaths _ (by simp [Request.paths])) scope hfiles live hrun hc).2 l hl
    exact hu.not_isSynthetic_of_mem_occurrences hmem
  | symbols file now =>
    obtain ⟨symbols, _, _, hrun, hend⟩ := yieldsWith_bind.1 h
    obtain ⟨rfl, -⟩ := yieldsWith_pure.1 hend
    obtain ⟨symbol, hsymbol, rfl⟩ := List.mem_map.1 hf
    rcases (CoreM.keeps_symbols (hpaths _ (by simp [Request.paths])) now hrun hc).2 with
      rfl | hlists
    · exact absurd hsymbol List.not_mem_nil
    · exact not_isSynthetic_of_listsUnit hlists symbol hsymbol
  | container p =>
    obtain ⟨container, _, _, hrun, hend⟩ := yieldsWith_bind.1 h
    obtain ⟨rfl, -⟩ := yieldsWith_pure.1 hend
    rcases (CoreM.keeps_container (hpaths _ (by simp [Request.paths])) hrun hc).2 with
      rfl | ⟨u, hu, hcontainer⟩
    · exact absurd hf List.not_mem_nil
    · exact hu.not_isSynthetic_of_container? hcontainer hf
  | project files =>
    obtain ⟨pass, _, _, hrun, hend⟩ := yieldsWith_bind.1 h
    obtain ⟨rfl, -⟩ := yieldsWith_pure.1 hend
    obtain ⟨hc', hmerged⟩ := CoreM.yieldsWith_projectDiagnostics
      (fun g hg => hpaths _ (List.mem_map_of_mem hg)) hc hrun
    have hf : f ∈ Diagnostic.filesOfAll pass.diagnostics := hf
    rw [hmerged] at hf
    exact not_isSynthetic_of_merged hc'.project hf

/-- A unit of a sketch, with an error that has a note in a generated header and one in another
sketch. -/
def blinkUnit : CompilationUnit where
  mainFile := ⟨"/s/Blink.ino.cpp"⟩
  nodes := []
  diagnostics :=
    [.at .error ⟨⟨"/s/Blink.ino.cpp"⟩, 1, 5⟩ "redefinition of 'a'",
      .at .note ⟨⟨"/s/Blink.ino.hpp"⟩, 3, 1⟩ "expanded from here",
      .at .note ⟨⟨"/s/lib/Other.INO.CPP"⟩, 2, 5⟩ "previous definition is here"]
  candidates := []

/-- The error is in the sketch, one note is left, and it is in the other sketch. -/
theorem not_isSynthetic_in_blink :
    ∃ a c' s', YieldsWith (CoreM.answer true (.diagnostics ⟨⟨"/s/Blink.ino"⟩, "int a;\nint a;\n"⟩))
        (.ofSettings (preparedEngine fun _ => some blinkUnit) (fun _ => []) (fun _ => none)
          { root := ⟨"/s"⟩ }) {} a c' s' ∧
      a.files.map (·.text) = ["/s/Blink.ino", "/s/lib/Other.INO"] ∧
      ∀ f ∈ a.files, f.isAnalyzedEntry = false ∧ f.isPrototypeHeader = false := by
  generalize hstart : AnalysisCore.ofSettings (preparedEngine fun _ => some blinkUnit) (fun _ => [])
    (fun _ => none) { root := ⟨"/s"⟩ } = start
  generalize hr : Request.diagnostics ⟨⟨"/s/Blink.ino"⟩, "int a;\nint a;\n"⟩ = r
  have hanswer : (EngineM.runFrom ((CoreM.answer true r).run start) {}).1.toOption.map
      (fun found => found.1.files.map (·.text)) = some ["/s/Blink.ino", "/s/lib/Other.INO"] := by
    rw [← hstart, ← hr]
    decide +kernel
  obtain ⟨a, c', s', hrun, hfiles⟩ := exists_yieldsWith hanswer
  have hstarted : start.Reached (LeadsToOrdinary ⟨"/s"⟩) ⟨"/s"⟩ := by
    rw [← hstart]
    exact .start _ _ rfl fun p hp => by cases hp
  refine ⟨a, c', s', hrun, hfiles, not_isSynthetic_of_mem_files hstarted ?_ hrun⟩
  rw [← hr]
  intro p hp
  rw [List.mem_singleton.1 hp]
  unfold LeadsToOrdinary
  decide

end AnalysisCore.Reached

end SketchSense
