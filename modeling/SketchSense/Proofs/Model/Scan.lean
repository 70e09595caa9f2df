import Mathlib.Data.List.Forall2
import SketchSense.Model.Engine
import SketchSense.Proofs.Engine.Run
import SketchSense.Proofs.Model.Entities
import SketchSense.Proofs.Model.Numbering
import SketchSense.Proofs.Sketch.Prototypes
import SketchSense.Proofs.Text.Lines

/-!
# What the model engine finds

A parse of the model engine yields the unit of the given texts and leaves alone what it was told to
fail on. A scan finds the functions that the tokens of the text define, and nothing else.

* `yields_parse`, a parse that succeeds;
* `ofBuffer_eq_ok`, what a file declares, one declaration after the other;
* `map_definedIn`, that what is read off the functions of a unit is read off their heads;
* `definedIn?`, the functions that the tokens of a text define, with `definitions?_eq` and
  `yields_definitions?`, that a scan finds these, and `definitionsIn_eq_map`, in the order of the
  text.
-/

namespace SketchSense

/-- Whether a cursor defines a function in a file. -/
def Cursor.definesIn (file : FilePath) (c : Cursor) : Bool :=
  c.kind = .function && c.isDefinition && c.location.file == file

/-- The cursors that define functions at the top level of a file, in the order of the unit. -/
def CompilationUnit.definedIn (u : CompilationUnit) (file : FilePath) : List Cursor :=
  u.topLevel.filter (Cursor.definesIn file)

namespace Model

/-! ## Parses -/

variable {s s' : ModelState} {r : ParseRequest} {u : CompilationUnit}

/-- The state after a parse. -/
def ModelState.afterParse (s : ModelState) (r : ParseRequest) : ModelState :=
  { s with
    parses := s.parses + 1
    recorded := s.recorded ++ [⟨r.mainFile, r.args, r.options, r.unsaved.map (·.path), s.failsOn r⟩] }

/-- A parse that succeeds is a build of the unit. -/
theorem yields_parse :
    Yields (modelEngine.parse r) s (.ok u) s' ↔ s' = s.afterParse r ∧ s.failsOn r = false ∧
      r.mainCode?.isSome ∧ buildUnit r.mainFile r.unsaved = .ok u := by
  show Yields (parse r) s (.ok u) s' ↔ _
  unfold parse
  simp only [yields_bind, yields_get, yields_set]
  constructor
  · rintro ⟨_, _, ⟨hs, -⟩, _, _, ht, h⟩
    rw [ht, hs] at h
    cases hfails : s.failsOn r with
    | true => simp [hfails] at h
    | false =>
      cases hmain : r.mainCode? with
      | none => simp [hfails, hmain] at h
      | some code =>
        simp only [hfails, hmain, Bool.false_eq_true, if_false, Option.isNone_some, yields_bind,
          yields_mk, yields_pure] at h
        obtain ⟨_, _, ⟨hbuild, rfl⟩, hu, rfl⟩ := h
        cases hu
        exact ⟨by simp [ModelState.afterParse, hfails], rfl, rfl, hbuild⟩
  · rintro ⟨rfl, hfails, hmain, hbuild⟩
    refine ⟨s, s, ⟨rfl, rfl⟩, ⟨⟩, _, rfl, ?_⟩
    obtain ⟨code, hcode⟩ := Option.isSome_iff_exists.1 hmain
    simp only [hfails, hcode, Bool.false_eq_true, if_false, Option.isNone_some, yields_bind,
      yields_mk, yields_pure]
    exact ⟨u, _, ⟨hbuild, rfl⟩, rfl, by simp [ModelState.afterParse, hfails]⟩

/-! ## Files -/

/-- What a file declares: its macros, then what its declarations make, one after the other. -/
theorem ofBuffer_eq_ok {b : FileBuffer} {m : FileModel} :
    FileModel.ofBuffer b = .ok m ↔ ∃ lx declared, lex b.code = .ok lx ∧
      (declarations false lx.tokens).mapM (Declaration.entity? b.path) = .ok declared ∧
      m = ⟨lx.directives.filterMap (Directive.macro? b.path) ++ declared.filterMap id,
        lx.directives.filterMap (Directive.report? b.path)⟩ := by
  unfold FileModel.ofBuffer
  cases lex b.code with
  | error e =>
    constructor
    · intro h
      cases h
    · rintro ⟨_, _, h, -⟩
      cases h
  | ok lx =>
    cases hdeclared : (declarations false lx.tokens).mapM (Declaration.entity? b.path) with
    | error e =>
      constructor
      · intro h
        simp [hdeclared, bind, Except.bind] at h
      · rintro ⟨_, _, hlx, h, -⟩
        cases hlx
        rw [hdeclared] at h
        cases h
    | ok declared =>
      constructor
      · intro h
        simp only [hdeclared, bind, Except.bind] at h
        cases h
        exact ⟨lx, declared, rfl, hdeclared, rfl⟩
      · rintro ⟨_, _, hlx, h, rfl⟩
        cases hlx
        rw [hdeclared] at h
        cases h
        simp [hdeclared, bind, Except.bind, pure, Except.pure]

theorem exists_of_isOk {α ε : Type} {x : Except ε α} (h : x.isOk) : ∃ a, x = .ok a := by
  cases x with
  | error e => cases h
  | ok a => exact ⟨a, rfl⟩

/-- A list of computations succeeds if each of them does. -/
theorem mapM_eq_ok_iff {α β ε : Type} {f : α → Except ε β} {as : List α} {bs : List β} :
    as.mapM f = .ok bs ↔ List.Forall₂ (fun a b => f a = .ok b) as bs := by
  induction as generalizing bs with
  | nil =>
    rw [List.mapM_nil, List.forall₂_nil_left_iff]
    constructor
    · intro h
      cases h
      rfl
    · rintro rfl
      rfl
  | cons a as ih =>
    rw [List.mapM_cons, List.forall₂_cons_left_iff]
    constructor
    · intro h
      cases ha : f a with
      | error e =>
        rw [ha] at h
        cases h
      | ok b =>
        cases has : as.mapM f with
        | error e =>
          rw [ha, has] at h
          cases h
        | ok bs' =>
          rw [ha, has] at h
          cases h
          exact ⟨b, bs', rfl, ih.1 has, rfl⟩
    · rintro ⟨b, bs', ha, has, rfl⟩
      rw [ha, ih.2 has]
      rfl

/-- Each computation of a list has its result, and each result its computation. -/
theorem mem_of_mapM_eq_ok {α β ε : Type} {f : α → Except ε β} {as : List α} {bs : List β}
    (h : as.mapM f = .ok bs) :
    (∀ a ∈ as, ∃ b ∈ bs, f a = .ok b) ∧ ∀ b ∈ bs, ∃ a ∈ as, f a = .ok b := by
  rw [mapM_eq_ok_iff] at h
  induction h with
  | nil => simp
  | @cons a b as bs hab _ ih =>
    obtain ⟨hleft, hright⟩ := ih
    constructor
    · intro c hc
      rcases List.mem_cons.1 hc with rfl | hc
      · exact ⟨b, List.mem_cons_self, hab⟩
      · obtain ⟨d, hd, hcd⟩ := hleft c hc
        exact ⟨d, List.mem_cons_of_mem _ hd, hcd⟩
    · intro c hc
      rcases List.mem_cons.1 hc with rfl | hc
      · exact ⟨a, List.mem_cons_self, hab⟩
      · obtain ⟨d, hd, hdc⟩ := hright c hc
        exact ⟨d, List.mem_cons_of_mem _ hd, hdc⟩

theorem exists_mapM_eq_ok {α β ε : Type} {f : α → Except ε β} {as : List α}
    (h : ∀ a ∈ as, ∃ b, f a = .ok b) : ∃ bs, as.mapM f = .ok bs := by
  induction as with
  | nil => exact ⟨[], rfl⟩
  | cons a as ih =>
    obtain ⟨b, hb⟩ := h a List.mem_cons_self
    obtain ⟨bs, hbs⟩ := ih fun c hc => h c (List.mem_cons_of_mem _ hc)
    exact ⟨b :: bs, mapM_eq_ok_iff.2 (.cons hb (mapM_eq_ok_iff.1 hbs))⟩

/-- A list of computations fails as one of them does. -/
theorem exists_of_mapM_eq_error {α β ε : Type} {f : α → Except ε β} {as : List α} {e : ε}
    (h : as.mapM f = .error e) : ∃ a ∈ as, f a = .error e := by
  induction as with
  | nil => cases h
  | cons a as ih =>
    rw [List.mapM_cons] at h
    cases ha : f a with
    | error e' =>
      rw [ha] at h
      cases h
      exact ⟨a, List.mem_cons_self, ha⟩
    | ok b =>
      cases has : as.mapM f with
      | error e' =>
        rw [ha, has] at h
        cases h
        obtain ⟨c, hc, hfc⟩ := ih has
        exact ⟨c, List.mem_cons_of_mem a hc, hfc⟩
      | ok bs =>
        rw [ha, has] at h
        cases h

/-- A unit of one text is what that text declares. -/
theorem exists_ofBuffer_of_buildUnit {u : CompilationUnit} {path : FilePath} {code : String}
    (h : buildUnit path [⟨path, code⟩] = .ok u) :
    ∃ m, FileModel.ofBuffer ⟨path, code⟩ = .ok m ∧ HasEntities u m.entities ∧
      u.diagnostics = m.diagnostics := by
  have hone : mainLast path [⟨path, code⟩] = [⟨path, code⟩] := by simp [mainLast]
  obtain ⟨files, hfiles, hu⟩ := buildUnit_eq_ok.1 h
  rw [hone] at hfiles
  cases mapM_eq_ok_iff.1 hfiles with
  | cons hm hrest =>
    cases hrest
    rw [List.flatMap_singleton, List.flatMap_singleton] at hu
    exact ⟨_, hm, by rw [hu]; rfl, by rw [hu]⟩

theorem exists_buildUnit_of_ofBuffer {path : FilePath} {code : String} {m : FileModel}
    (h : FileModel.ofBuffer ⟨path, code⟩ = .ok m) : ∃ u, buildUnit path [⟨path, code⟩] = .ok u := by
  have hone : (mainLast path [⟨path, code⟩]).mapM FileModel.ofBuffer = .ok [m] := by
    have hself : mainLast path [⟨path, code⟩] = [⟨path, code⟩] := by simp [mainLast]
    rw [hself]
    exact mapM_eq_ok_iff.2 (.cons h .nil)
  obtain ⟨u, hbuild, -⟩ := exists_buildUnit hone
  exact ⟨u, hbuild⟩

/-- A scan of a text that the engine can read. -/
theorem yields_scan {path : FilePath} {code : String} {args : List String} {m : FileModel}
    (hreads : FileModel.ofBuffer ⟨path, code⟩ = .ok m)
    (hfails : s.failsOn (scanRequest path code args) = false) :
    ∃ u, Yields (modelEngine.parse (scanRequest path code args)) s (.ok u)
        (s.afterParse (scanRequest path code args)) ∧ buildUnit path [⟨path, code⟩] = .ok u := by
  obtain ⟨u, hbuild⟩ := exists_buildUnit_of_ofBuffer hreads
  refine ⟨u, yields_parse.2 ⟨rfl, hfails, ?_, hbuild⟩, hbuild⟩
  simp [ParseRequest.mainCode?, scanRequest]

/-! ## Scans -/

section Reading

variable {β : Type} {f : Cursor → β} {g : FunctionHead → β}

/-- The entities of a file that define functions are those of its defined functions, in order. What
is read off a cursor of a function is read off its head. -/
theorem definitions_of_declared {file : FilePath} {ds : List Declaration}
    {declared : List (Option Entity)}
    (hread : ∀ (h : FunctionHead) stop, f (h.cursor file true stop) = g h)
    (h : List.Forall₂ (fun d r => Declaration.entity? file d = .ok r) ds declared) :
    (((declared.filterMap id).map (·.top.cursor)).filter (Cursor.definesIn file)).map f =
      (ds.filterMap Declaration.defined?).map g := by
  induction h with
  | nil => rfl
  | @cons d r ds rs hr _ ih =>
    cases r with
    | none =>
      rw [List.filterMap_cons_none rfl,
        List.filterMap_cons_none (defined?_of_entity?_eq_none hr), ih]
    | some e =>
      have hfunction := function_of_entity? hr
      rw [List.filterMap_cons_some (f := id) rfl, List.map_cons]
      cases hd : d.defined? with
      | none =>
        rw [hd] at hfunction
        rw [List.filterMap_cons_none hd, List.filter_cons_of_neg, ih]
        intro hc
        simp only [Cursor.definesIn, Bool.and_eq_true, decide_eq_true_eq] at hc
        simpa using hfunction.1 hc.1
      | some head =>
        obtain ⟨block, inside, -, -, hsome⟩ := entity?_of_defined hd hr
        cases hsome
        rw [List.filterMap_cons_some hd, List.filter_cons_of_pos, List.map_cons, List.map_cons, ih]
        · exact congrArg (· :: _) (hread head _)
        · simp [Cursor.definesIn, FunctionHead.defined, FunctionHead.cursor, Token.location,
            Place.inFile]

/-- No macro is a function. -/
theorem definitions_of_macros {file : FilePath} (ds : List Directive) :
    ((ds.filterMap (Directive.macro? file)).map (·.top.cursor)).filter
      (Cursor.definesIn file) = [] := by
  rw [List.filter_eq_nil_iff]
  intro c hc
  obtain ⟨e, he, rfl⟩ := List.mem_map.1 hc
  obtain ⟨d, -, hd⟩ := List.mem_filterMap.1 he
  unfold Directive.macro? at hd
  split at hd
  · dsimp only at hd
    split at hd
    · cases hd
    · cases hd
      simp [Cursor.definesIn]
  · cases hd

/-- What is read off the functions that a unit of one text defines there is read off the heads that
the tokens define. -/
theorem map_definedIn {u : CompilationUnit} {path : FilePath} {code : String} {lx : Lexed}
    (hread : ∀ (h : FunctionHead) stop, f (h.cursor path true stop) = g h)
    (hbare : ∀ c, f (bare c) = f c) (hlex : lex code = .ok lx)
    (h : buildUnit path [⟨path, code⟩] = .ok u) :
    (u.definedIn path).map f = (definedHeads lx.tokens).map g := by
  obtain ⟨m, hm, hentities, -⟩ := exists_ofBuffer_of_buildUnit h
  obtain ⟨lx', declared, hlex', hdeclared, rfl⟩ := ofBuffer_eq_ok.1 hm
  rw [hlex] at hlex'
  cases hlex'
  -- neither the filter nor what is read looks at numbers
  have hnumber (cs : List Cursor) :
      (cs.filter (Cursor.definesIn path)).map f =
        ((cs.map bare).filter (Cursor.definesIn path)).map f := by
    rw [List.filter_map, List.map_map]
    exact List.map_congr_left fun c _ => (hbare c).symm
  have htop (es : List Entity) :
      es.map (fun e => bare e.top.cursor) = (es.map (·.top.cursor)).map bare := by
    rw [List.map_map]
    rfl
  unfold CompilationUnit.definedIn
  rw [hnumber, hentities.topLevel_bare, htop, ← hnumber, List.map_append, List.filter_append,
    definitions_of_macros, List.nil_append,
    definitions_of_declared hread (mapM_eq_ok_iff.1 hdeclared)]
  rfl

end Reading

/-- The functions that the tokens of a text define, by line. -/
def definedIn? (code : String) : Option (List Definition) :=
  (lex code).toOption.map fun lx =>
    sortBy (fun a b => compare a.line b.line) ((definedHeads lx.tokens).map (·.definition))

theorem definedIn?_eq {code : String} {lx : Lexed} (hlex : lex code = .ok lx) :
    definedIn? code = some (sortBy (fun a b => compare a.line b.line)
      ((definedHeads lx.tokens).map (·.definition))) := by
  unfold definedIn?
  rw [hlex]
  rfl

/-- What is found are the functions that the tokens define, in some order. -/
theorem exists_definedIn? {code : String} {lx : Lexed} (hlex : lex code = .ok lx) :
    ∃ ds, definedIn? code = some ds ∧
      ∀ d, d ∈ ds ↔ ∃ h ∈ definedHeads lx.tokens, h.definition = d :=
  ⟨_, definedIn?_eq hlex, fun _ => (sortBy_perm _ _).mem_iff.trans List.mem_map⟩

/-- What a unit of one text defines there are the functions that the tokens define. -/
theorem definitionsIn_eq {u : CompilationUnit} {path : FilePath} {code : String}
    (h : buildUnit path [⟨path, code⟩] = .ok u) :
    some (u.definitionsIn path) = definedIn? code := by
  obtain ⟨m, hm, -⟩ := exists_ofBuffer_of_buildUnit h
  obtain ⟨lx, -, hlex, -⟩ := ofBuffer_eq_ok.1 hm
  have hdefined : (u.definedIn path).map Definition.ofCursor =
      (definedHeads lx.tokens).map (·.definition) :=
    map_definedIn (fun _ _ => rfl) (fun _ => rfl) hlex h
  rw [definedIn?_eq hlex, ← hdefined]
  rfl

/-- A scan of the model engine finds the functions that the tokens define, or it fails. -/
theorem definitions?_eq {path : FilePath} {code : String} {args : List String}
    {found : Option (List Definition)}
    (h : Yields (definitions? modelEngine path code args) s found s') :
    found = none ∨ found = definedIn? code := by
  unfold definitions? at h
  rw [yields_bind] at h
  obtain ⟨answer, t, hparse, h⟩ := h
  cases answer with
  | error e =>
    obtain ⟨rfl, -⟩ := yields_pure.1 h
    exact .inl rfl
  | ok u =>
    obtain ⟨rfl, -⟩ := yields_pure.1 h
    exact .inr (definitionsIn_eq (yields_parse.1 hparse).2.2.2)

/-- A scan of a text that the engine can read finds the functions that the tokens define. -/
theorem yields_definitions? (path : FilePath) (code : String) (args : List String)
    (hreads : (FileModel.ofBuffer ⟨path, code⟩).isOk)
    (hfails : s.failsOn (scanRequest path code args) = false) :
    Yields (definitions? modelEngine path code args) s (definedIn? code)
      (s.afterParse (scanRequest path code args)) := by
  obtain ⟨m, hm⟩ := exists_of_isOk hreads
  obtain ⟨u, hparse, hbuild⟩ := yields_scan hm hfails
  rw [← definitionsIn_eq hbuild]
  unfold definitions?
  rw [yields_bind]
  exact ⟨.ok u, _, hparse, yields_pure.2 ⟨rfl, rfl⟩⟩

/-- The functions that tokens define are on the lines of the text. -/
theorem line_of_mem_definedIn? (code : String) :
    ∀ d ∈ (definedIn? code).getD [], 1 ≤ d.line ∧ d.line ≤ Text.lineCount code.toList := by
  intro d hd
  cases hlex : lex code with
  | error e => simp [definedIn?, hlex, Except.toOption] at hd
  | ok lx =>
    obtain ⟨ds, hds, hmem⟩ := exists_definedIn? hlex
    rw [hds, Option.getD_some] at hd
    obtain ⟨head, hhead, rfl⟩ := (hmem d).1 hd
    unfold Text.lineCount
    rw [Text.length_splitLines]
    exact line_of_mem_tokens hlex (name_mem_of_mem_definedHeads hhead)

end Model

end SketchSense
