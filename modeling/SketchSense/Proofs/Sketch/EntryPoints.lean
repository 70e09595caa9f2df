import SketchSense.Proofs.Engine.Trace
import SketchSense.Proofs.Sketch.Handover

/-!
# Two ways to a sketch with its header

A sketch gets its include alone, or with its header from a transformer. The first leaves out the
include where no function is defined, the second where the text of the header is empty. With the model
engine these are the same: a function that it finds has a name and a result type, and so a prototype.

* `AsksAtMost`, that a computation makes one parse up to a number of times and asks for nothing else,
  with one rule for each way of combining computations;
* `prototypeHeader_eq_empty_iff`, when there is nothing to declare, with
  `prototypeHeader_definedIn?_iff` for what the model engine finds;
* `includedAfresh`, a sketch with its include when nothing is remembered, and
  `Transformer.handOver_fresh`, its sources then;
* `entryPoints_agree`, that both ways lead to the same text and the same header.
-/

namespace SketchSense

/-! ## Parses of one request -/

section Asking

variable {σ α β : Type} {r : ParseRequest} {m n : Nat}

/-- Whether it ends or not, `x` makes the parse `r` at most `n` times and asks for nothing else. -/
def AsksAtMost (r : ParseRequest) (n : Nat) (x : EngineM (σ × List EngineCall) α) : Prop :=
  ∀ s, ∃ k ≤ n, (EngineM.runFrom x s).2.2 = s.2 ++ List.replicate k (.parse r)

theorem asksAtMost_pure (r : ParseRequest) (a : α) :
    AsksAtMost r 0 (pure a : EngineM (σ × List EngineCall) α) :=
  fun s => ⟨0, Nat.le_refl 0, (List.append_nil s.2).symm⟩

theorem asksAtMost_parse (e : Engine σ) (r : ParseRequest) : AsksAtMost r 1 (e.traced.parse r) :=
  fun _ => ⟨1, Nat.le_refl 1, rfl⟩

theorem AsksAtMost.mono {x : EngineM (σ × List EngineCall) α} (h : AsksAtMost r m x) (hle : m ≤ n) :
    AsksAtMost r n x := by
  intro s
  obtain ⟨k, hk, hcalls⟩ := h s
  exact ⟨k, Nat.le_trans hk hle, hcalls⟩

/-- A fault of the first computation ends both, so that nothing more is asked. -/
theorem asksAtMost_bind {x : EngineM (σ × List EngineCall) α}
    {f : α → EngineM (σ × List EngineCall) β} (hx : AsksAtMost r m x)
    (hf : ∀ a, AsksAtMost r n (f a)) : AsksAtMost r (m + n) (x >>= f) := by
  intro s
  obtain ⟨k, hk, hcalls⟩ := hx s
  rw [runFrom_bind]
  rcases hrun : EngineM.runFrom x s with ⟨outcome, s₁⟩
  rw [hrun] at hcalls
  cases outcome with
  | error e => exact ⟨k, Nat.le_add_right_of_le hk, hcalls⟩
  | ok a =>
    obtain ⟨l, hl, hmore⟩ := hf a s₁
    refine ⟨k + l, Nat.add_le_add hk hl, ?_⟩
    rw [hmore, hcalls, List.append_assoc, ← List.replicate_add]

variable (e : Engine σ) (t : Transformer) (path : FilePath) (code : String) (args : List String)

theorem asksAtMost_definitions? :
    AsksAtMost (scanRequest path code args) 1 (definitions? e.traced path code args) := by
  unfold definitions?
  refine asksAtMost_bind (n := 0) (asksAtMost_parse e _) fun answer => ?_
  cases answer with
  | ok u => exact asksAtMost_pure _ _
  | error failure => exact asksAtMost_pure _ _

variable {path code args}

/-- With a known header nothing is asked but for the scan. -/
theorem asksAtMost_withHeader {scan : EngineM (σ × List EngineCall) (List Definition)}
    (header : String) (hscan : AsksAtMost r n scan) :
    AsksAtMost r n (t.withHeader path code header scan) := by
  unfold Transformer.withHeader
  split
  · exact (asksAtMost_pure r _).mono (Nat.zero_le n)
  · refine asksAtMost_bind (n := 0) ?_ fun placed => asksAtMost_pure r _
    unfold InsertionMemo.replayOrInject
    split
    · exact (asksAtMost_pure r _).mono (Nat.zero_le n)
    · exact asksAtMost_bind (n := 0) hscan fun ds => asksAtMost_pure r _

variable (path code args)

/-- The scan for the header and the one for the include are the same, and only one is made. -/
theorem asksAtMost_sources :
    AsksAtMost (scanRequest path code args) 1 (t.sources e.traced path code args) := by
  have hscan := asksAtMost_definitions? e path code args
  unfold Transformer.sources
  split
  · exact (asksAtMost_pure _ _).mono (Nat.zero_le 1)
  · dsimp only
    split
    · exact asksAtMost_withHeader t _ (asksAtMost_bind (n := 0) hscan fun _ => asksAtMost_pure _ _)
    · exact asksAtMost_bind (n := 0) hscan fun _ =>
        asksAtMost_withHeader _ _ (asksAtMost_pure _ _)

end Asking

/-! ## Empty headers -/

theorem declaredOnce_eq_nil_iff {ds : List Definition} :
    declaredOnce ds = [] ↔ ∀ d ∈ ds, d.prototype = "" := by
  have hnil : declaredOnce ds = [] ↔ ds.filter (·.prototype ≠ "") = [] := by
    unfold declaredOnce
    cases ds.filter (·.prototype ≠ "") with
    | nil => simp [keepFirst, keepFirstAfter]
    | cons d ds => simp [keepFirst, keepFirstAfter]
  rw [hnil, List.filter_eq_nil_iff]
  simp

/-- A header is empty if there is no prototype to declare. -/
theorem prototypeHeader_eq_empty_iff {path : FilePath} {ds : List Definition} :
    prototypeHeader path ds = "" ↔ ∀ d ∈ ds, d.prototype = "" := by
  rw [← declaredOnce_eq_nil_iff]
  unfold prototypeHeader
  cases declaredOnce ds with
  | nil => simp
  | cons d ds =>
    simp only [reduceCtorEq, iff_false]
    intro h
    have hlist := congrArg String.toList h
    rw [String.toList_append] at hlist
    cases hlist

namespace Model

/-- A token is written with at least one character. -/
theorem text_ne_empty_of_isRead {t : Token} (h : t.lexeme.IsRead) : t.text ≠ "" := by
  unfold Token.text
  cases hlexeme : t.lexeme with
  | word s =>
    rw [hlexeme] at h
    obtain ⟨c, cs, rfl, -⟩ := h
    simp
  | mark c => simp
  | ellipsis => decide
  | literal => decide

theorem typeText_ne_empty {ts : List Token} (hne : ts ≠ []) (h : ∀ t ∈ ts, t.lexeme.IsRead) :
    typeText ts ≠ "" := by
  obtain ⟨t, rest, rfl⟩ := List.exists_cons_of_ne_nil hne
  have htext := text_ne_empty_of_isRead (h t List.mem_cons_self)
  intro hempty
  have hlist := congrArg String.toList hempty
  cases rest with
  | nil =>
    rw [typeText_singleton] at hempty
    exact htext hempty
  | cons u us =>
    unfold typeText at hlist
    rw [List.map_cons, List.map_cons, String.intercalate_cons_cons] at hlist
    simp [htext] at hlist

/-- A function whose tokens come from a text has a prototype. -/
theorem prototype_ne_empty_of_read? {ts : List Token} {h : FunctionHead}
    (hread : FunctionHead.read? ts = some h) (hts : ∀ t ∈ ts, t.lexeme.IsRead) :
    h.definition.prototype ≠ "" := by
  obtain ⟨types, name, paren, rest, hhead, rfl, rfl⟩ := FunctionHead.read?_eq_some_iff.1 hread
  have hname : name.text ≠ "" := text_ne_empty_of_isRead (hts name (by simp))
  have htype : typeText (types.filter (!·.isStorage)) ≠ "" := typeText_ne_empty hhead.typed fun t ht =>
    hts t (List.mem_append_left _ (List.mem_filter.1 ht).1)
  intro hempty
  have hlist := toList_prototype (h := .ofParts types name paren rest) hname htype
  rw [hempty] at hlist
  simp at hlist

/-- Every function that a text defines has a prototype. -/
theorem prototype_ne_empty_of_mem_definedIn? {code : String} {ds : List Definition}
    (hfound : definedIn? code = some ds) : ∀ d ∈ ds, d.prototype ≠ "" := by
  obtain ⟨lx, hlex, -⟩ := Option.map_eq_some_iff.1 hfound
  have hlex : lex code = .ok lx := by
    cases hresult : lex code with
    | error e =>
      rw [hresult] at hlex
      cases hlex
    | ok lx' =>
      rw [hresult] at hlex
      exact congrArg Except.ok (Option.some.inj hlex)
  obtain ⟨ds', hds', hmem⟩ := exists_definedIn? hlex
  obtain rfl : ds = ds' := Option.some.inj (hfound.symm.trans hds')
  intro d hd
  obtain ⟨head, hhead, rfl⟩ := (hmem d).1 hd
  obtain ⟨declaration, hdeclaration, hdefined⟩ := List.mem_filterMap.1 hhead
  obtain ⟨-, -, hread⟩ := Option.bind_eq_some_iff.1 hdefined
  refine prototype_ne_empty_of_read? hread fun t ht => ?_
  exact (isRead_of_mem_tokens hlex (mem_of_mem_tokens hdeclaration ht)).1

/-- So the header of a text is empty exactly if the text defines no function. -/
theorem prototypeHeader_definedIn?_iff (path : FilePath) {code : String} {ds : List Definition}
    (hfound : definedIn? code = some ds) : prototypeHeader path ds = "" ↔ ds = [] := by
  have hproto := prototype_ne_empty_of_mem_definedIn? hfound
  rw [prototypeHeader_eq_empty_iff]
  constructor
  · intro h
    rw [List.eq_nil_iff_forall_not_mem]
    exact fun d hd => hproto d hd (h d hd)
  · rintro rfl
    simp

end Model

/-! ## Without memory -/

/-- A sketch with its include above some definitions, when nothing is remembered. -/
def includedAfresh (path : FilePath) (code : String) (ds : List Definition) : InjectedText :=
  (({} : InsertionMemo).inject (InsertionMemo.signatureOf path code) path code ds).1

variable {path : FilePath} {code : String} {args : List String} {ds : List Definition}

/-- The include is put in exactly if there is a definition below it. -/
theorem injected_includedAfresh_eq_false_iff (path : FilePath) (code : String) (ds : List Definition) :
    (includedAfresh path code ds).injected = false ↔ ds = [] := by
  unfold includedAfresh
  rw [InsertionMemo.inject_eq]
  cases hsite : includeSite? path (Text.splitLines code.toList) ds with
  | none => simp [InjectedText.unchanged, includeSite?_eq_none.1 hsite]
  | some i =>
    have hne : ds ≠ [] := by
      intro hnil
      rw [includeSite?_eq_none.2 hnil] at hsite
      cases hsite
    simp [hne]

theorem includedAfresh_nil (path : FilePath) (code : String) :
    includedAfresh path code [] = .unchanged code := rfl

/-- The sources of a sketch when nothing is remembered. -/
theorem Transformer.handOver_fresh (hkind : path.kind = .sketchEntry) (code : String)
    (ds : List Definition) :
    (({} : Transformer).handOver path code (some ds)).1 =
      if prototypeHeader path ds = "" then .renamed path code
      else .injected path (prototypeHeader path ds) (includedAfresh path code ds) := by
  have hheader : ({} : Transformer).headerFor path code (some ds) = prototypeHeader path ds := rfl
  rw [handOver_of_kind _ code _ hkind, hheader, Option.getD_some]
  unfold includeFor
  split
  · rfl
  · rfl

/-- Where every definition leads to a header, the sources have the text with the include and, if it
is included, the header. -/
theorem Transformer.handOver_fresh_agrees (hkind : path.kind = .sketchEntry) (code : String)
    (hempty : prototypeHeader path ds = "" ↔ ds = []) :
    (({} : Transformer).handOver path code (some ds)).1.injectedText = includedAfresh path code ds ∧
      (({} : Transformer).handOver path code (some ds)).1.header =
        if prototypeHeader path ds = "" then none
        else some ⟨path.prototypeHeader, prototypeHeader path ds⟩ := by
  rw [handOver_fresh hkind code ds]
  by_cases hnil : ds = []
  · subst hnil
    exact ⟨(includedAfresh_nil path code).symm, rfl⟩
  · have hheader : prototypeHeader path ds ≠ "" := fun h => hnil (hempty.1 h)
    have hinjected : (includedAfresh path code ds).injected = true := by
      rw [← Bool.not_eq_false, injected_includedAfresh_eq_false_iff]
      exact hnil
    rw [if_neg hheader, if_neg hheader]
    refine ⟨Sources.injectedText_injected _ _ _, ?_⟩
    exact if_pos hinjected

/-! ## With the model engine -/

open Model

/-- The engine can read the text and is not told to fail on its scan. -/
def Model.ModelState.ScanSucceeds (s : ModelState) (path : FilePath) (code : String)
    (args : List String) : Prop :=
  ∃ u s', Yields (modelEngine.parse (scanRequest path code args)) s (.ok u) s'

variable {s s' : ModelState}

theorem Model.ModelState.scanSucceeds_iff :
    s.ScanSucceeds path code args ↔
      CanRead code ∧ s.failsOn (scanRequest path code args) = false := by
  constructor
  · rintro ⟨u, s', hparse⟩
    obtain ⟨-, hfails, -, hbuild⟩ := yields_parse.1 hparse
    obtain ⟨m, hm, -⟩ := exists_ofBuffer_of_buildUnit hbuild
    exact ⟨canRead_of_ofBuffer hm, hfails⟩
  · rintro ⟨hreads, hfails⟩
    obtain ⟨m, hm⟩ := exists_of_isOk (hreads path)
    obtain ⟨u, hparse, -⟩ := yields_scan hm hfails
    exact ⟨u, _, hparse⟩

/-- A scan that succeeds finds the functions that the text defines. -/
theorem Model.ModelState.ScanSucceeds.yields_definitions?
    (h : s.ScanSucceeds path code args) (hds : definedIn? code = some ds) :
    Yields (definitions? modelEngine path code args) s (some ds)
      (s.afterParse (scanRequest path code args)) := by
  obtain ⟨hreads, hfails⟩ := ModelState.scanSucceeds_iff.1 h
  rw [← hds]
  exact Model.yields_definitions? path code args (hreads path) hfails

theorem Model.ModelState.ScanSucceeds.exists_definedIn? (h : s.ScanSucceeds path code args) :
    ∃ ds, definedIn? code = some ds := by
  obtain ⟨m, hm⟩ := exists_of_isOk ((ModelState.scanSucceeds_iff.1 h).1 path)
  obtain ⟨lx, -, hlex, -⟩ := ofBuffer_eq_ok.1 hm
  exact ⟨_, definedIn?_eq hlex⟩

/-- A fresh transformer hands a sketch over with what its scan finds, and again right afterwards. -/
theorem Transformer.yields_sources_twice (h : s.ScanSucceeds path code args)
    (hds : definedIn? code = some ds) (t : Transformer) :
    ∃ s₁ s₂, Yields (t.sources modelEngine path code args) s (t.handOver path code (some ds)) s₁ ∧
      Yields ((t.handOver path code (some ds)).2.sources modelEngine path code args) s₁
        (t.handOver path code (some ds)) s₂ := by
  obtain ⟨hreads, hfails⟩ := ModelState.scanSucceeds_iff.1 h
  have hscanned : scanned s path code args = some ds := by
    unfold scanned
    rw [hfails, hds]
    rfl
  obtain ⟨s₁, hfirst⟩ := yields_handOver t hreads path args s
  have hscript := sameScript_of_sources hfirst
  obtain ⟨s₂, hsecond⟩ := yields_handOver
    (t.handOver path code (scanned s path code args)).2 hreads path args s₁
  rw [hscript.scanned_eq, handOver_again, hscanned] at hsecond
  rw [hscanned] at hfirst
  exact ⟨s₁, s₂, hfirst, hsecond⟩

/-- Both ways to a sketch with its header agree when nothing is remembered and the scans succeed, the
sources are the same once more, and they are made with at most one parse. -/
theorem entryPoints_agree (hkind : path.kind = .sketchEntry)
    (hscan : s.ScanSucceeds path code args) :
    ∃ made t r memo header,
      (∃ s₁ s₂, Yields (({} : Transformer).sources modelEngine path code args) s (made, t) s₁ ∧
        Yields (t.sources modelEngine path code args) s₁ (made, t) s₂) ∧
      (∀ s' : ModelState, s'.ScanSucceeds path code args →
        (∃ s₁, Yields (transformedSource modelEngine path code args {}) s' (r, memo) s₁) ∧
          ∃ s₁, Yields (generatedHeader modelEngine path code args) s' header s₁) ∧
      made.main.code = r.text ∧ made.map.lineShift = r.lineShift ∧
      made.header.isSome = r.injected ∧
      (made.header.map (·.code)).getD "" = header ∧ (header = "" ↔ made.header = none) ∧
      ∀ (σ : Type) (e : Engine σ) (u : Transformer),
        AsksAtMost (scanRequest path code args) 1 (u.sources e.traced path code args) := by
  obtain ⟨ds, hds⟩ := hscan.exists_definedIn?
  have hempty := prototypeHeader_definedIn?_iff path hds
  obtain ⟨htext, hheader⟩ := Transformer.handOver_fresh_agrees hkind code hempty
  refine ⟨(({} : Transformer).handOver path code (some ds)).1,
    (({} : Transformer).handOver path code (some ds)).2, includedAfresh path code ds,
    (({} : InsertionMemo).inject (InsertionMemo.signatureOf path code) path code ds).2,
    prototypeHeader path ds, Transformer.yields_sources_twice hscan hds {}, ?_,
    congrArg InjectedText.text htext, congrArg InjectedText.lineShift htext,
    congrArg InjectedText.injected htext, ?_, ?_,
    fun σ e u => asksAtMost_sources e u path code args⟩
  · intro s' hscan'
    have hfound := hscan'.yields_definitions? hds
    exact ⟨⟨_, InsertionMemo.yields_transformedSource_of_scan hkind hfound rfl⟩, _,
      yields_bind.2 ⟨_, _, hfound, yields_pure.2 ⟨rfl, rfl⟩⟩⟩
  · rw [hheader]
    split
    · next hnone => exact hnone.symm
    · rfl
  · rw [hheader]
    split
    · next hnone => simp [hnone]
    · next hsome => simp [hsome]

/-- The blank line above the first function is taken, and both functions are declared. -/
theorem entryPoints_agree_over_blank_line :
    ∃ made t s₁, Yields (({} : Transformer).sources modelEngine ⟨"/s/Blink.ino"⟩
        "int a;\n\nvoid setup() \x7b \x7d\nstatic int f(int n) \x7b \x7d\n" ["-DX"]) {} (made, t) s₁ ∧
      made.main.code = "int a;\n#include \"Blink.ino.hpp\"\nvoid setup() \x7b \x7d\n" ++
        "static int f(int n) \x7b \x7d\n" ∧
      made.header.map (·.code) = some ("#pragma once\n#line 3 \"/s/Blink.ino\"\nvoid setup();\n" ++
        "#line 4 \"/s/Blink.ino\"\nstatic int f(int n);\n") := by
  have hscan : ModelState.ScanSucceeds {} ⟨"/s/Blink.ino"⟩
      "int a;\n\nvoid setup() \x7b \x7d\nstatic int f(int n) \x7b \x7d\n" ["-DX"] :=
    ModelState.scanSucceeds_iff.2 ⟨canRead_of_isOk (t := ⟨⟨"/s/Blink.ino"⟩, _⟩) (by cbv), rfl⟩
  have hfound : definedIn? "int a;\n\nvoid setup() \x7b \x7d\nstatic int f(int n) \x7b \x7d\n" =
      some [⟨"setup", 3, "void setup()"⟩, ⟨"f", 4, "static int f(int n)"⟩] := by cbv
  obtain ⟨made, t, r, memo, header, ⟨s₁, -, hmade, -⟩, hruns, htext, -, -, hheader, hempty, -⟩ :=
    entryPoints_agree (by decide) hscan
  obtain ⟨⟨_, htransformed⟩, _, hgenerated⟩ := hruns {} hscan
  have hdefinitions := hscan.yields_definitions? hfound
  obtain ⟨hr, -⟩ := htransformed.unique
    (InsertionMemo.yields_transformedSource_of_scan (by decide) hdefinitions rfl)
  obtain ⟨rfl, -⟩ := hgenerated.unique
    (yields_bind.2 ⟨_, _, hdefinitions, yields_pure.2 ⟨rfl, rfl⟩⟩)
  refine ⟨made, t, s₁, hmade, ?_, ?_⟩
  · rw [htext]
    refine (congrArg (fun made => made.1.text) hr).trans ?_
    -- the text does not depend on the signature that is remembered with it
    generalize InsertionMemo.signatureOf _ _ = signature
    cbv
  · cases hsome : made.header with
    | none => exact absurd (hempty.2 hsome) (by decide)
    | some h =>
      rw [hsome] at hheader
      rw [Option.map_some]
      exact congrArg some (hheader.trans (by decide))

end SketchSense
