import SketchSense.Proofs.Cache.Reparsing
import SketchSense.Proofs.Model.Relocation
import SketchSense.Proofs.Sketch.FailedScan
import SketchSense.Proofs.Sketch.Memory

/-!
# Handing over with the model engine

What a sketch is handed over as depends on what a scan finds in it and on what is remembered for its
layout and for its signature. With the model engine a scan of a text that can be read always ends, so
the sources are a function of these.

* `Model.CanRead`, that the engine can read a text, and `scanned`, what a scan finds in it;
* `Transformer.handOver`, the sources of a file and what is remembered then, with
  `Transformer.yields_handOver` and, for any run, `Transformer.exists_handOver_of_sources`;
* `Transformer.handOver_again`, that a file which is handed over again gets the same sources;
* `Transformer.Agree`, transformers that remember the same about a file, with
  `Transformer.agree_handOver`, that another file leaves them so.
-/

namespace SketchSense

open Model

/-! ## Scans -/

/-- The engine can read a text, whatever file it is in. -/
def Model.CanRead (code : String) : Prop := ∀ path, (FileModel.ofBuffer ⟨path, code⟩).isOk

/-- A text can be read in every file if it can be read in one. -/
theorem Model.canRead_of_ofBuffer {path : FilePath} {code : String} {m : FileModel}
    (h : FileModel.ofBuffer ⟨path, code⟩ = .ok m) : CanRead code := by
  obtain ⟨lx, -, hlex, -⟩ := ofBuffer_eq_ok.1 h
  intro other
  obtain ⟨m', hm', -⟩ := exists_ofBuffer_moveTo other hlex hlex rfl rfl h
  rw [hm']
  rfl

theorem Model.canRead_of_isOk {t : FileBuffer} (h : (FileModel.ofBuffer t).isOk) : CanRead t.code := by
  obtain ⟨m, hm⟩ := exists_of_isOk h
  exact canRead_of_ofBuffer hm

instance (code : String) : Decidable (CanRead code) :=
  decidable_of_iff ((FileModel.ofBuffer ⟨⟨""⟩, code⟩).isOk = true)
    ⟨fun h => canRead_of_isOk h, fun h => h _⟩

/-- Texts that can be read make a unit. -/
theorem Model.exists_buildUnit_of_canRead {unsaved : List FileBuffer}
    (h : ∀ t ∈ unsaved, CanRead t.code) (main : FilePath) : ∃ u, buildUnit main unsaved = .ok u := by
  have hall : ∀ t ∈ mainLast main unsaved, ∃ m, FileModel.ofBuffer t = .ok m :=
    fun t ht => exists_of_isOk (h t (mem_mainLast.1 ht) t.path)
  obtain ⟨files, hfiles⟩ := exists_mapM_eq_ok hall
  obtain ⟨u, hu, -⟩ := exists_buildUnit hfiles
  exact ⟨u, hu⟩

/-- The functions that a scan finds in a text that can be read, unless it was told to fail. -/
def scanned (s : ModelState) (path : FilePath) (code : String) (args : List String) :
    Option (List Definition) :=
  if s.failsOn (scanRequest path code args) then none else definedIn? code

variable {path : FilePath} {code : String} {args : List String} {s s' : ModelState}

theorem yields_scanned (hreads : CanRead code) (path : FilePath) (args : List String)
    (s : ModelState) :
    Yields (definitions? modelEngine path code args) s (scanned s path code args)
      (s.afterParse (scanRequest path code args)) := by
  unfold scanned
  split
  · next hfails => exact Transformer.yields_definitions?_of_failsOn path code args hfails
  · next hfails => exact yields_definitions? path code args (hreads path) (by simpa using hfails)

theorem Model.ModelState.SameScript.scanned_eq (h : s.SameScript s') (path : FilePath)
    (code : String) (args : List String) : scanned s' path code args = scanned s path code args := by
  unfold scanned
  rw [h.failsOn_eq]

/-! ## The sources of a file -/

namespace Transformer

variable {t u : Transformer} {found : Option (List Definition)} {made : Sources}

/-- The transformer once the header of a text is known. -/
def learn (t : Transformer) (path : FilePath) (code header : String) : Transformer :=
  match t.headers.get? (layoutOf path code) with
  | some _ => t
  | none => t.keepHeader (layoutOf path code) header

/-- The header under which a text is handed over. -/
def headerFor (t : Transformer) (path : FilePath) (code : String)
    (found : Option (List Definition)) : String :=
  (t.headers.get? (layoutOf path code)).getD (prototypeHeader path (found.getD []))

/-- The sources of a sketch with a known header, and what is remembered then. -/
def includeFor (t : Transformer) (path : FilePath) (code header : String) (ds : List Definition) :
    Sources × Transformer :=
  if header = "" then (.renamed path code, t)
  else match t.memo.replay (InsertionMemo.signatureOf path code) path code with
    | some r => (.injected path header r, t)
    | none =>
      let (r, memo) := t.memo.inject (InsertionMemo.signatureOf path code) path code ds
      (.injected path header r, { t with memo })

/-- The sources of a file in which a scan finds some functions, and what is remembered then. -/
def handOver (t : Transformer) (path : FilePath) (code : String)
    (found : Option (List Definition)) : Sources × Transformer :=
  if path.kind ≠ .sketchEntry then (.plain path code, t)
  else
    let header := t.headerFor path code found
    (t.learn path code header).includeFor path code header (found.getD [])

theorem handOver_of_kind (t : Transformer) (code : String) (found : Option (List Definition))
    (hkind : path.kind = .sketchEntry) :
    t.handOver path code found =
      (t.learn path code (t.headerFor path code found)).includeFor path code
        (t.headerFor path code found) (found.getD []) := by
  unfold handOver
  rw [if_neg (not_not_intro hkind)]

/-- Where the scan succeeds the sources of a sketch are made. -/
theorem exists_yields_includeFor (t : Transformer) (path : FilePath) (code header : String)
    {scan : EngineM ModelState (List Definition)} {ds : List Definition} {s₁ : ModelState}
    (hscan : Yields scan s ds s₁) :
    ∃ s', Yields (t.withHeader path code header scan) s (t.includeFor path code header ds) s' := by
  unfold includeFor
  by_cases hheader : header = ""
  · rw [if_pos hheader]
    exact ⟨s, yields_withHeader.2 (.inl ⟨hheader, rfl, rfl, rfl⟩)⟩
  · rw [if_neg hheader]
    cases hreplay : t.memo.replay (InsertionMemo.signatureOf path code) path code with
    | some r =>
      exact ⟨s, yields_withHeader.2 (.inr ⟨hheader, r, t.memo,
        InsertionMemo.yields_replayOrInject.2 (.inl ⟨hreplay, rfl, rfl⟩), rfl, rfl⟩)⟩
    | none =>
      exact ⟨s₁, yields_withHeader.2 (.inr ⟨hheader, _, _,
        InsertionMemo.yields_replayOrInject.2 (.inr ⟨hreplay, ds, hscan, Prod.eta _⟩), rfl, rfl⟩)⟩

/-- The sources of a text that can be read are made. -/
theorem yields_handOver (t : Transformer) (hreads : CanRead code) (path : FilePath)
    (args : List String) (s : ModelState) :
    ∃ s', Yields (t.sources modelEngine path code args) s
      (t.handOver path code (scanned s path code args)) s' := by
  have hscan := yields_scanned hreads path args s
  unfold handOver
  by_cases hkind : path.kind = .sketchEntry
  · rw [if_neg (not_not_intro hkind)]
    unfold headerFor learn
    cases hget : t.headers.get? (layoutOf path code) with
    | some header =>
      have hds : Yields (do return (← definitions? modelEngine path code args).getD []) s
          ((scanned s path code args).getD []) (s.afterParse (scanRequest path code args)) :=
        yields_bind.2 ⟨_, _, hscan, yields_pure.2 ⟨rfl, rfl⟩⟩
      obtain ⟨s', hmade⟩ := exists_yields_includeFor t path code header hds
      exact ⟨s', (yields_sources hkind).2 (.inl ⟨header, hget, hmade⟩)⟩
    | none =>
      have hds : Yields (pure ((scanned s path code args).getD []))
          (s.afterParse (scanRequest path code args)) ((scanned s path code args).getD [])
          (s.afterParse (scanRequest path code args)) :=
        yields_pure.2 ⟨rfl, rfl⟩
      obtain ⟨s', hmade⟩ := exists_yields_includeFor
        (t.keepHeader (layoutOf path code)
          (prototypeHeader path ((scanned s path code args).getD [])))
        path code (prototypeHeader path ((scanned s path code args).getD [])) hds
      refine ⟨s', (yields_sources hkind).2 (.inr ⟨hget, _, _, hscan, ?_⟩)⟩
      rw [getD_map_prototypeHeader]
      exact hmade
  · rw [if_pos hkind]
    exact ⟨s, (yields_sources_plain hkind).2 ⟨rfl, rfl⟩⟩

/-! ## Once more -/

theorem get?_learn_self (t : Transformer) (path : FilePath) (code header : String) :
    (t.learn path code header).headers.get? (layoutOf path code) =
      some ((t.headers.get? (layoutOf path code)).getD header) := by
  unfold learn
  cases hget : t.headers.get? (layoutOf path code) with
  | some known => rw [hget, Option.getD_some]
  | none => exact get?_keepHeader_self t _ header

theorem learn_eq_self {header known : String}
    (h : t.headers.get? (layoutOf path code) = some known) : t.learn path code header = t := by
  unfold learn
  rw [h]

theorem headers_includeFor (t : Transformer) (path : FilePath) (code header : String)
    (ds : List Definition) : (t.includeFor path code header ds).2.headers = t.headers := by
  unfold includeFor
  split
  · rfl
  · split
    · rfl
    · rfl

/-- The include goes to the same place again. -/
theorem includeFor_again (t : Transformer) (path : FilePath) (code header : String)
    (ds : List Definition) :
    (t.includeFor path code header ds).2.includeFor path code header ds =
      t.includeFor path code header ds := by
  by_cases hheader : header = ""
  · simp [includeFor, hheader]
  cases hreplay : t.memo.replay (InsertionMemo.signatureOf path code) path code with
  | some r => simp [includeFor, hheader, hreplay]
  | none =>
    rcases InsertionMemo.inject_cases t.memo (InsertionMemo.signatureOf path code) path code ds with
      ⟨place, old, -, hold, hblank, hmade⟩ | ⟨-, r, hmade, -⟩
    · -- the place is remembered, and it is still blank
      have hagain : InsertionMemo.replay
          ⟨t.memo.points.insert (InsertionMemo.signatureOf path code) place⟩
          (InsertionMemo.signatureOf path code) path code =
          some (InsertionMemo.atLine path (Text.splitLines code.toList) place) := by
        unfold InsertionMemo.replay
        simp [hold, hblank]
      simp [includeFor, hheader, hreplay, hmade, hagain]
    · simp [includeFor, hheader, hreplay, hmade]

/-- A file that is handed over again gets the same sources, and nothing else is remembered. -/
theorem handOver_again (t : Transformer) (path : FilePath) (code : String)
    (found : Option (List Definition)) :
    (t.handOver path code found).2.handOver path code found = t.handOver path code found := by
  by_cases hkind : path.kind = .sketchEntry
  · have hget : (t.handOver path code found).2.headers.get? (layoutOf path code) =
        some (t.headerFor path code found) := by
      rw [handOver_of_kind t code found hkind, headers_includeFor, get?_learn_self]
      unfold headerFor
      cases t.headers.get? (layoutOf path code) <;> rfl
    have hheader : (t.handOver path code found).2.headerFor path code found =
        t.headerFor path code found := by
      unfold headerFor at hget ⊢
      rw [hget, Option.getD_some]
    rw [handOver_of_kind (t.handOver path code found).2 code found hkind, hheader,
      learn_eq_self hget, handOver_of_kind t code found hkind, includeFor_again]
  · simp [handOver, hkind]

/-! ## What is looked at -/

/-- The transformers remember the same about a file. -/
structure Agree (path : FilePath) (code : String) (t u : Transformer) : Prop where
  header : u.headers.get? (layoutOf path code) = t.headers.get? (layoutOf path code)
  point : u.memo.points.get? (InsertionMemo.signatureOf path code) =
    t.memo.points.get? (InsertionMemo.signatureOf path code)

theorem Agree.refl (path : FilePath) (code : String) (t : Transformer) : Agree path code t t :=
  ⟨rfl, rfl⟩

theorem Agree.symm (h : Agree path code t u) : Agree path code u t := ⟨h.header.symm, h.point.symm⟩

theorem Agree.trans {v : Transformer} (h : Agree path code t u) (h' : Agree path code u v) :
    Agree path code t v :=
  ⟨h'.header.trans h.header, h'.point.trans h.point⟩

section Apart

variable {path' : FilePath} {code' : String} (t)

theorem agree_learn (hlayout : layoutOf path code ≠ layoutOf path' code') (header : String) :
    Agree path' code' t (t.learn path code header) := by
  unfold learn
  split
  · exact .refl _ _ t
  · exact ⟨get?_keepHeader_of_ne t header hlayout.symm, rfl⟩

theorem agree_includeFor
    (hsignature : InsertionMemo.signatureOf path code ≠ InsertionMemo.signatureOf path' code')
    (header : String) (ds : List Definition) :
    Agree path' code' t (t.includeFor path code header ds).2 := by
  refine ⟨by rw [headers_includeFor], ?_⟩
  unfold includeFor
  split
  · rfl
  · split
    · rfl
    · rcases InsertionMemo.inject_cases t.memo (InsertionMemo.signatureOf path code) path code ds with
        ⟨place, _, -, -, -, hmade⟩ | ⟨-, r, hmade, -⟩
      · rw [hmade]
        exact Table.get?_insert_of_ne _ (beq_eq_false_iff_ne.2 hsignature) _
      · rw [hmade]

/-- What is remembered about a file is left as it is by one with another layout and signature. -/
theorem agree_handOver (hlayout : layoutOf path code ≠ layoutOf path' code')
    (hsignature : InsertionMemo.signatureOf path code ≠ InsertionMemo.signatureOf path' code')
    (found : Option (List Definition)) : Agree path' code' t (t.handOver path code found).2 := by
  unfold handOver
  split
  · exact .refl _ _ t
  · exact (agree_learn t hlayout _).trans (agree_includeFor _ hsignature _ _)

end Apart

/-! ## Runs -/

/-- Every run with a known header puts the include above what some scan finds; `ds` will do where no
scan is made. -/
theorem exists_includeFor_of_withHeader {σ : Type} {t t' : Transformer} {made : Sources} {s s' : σ}
    {scan : EngineM σ (List Definition)} {header : String} (ds : List Definition)
    (h : Yields (t.withHeader path code header scan) s (made, t') s') :
    ∃ found, (found = ds ∨ ∃ s', Yields scan s found s') ∧
      (made, t') = t.includeFor path code header found := by
  unfold includeFor
  rcases yields_withHeader.1 h with ⟨hempty, rfl, rfl, -⟩ | ⟨hheader, placed, memo, hplaced, rfl, rfl⟩
  · exact ⟨ds, .inl rfl, by rw [if_pos hempty]⟩
  · simp only [if_neg hheader]
    rcases InsertionMemo.yields_replayOrInject.1 hplaced with
      ⟨hreplay, rfl, -⟩ | ⟨hreplay, found, hfound, hinject⟩
    · have hreplay : t.memo.replay (InsertionMemo.signatureOf path code) path code = some placed :=
        hreplay
      exact ⟨ds, .inl rfl, by rw [hreplay]⟩
    · have hreplay : t.memo.replay (InsertionMemo.signatureOf path code) path code = none := hreplay
      have hinject : (placed, memo) =
          t.memo.inject (InsertionMemo.signatureOf path code) path code found := hinject
      exact ⟨found, .inr ⟨_, hfound⟩, by rw [hreplay, ← hinject]⟩

/-- Every run hands a sketch over as what some scan finds. -/
theorem exists_handOver_of_sources {σ : Type} {e : Engine σ} {t t' : Transformer} {made : Sources}
    {s s' : σ} (hkind : path.kind = .sketchEntry)
    (h : Yields (t.sources e path code args) s (made, t') s') :
    ∃ found, (made, t') = t.handOver path code found := by
  rcases (yields_sources hkind).1 h with ⟨header, hget, hwith⟩ | ⟨hnone, found, s₁, -, hwith⟩
  · obtain ⟨ds, -, hmade⟩ := exists_includeFor_of_withHeader [] hwith
    have hget : t.headers.get? (layoutOf path code) = some header := hget
    refine ⟨some ds, ?_⟩
    rw [handOver_of_kind t code _ hkind, learn_eq_self hget]
    unfold headerFor
    rw [hget]
    exact hmade
  · obtain ⟨ds, hds, hmade⟩ := exists_includeFor_of_withHeader (found.getD []) hwith
    obtain rfl : ds = found.getD [] := by
      rcases hds with rfl | ⟨_, hpure⟩
      · rfl
      · exact (yields_pure.1 hpure).1
    have hnone : t.headers.get? (layoutOf path code) = none := hnone
    refine ⟨found, ?_⟩
    rw [handOver_of_kind t code _ hkind]
    unfold learn headerFor
    rw [hnone]
    rw [getD_map_prototypeHeader] at hmade
    exact hmade

end Transformer

end SketchSense
