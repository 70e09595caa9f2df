import SketchSense.Proofs.Analysis.Questions
import SketchSense.Proofs.Analysis.Session

/-!
# How old a list of symbols may be

A list of symbols is made for one text of a file, and is used for other texts of the file while it is
younger than the grace period. Its age is counted from the call that made it, however often it was
used since then, and nothing survives that everything is forgotten.

* `SymbolsCall` and `SymbolsCall.Makes`, a call that made a list;
* `AnalysisCore.Used`, an analysis in use with the calls since everything was last forgotten;
* `AnalysisCore.KeptBy`, that every kept list was made by one of these calls, which every step keeps;
* `CoreM.symbols_of_used`, where a list of symbols comes from.
-/

namespace SketchSense

variable {σ : Type} {settings : Settings}

/-! ## Calls -/

/-- A call for the symbols of a file at a time, with the analysis and the state of the engine that it
started from. -/
structure SymbolsCall (σ : Type) where
  core : AnalysisCore σ
  engine : σ
  file : FileBuffer
  time : Nat

/-- The call made the list: it could use none that was kept, and the list is that of the unit for its
text. -/
def SymbolsCall.Makes (x : SymbolsCall σ) (list : List Symbol) : Prop :=
  x.core.symbols.lookup? (x.core.builder.key x.file.path) (.ofText x.file.code) x.time = none ∧
    ∃ u c s, YieldsWith (CoreM.unit? x.file) x.core x.engine (some u) c s ∧
      u.contentHash = .ofText x.file.code ∧ list = u.symbols

/-- The calls for symbols in a request. -/
def Request.symbolsCalls (c : AnalysisCore σ) (s : σ) : Request → List (SymbolsCall σ)
  | .symbols file now => [⟨c, s, file, now⟩]
  | _ => []

/-- An analysis in use, with the calls for symbols that it answered since everything was last
forgotten. Between requests the engine's state may change in any way. -/
inductive AnalysisCore.Used (settings : Settings) : List (SymbolsCall σ) → AnalysisCore σ → Prop
  | start (engine : Engine σ) (provided : FilePath → List String)
      (disk : FilePath → Option String) : Used settings [] (.ofSettings engine provided disk settings)
  | answer {calls : List (SymbolsCall σ)} {c c' : AnalysisCore σ} {live : Bool} {r : Request}
      {e : Enumeration ProjectUnit} {s s' : σ} {a : Answer} (h : Used settings calls c)
      (hrun : YieldsWith (CoreM.answer live r e) c s a c' s') :
      Used settings (calls ++ r.symbolsCalls c s) c'
  | invalidateAll {calls : List (SymbolsCall σ)} {c : AnalysisCore σ} (h : Used settings calls c) :
      Used settings [] c.invalidateAll
  /-- Other arguments are provided from now on. -/
  | provide {calls : List (SymbolsCall σ)} {c : AnalysisCore σ} (h : Used settings calls c)
      (provider : FilePath → List String) :
      Used settings calls { c with builder := { c.builder with provider } }
  /-- The files on disk are others from now on. -/
  | rewrite {calls : List (SymbolsCall σ)} {c : AnalysisCore σ} (h : Used settings calls c)
      (disk : FilePath → Option String) : Used settings calls { c with disk }

/-! ## What is kept -/

namespace CoreM

variable {c c' : AnalysisCore σ} {s s' : σ}

/-- The unit of a file for its text is one for that text. -/
theorem contentHash_of_unit? {file : FileBuffer} {u : CachedUnit}
    (h : YieldsWith (unit? file) c s (some u) c' s') : u.contentHash = .ofText file.code := by
  obtain ⟨b, answer, units, hresolve, hanswer, -⟩ := yieldsWith_unit?_iff.1 h
  obtain ⟨⟨v, action⟩, rfl, rfl⟩ := exists_ok_of_toOption hanswer.symm
  exact UnitCache.contentHash_of_resolveWith hresolve

/-- The kept lists are changed by requests for symbols only. -/
theorem symbols_of_answer {live : Bool} {r : Request} {e : Enumeration ProjectUnit} {a : Answer}
    (hr : r.kind ≠ .symbols) (h : YieldsWith (answer live r e) c s a c' s') :
    c'.symbols = c.symbols := by
  have hquestion {β : Type} {x : CoreM σ β} {f : β → Answer} (hx : KeepsRest c x)
      (h : YieldsWith (x >>= fun b => pure (f b)) c s a c' s') : c'.symbols = c.symbols := by
    obtain ⟨b, c₁, s₁, hrun, hpure⟩ := yieldsWith_bind.1 h
    obtain ⟨-, rfl, -⟩ := yieldsWith_pure.1 hpure
    exact (hx hrun (.refl c)).1.symbols_eq
  cases r with
  | diagnostics file =>
    obtain ⟨p, c₁, s₁, hrun, hpure⟩ := yieldsWith_bind.1 h
    obtain ⟨-, rfl, -⟩ := yieldsWith_pure.1 hpure
    obtain ⟨ds, c₂, s₂, hsame, hannounce⟩ := exists_announce_of_diagnostics hrun
    obtain ⟨-, rfl, -⟩ := yieldsWith_announce_iff.1 hannounce
    exact hsame.symbols_eq
  | project files =>
    obtain ⟨p, c₁, s₁, hrun, hpure⟩ := yieldsWith_bind.1 h
    obtain ⟨-, rfl, -⟩ := yieldsWith_pure.1 hpure
    obtain ⟨ds, c₂, s₂, hsame, hannounce⟩ := exists_announce_of_projectDiagnostics hrun
    obtain ⟨-, rfl, -⟩ := yieldsWith_announce_iff.1 hannounce
    rw [hsame]
  | completions p => exact hquestion (keepsRest_completions p) h
  | hover p files => exact hquestion (keepsRest_hover p files) h
  | definition p files => exact hquestion (keepsRest_definition p files) h
  | occurrences p scope files => exact hquestion (keepsRest_occurrences p scope files live) h
  | symbols file now => exact absurd rfl hr
  | container p => exact hquestion (keepsRest_container p) h

end CoreM

namespace AnalysisCore

variable {c c' : AnalysisCore σ} {calls : List (SymbolsCall σ)} {s s' : σ}

/-- The call made the kept list `l`, for the file of `path`. -/
structure Kept (settings : Settings) (path : FilePath) (l : SymbolList) (x : SymbolsCall σ) : Prop
    where
  makes : x.Makes l.symbols
  key : x.file.path.normalize settings.root = path.normalize settings.root
  hash : l.contentHash = .ofText x.file.code
  time : l.builtAt = x.time

/-- Every kept list was made by one of the calls. -/
structure KeptBy (settings : Settings) (calls : List (SymbolsCall σ)) (c : AnalysisCore σ) : Prop
    where
  root : c.root = settings.root
  grace : c.symbols.grace = settings.symbolGrace
  made : ∀ (path : FilePath) l,
    c.symbols.lists.get? (path.normalize settings.root) = some l → ∃ x ∈ calls, Kept settings path l x

/-- A list that is used for a text was made by one of the calls, for the same text or within the grace
period. -/
theorem KeptBy.of_lookup? (hc : c.KeptBy settings calls) {path : FilePath} {hash : ContentHash}
    {now : Nat} {list : List Symbol}
    (h : c.symbols.lookup? (path.normalize settings.root) hash now = some list) :
    ∃ x ∈ calls, x.Makes list ∧ x.file.path.normalize settings.root = path.normalize settings.root ∧
      (ContentHash.ofText x.file.code = hash ∨ now - x.time < settings.symbolGrace) := by
  unfold SymbolCache.lookup? at h
  split at h
  · cases h
  · next l hl =>
    split at h
    · next hfresh =>
      obtain rfl := Option.some.inj h
      obtain ⟨x, hx, hkept⟩ := hc.made path l hl
      rw [hkept.hash, hkept.time, hc.grace] at hfresh
      exact ⟨x, hx, hkept.makes, hkept.key, hfresh⟩
    · cases h

/-- A request for symbols adds itself to the calls. -/
theorem KeptBy.symbols (hc : c.KeptBy settings calls) {file : FileBuffer} {now : Nat}
    {list : List Symbol} (hroot : c'.root = c.root) (hgrace : c'.symbols.grace = c.symbols.grace)
    (h : YieldsWith (CoreM.symbols file now) c s list c' s') :
    c'.KeptBy settings (calls ++ [⟨c, s, file, now⟩]) := by
  refine ⟨hroot.trans hc.root, hgrace.trans hc.grace, fun path l hl => ?_⟩
  have hold (hl : c.symbols.lists.get? (path.normalize settings.root) = some l) :
      ∃ x ∈ calls ++ [⟨c, s, file, now⟩], Kept settings path l x := by
    obtain ⟨x, hx, hkept⟩ := hc.made path l hl
    exact ⟨x, List.mem_append_left _ hx, hkept⟩
  rcases CoreM.yieldsWith_symbols_iff.1 h with
    ⟨-, rfl, -⟩ | ⟨hnone, ⟨-, hunit⟩ | ⟨u, c₁, hunit, -, rfl⟩⟩
  · exact hold hl
  · rw [(CoreM.keepsRest_unit? file hunit (.refl c)).1.symbols_eq] at hl
    exact hold hl
  · have hkey : c.builder.key file.path = file.path.normalize settings.root := by
      rw [← hc.root]
      rfl
    have hsame := (CoreM.keepsRest_unit? file hunit (.refl c)).1.symbols_eq
    rw [hsame, hkey] at hl
    -- the new list is found for the file itself, and under no other key
    cases hpath : file.path.normalize settings.root == path.normalize settings.root with
    | false =>
      rw [SymbolCache.store, Table.get?_insert_of_ne _ hpath] at hl
      exact hold hl
    | true =>
      have heq := FilePath.normalize_eq_of_beq hpath
      rw [SymbolCache.store, ← heq, Table.get?_insert_self] at hl
      obtain rfl := Option.some.inj hl
      exact ⟨_, List.mem_concat_self, ⟨hnone, u, _, _, hunit, CoreM.contentHash_of_unit? hunit, rfl⟩,
        heq, rfl, rfl⟩

/-- A request keeps the lists and the calls that made them together. -/
theorem KeptBy.answer (hc : c.KeptBy settings calls) {live : Bool} {r : Request}
    {e : Enumeration ProjectUnit} {a : Answer} (h : YieldsWith (CoreM.answer live r e) c s a c' s') :
    c'.KeptBy settings (calls ++ r.symbolsCalls c s) := by
  have hsetup := continues_of_answer h
  have hroot : c'.root = c.root := hsetup.setup.root_eq
  by_cases hr : r.kind = .symbols
  · cases r with
    | symbols file now =>
      obtain ⟨list, c₁, s₁, hrun, hpure⟩ := yieldsWith_bind.1 h
      obtain ⟨-, rfl, -⟩ := yieldsWith_pure.1 hpure
      exact hc.symbols hroot hsetup.sameGrace hrun
    | _ => cases hr
  · have hnone : r.symbolsCalls c s = [] := by
      cases r with
      | symbols file now => exact absurd rfl hr
      | _ => rfl
    rw [hnone, List.append_nil]
    refine ⟨hroot.trans hc.root, hsetup.sameGrace.trans hc.grace, ?_⟩
    rw [CoreM.symbols_of_answer hr h]
    exact hc.made

/-- However an analysis is used, every list it keeps was made since everything was last forgotten. -/
theorem Used.keptBy (h : c.Used settings calls) : c.KeptBy settings calls := by
  induction h with
  | start engine provided disk => exact ⟨rfl, rfl, fun path l hl => by cases hl⟩
  | answer _ hrun ih => exact ih.answer hrun
  | invalidateAll _ ih => exact ⟨ih.root, ih.grace, fun path l hl => by cases hl⟩
  | provide _ provider ih => exact ⟨ih.root, ih.grace, ih.made⟩
  | rewrite _ disk ih => exact ⟨ih.root, ih.grace, ih.made⟩

end AnalysisCore

/-! ## Where a list comes from -/

namespace CoreM

variable {c c' : AnalysisCore σ} {calls : List (SymbolsCall σ)} {s s' : σ}

/-- A list of symbols is empty because there is no unit for the text, or it was made by this very call,
or by an earlier one since everything was last forgotten. In the last case that call was for the same
file, and for a text with the same hash or less than the grace period ago; and nothing changes, so that
the list does not get younger by being used. -/
theorem symbols_of_used (h : c.Used settings calls) {file : FileBuffer} {now : Nat}
    {list : List Symbol} (hclock : ∀ x ∈ calls, x.time ≤ now)
    (hrun : YieldsWith (symbols file now) c s list c' s') :
    (list = [] ∧ YieldsWith (unit? file) c s none c' s') ∨
      SymbolsCall.Makes ⟨c, s, file, now⟩ list ∨
      ∃ x ∈ calls, x.Makes list ∧
        x.file.path.normalize settings.root = file.path.normalize settings.root ∧ x.time ≤ now ∧
        (ContentHash.ofText x.file.code = .ofText file.code ∨ now - x.time < settings.symbolGrace) ∧
        c' = c ∧ s' = s := by
  have hkept := h.keptBy
  have hkey : c.builder.key file.path = file.path.normalize settings.root := by
    rw [← hkept.root]
    rfl
  rcases yieldsWith_symbols_iff.1 hrun with
    ⟨hlookup, hc, hs⟩ | ⟨hnone, hend | ⟨u, c₁, hunit, hlist, -⟩⟩
  · rw [hkey] at hlookup
    obtain ⟨x, hx, hmakes, hpath, hfresh⟩ := hkept.of_lookup? hlookup
    exact .inr (.inr ⟨x, hx, hmakes, hpath, hclock x hx, hfresh, hc, hs⟩)
  · exact .inl hend
  · exact .inr (.inl ⟨hnone, u, _, _, hunit, contentHash_of_unit? hunit, hlist⟩)

open Model in
/-- A file is edited within the grace period, and its symbols are those of the text before. -/
theorem symbols_within_grace :
    ∃ (x : SymbolsCall ModelState) (c c' : AnalysisCore ModelState) (s s' : ModelState)
      (list : List Symbol),
      c.Used { root := ⟨"/s"⟩, symbolGrace := 10000 } [x] ∧ x.file = ⟨⟨"/s/led.cpp"⟩, "int a;\n"⟩ ∧
      x.time = 0 ∧ YieldsWith (symbols ⟨⟨"led.cpp"⟩, "int b;\n"⟩ 1000) c s list c' s' ∧
      list.map (·.name) = ["a"] ∧ x.Makes list ∧ c' = c ∧ s' = s := by
  generalize hstart : AnalysisCore.ofSettings modelEngine (fun _ => []) (fun _ => none)
    { root := ⟨"/s"⟩, symbolGrace := 10000 } = start
  have hnames : (EngineM.runFrom ((do
      let first ← symbols ⟨⟨"/s/led.cpp"⟩, "int a;\n"⟩ 0
      let c ← get
      let second ← symbols ⟨⟨"led.cpp"⟩, "int b;\n"⟩ 1000
      return (first, c, second)).run start) {}).1.toOption.map (fun found =>
        ((found.1.2.1.symbols.lookup? (found.1.2.1.builder.key ⟨"led.cpp"⟩) (.ofText "int b;\n")
          1000).isSome, found.1.2.2.map (·.name))) = some (true, ["a"]) := by
    rw [← hstart]
    decide +kernel
  obtain ⟨⟨first, c, list⟩, c', s', hrun, hfound⟩ := exists_yieldsWith hnames
  obtain ⟨hlookup, hnames⟩ := Prod.mk.inj hfound
  simp only [yieldsWith_bind, yieldsWith_get, yieldsWith_pure, Prod.mk.injEq] at hrun
  obtain ⟨_, _, s, hfirst, _, _, _, ⟨rfl, rfl, rfl⟩, _, _, _, hsecond, ⟨rfl, rfl, rfl⟩, rfl, rfl⟩ :=
    hrun
  have hanswer : YieldsWith (answer true (.symbols ⟨⟨"/s/led.cpp"⟩, "int a;\n"⟩ 0)) start {}
      (.symbols first) c _ := yieldsWith_bind.2 ⟨_, _, _, hfirst, yieldsWith_pure.2 ⟨rfl, rfl, rfl⟩⟩
  have hfresh : start.Used { root := ⟨"/s"⟩, symbolGrace := 10000 } [] := by
    rw [← hstart]
    exact .start _ _ _
  have hused := hfresh.answer hanswer
  rcases symbols_of_used hused (by simp [Request.symbolsCalls]) hsecond with
    ⟨rfl, -⟩ | ⟨hnone, -⟩ | ⟨x, hx, hmakes, -, -, -, rfl, rfl⟩
  · cases hnames
  · rw [hnone] at hlookup
    cases hlookup
  · obtain rfl := List.mem_singleton.1 hx
    exact ⟨_, _, _, _, _, list, hused, rfl, rfl, hsecond, hnames, hmakes, rfl, rfl⟩

end CoreM

end SketchSense
