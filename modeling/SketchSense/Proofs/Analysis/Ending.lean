import SketchSense.Proofs.Analysis.Searches
import SketchSense.Proofs.Query.Ending

/-!
# Requests about a position

The line of a request is looked up in the analysed text, which may have one line more above it than the
text in the editor. A request is answered exactly if the line still fits its word there: whatever was
asked before, wherever the position is and whatever the engine was told to fail on, nothing else can go
wrong as long as the engine can read the texts.

* `Request.position?`, the position that a request is about;
* `AnalysisCore.CanParseFor`, that the engine can read what is looked at for a request;
* `AnalysisCore.UsesMap`, the map with which the place in the analysed text is found;
* `CoreM.ends_answer_iff`, when a request about a position is answered.
-/

namespace SketchSense

open Model

variable {root : FilePath}

/-! ## What a request is about -/

/-- The position that a request is about. -/
def Request.position? : Request → Option EditPosition
  | completions p => some p
  | hover p _ => some p
  | definition p _ => some p
  | occurrences p _ _ => some p
  | container p => some p
  | diagnostics _ => none
  | symbols _ _ => none
  | project _ => none

namespace AnalysisCore

/-- The engine can read some files, one after the other. -/
def CanParseEach (c : AnalysisCore ModelState) (s : ModelState) : List FileBuffer → Prop
  | [] => True
  | f :: fs =>
    c.builder.CanParse s (c.builder.key f.path) f.code ∧
      ∀ a c' s', YieldsWith (CoreM.unit? f) c s a c' s' → CanParseEach c' s' fs

instance decidableCanParseEach (c : AnalysisCore ModelState) (s : ModelState) :
    (fs : List FileBuffer) → Decidable (c.CanParseEach s fs)
  | [] => .isTrue trivial
  | f :: fs =>
    match hrun : EngineM.runFrom ((CoreM.unit? f).run c) s with
    | (.ok (_, c'), s') =>
      have := decidableCanParseEach c' s' fs
      decidable_of_iff (c.builder.CanParse s (c.builder.key f.path) f.code ∧ c'.CanParseEach s' fs) (by
        refine and_congr_right fun _ => ⟨fun h a d r hunit => ?_, fun h => h _ _ _ hrun⟩
        obtain ⟨hsame, rfl⟩ := hunit.unique hrun
        rw [(Prod.mk.inj hsame).2]
        exact h)
    | (.error _, _) =>
      decidable_of_iff (c.builder.CanParse s (c.builder.key f.path) f.code) (by
        refine ⟨fun h => ⟨h, fun a d r hunit => ?_⟩, fun h => h.1⟩
        unfold YieldsWith Yields at hunit
        rw [hrun] at hunit
        cases hunit)

/-- The engine can read the texts that are looked at for a request about a position: that of its file,
those of the files that are searched, and those of the sources beside a header. -/
def CanParseFor (c : AnalysisCore ModelState) (s : ModelState) : Request → Prop
  | .completions p => c.CanParseEach s [p.file]
  | .hover p files =>
    c.CanParseEach s [p.file] ∧ ReadsBesides (c.builder.key p.file.path) files c.disk
  | .definition p files =>
    c.CanParseEach s [p.file] ∧ ReadsBesides (c.builder.key p.file.path) files c.disk
  | .occurrences p scope files => c.CanParseEach s (p.searched c.root files scope)
  | .container p => c.CanParseEach s [p.file]
  | .diagnostics _ => True
  | .symbols _ _ => True
  | .project _ => True

/-- The map with which a request finds the place of its position in the analysed text: that of the
unit of the file, or for completions that of the file as it is handed over now. -/
inductive UsesMap (c : AnalysisCore ModelState) (s : ModelState) : Request → CoordinateMap → Prop
  | unit {r : Request} {p : EditPosition} {u : CachedUnit} {c' : AnalysisCore ModelState}
      {s' : ModelState} (hposition : r.position? = some p) (hkind : r.kind ≠ .completions)
      (h : YieldsWith (CoreM.unit? p.file) c s (some u) c' s') : UsesMap c s r u.map
  | now {p : EditPosition} {u : CachedUnit} {c' : AnalysisCore ModelState} {s' s'' : ModelState}
      {made : Sources} {b : UnitBuilder ModelState}
      (h : YieldsWith (CoreM.unitWith? true p.file) c s (some u) c' s')
      (hmade : YieldsWith (buildSources (c.builder.key p.file.path) p.file.code) c'.builder s' made b
        s'') : UsesMap c s (.completions p) made.map

end AnalysisCore

namespace CoreM

open AnalysisCore

variable {c c' c₁ : AnalysisCore ModelState} {s s' s₁ : ModelState} {f : FileBuffer}
  {p : EditPosition} {files : List FileBuffer} {scope : OccurrenceScope} {a : Option CachedUnit}
  {m : CoordinateMap} {r : Request}

/-! ## Units -/

/-- A request for the unit of a file that can be read ends. -/
theorem ends_unitWith? (hc : c.Reads root) (stale : Bool)
    (h : c.builder.CanParse s (c.builder.key f.path) f.code) : Ends (unitWith? stale f) c s := by
  obtain ⟨⟨answer, units⟩, b, s', hrun⟩ := UnitCache.ends_resolveWith hc.units hc.engine stale h
  exact ⟨_, _, _, yieldsWith_unitWith?_iff.2 ⟨b, answer, units, hrun, rfl, rfl⟩⟩

/-- The unit of a file was read from the texts of the file. -/
theorem reads_of_unitWith? {stale : Bool} (hc : c.Reads root)
    (h : YieldsWith (unitWith? stale f) c s a c' s') :
    c'.Reads root ∧ c'.disk = c.disk ∧
      ∀ u, a = some u → u.key = c.builder.key f.path ∧ u.ReadAlone := by
  have hc' := hc.of_continues (RunsAlike.continues (runsAlike_unitWith? (.refl _ f) stale) h)
  obtain ⟨b, answer, units, hrun, rfl, rfl⟩ := yieldsWith_unitWith?_iff.1 h
  refine ⟨hc', rfl, ?_⟩
  rintro u hu
  cases answer with
  | error e => cases hu
  | ok found =>
    obtain ⟨v, action⟩ := found
    obtain rfl : v = u := Option.some.inj hu
    have hkept := UnitCache.get?_of_resolveWith hrun
    exact hc'.units.of_get? (FilePath.isNormal_normalize f.path c.builder.root) hkept

/-! ## Questions about a position -/

theorem usesMap_iff (hposition : r.position? = some p) (hkind : r.kind ≠ .completions)
    (hunit : YieldsWith (unit? p.file) c s a c₁ s₁) :
    c.UsesMap s r m ↔ ∃ u, a = some u ∧ m = u.map := by
  constructor
  · intro h
    cases h with
    | @unit r q u c' s' hq _ h =>
      obtain rfl : p = q := Option.some.inj (hposition.symm.trans hq)
      obtain ⟨hsame, -⟩ := hunit.unique h
      exact ⟨u, (Prod.mk.inj hsame).1, rfl⟩
    | now => exact absurd rfl hkind
  · rintro ⟨u, rfl, rfl⟩
    exact .unit hposition hkind hunit

/-- What is asked of the unit of a file ends exactly if the position fits its word there. -/
theorem ends_unit?_bind_iff {α : Type} {x : Option CachedUnit → CoreM ModelState α}
    (hposition : r.position? = some p) (hkind : r.kind ≠ .completions)
    (hunit : YieldsWith (unit? p.file) c s a c₁ s₁) (hnone : Ends (x none) c₁ s₁)
    (hsome : ∀ u, a = some u → (Ends (x (some u)) c₁ s₁ ↔ p.line + u.map.lineShift < wordLimit)) :
    Ends (unit? p.file >>= x) c s ↔ ∀ m, c.UsesMap s r m → p.line + m.lineShift < wordLimit := by
  rw [ends_bind_iff_of_yields hunit]
  simp only [usesMap_iff hposition hkind hunit]
  cases a with
  | none => simpa using hnone
  | some u => simpa using hsome u rfl

theorem ends_orFault_iff {α : Type} {x : Except Fault α} :
    Ends (orFault x : CoreM ModelState α) c s ↔ ∃ a, x = .ok a := by
  unfold orFault
  rw [ends_liftM_iff]
  simp [yields_mk]

theorem ends_hover_iff (hc : c.Reads root) (h : c.CanParseFor s (.hover p files)) :
    Ends (hover p files) c s ↔
      ∀ m, c.UsesMap s (.hover p files) m → p.line + m.lineShift < wordLimit := by
  obtain ⟨⟨hparse, -⟩, hbesides⟩ := h
  obtain ⟨a, c₁, s₁, hunit⟩ := ends_unitWith? hc false hparse
  obtain ⟨hc₁, hdisk, hread⟩ := reads_of_unitWith? hc hunit
  refine ends_unit?_bind_iff rfl nofun hunit (ends_pure _ _ _) fun u hu => ?_
  obtain ⟨hkey, halone⟩ := hread u hu
  rw [← hkey, ← hdisk] at hbesides
  rw [ends_bind_iff_of_yields (yieldsWith_get.2 ⟨rfl, rfl, rfl⟩)]
  exact ends_liftM_iff.trans (halone.exists_hover?_iff hc₁.engine hbesides s₁)

theorem ends_definition_iff (hc : c.Reads root) (h : c.CanParseFor s (.definition p files)) :
    Ends (definition p files) c s ↔
      ∀ m, c.UsesMap s (.definition p files) m → p.line + m.lineShift < wordLimit := by
  obtain ⟨⟨hparse, -⟩, hbesides⟩ := h
  obtain ⟨a, c₁, s₁, hunit⟩ := ends_unitWith? hc false hparse
  obtain ⟨hc₁, hdisk, hread⟩ := reads_of_unitWith? hc hunit
  refine ends_unit?_bind_iff rfl nofun hunit (ends_pure _ _ _) fun u hu => ?_
  obtain ⟨hkey, halone⟩ := hread u hu
  rw [← hkey, ← hdisk] at hbesides
  rw [ends_bind_iff_of_yields (yieldsWith_get.2 ⟨rfl, rfl, rfl⟩)]
  exact ends_liftM_iff.trans (halone.exists_findDefinition?_iff hc₁.engine hbesides s₁)

theorem ends_container_iff (hc : c.Reads root) (h : c.CanParseFor s (.container p)) :
    Ends (container p) c s ↔
      ∀ m, c.UsesMap s (.container p) m → p.line + m.lineShift < wordLimit := by
  obtain ⟨a, c₁, s₁, hunit⟩ := ends_unitWith? hc false h.1
  refine ends_unit?_bind_iff rfl nofun hunit (ends_pure _ _ _) fun u _ => ?_
  exact ends_orFault_iff.trans u.exists_container?_iff

/-- Files that can be read one after the other are searched to the end. -/
theorem ends_occurrencesAmong (t : OccurrenceTarget) (within : FilePath) {fs : List FileBuffer}
    (hc : c.Reads root) (h : c.CanParseEach s fs) : Ends (occurrencesAmong t within fs) c s := by
  induction fs generalizing c s with
  | nil => exact ends_pure _ _ _
  | cons f fs ih =>
    obtain ⟨hparse, hrest⟩ := h
    obtain ⟨a, c₁, s₁, hunit⟩ : Ends (unit? f) c s := ends_unitWith? hc false hparse
    obtain ⟨ls, c₂, s₂, hfound⟩ := ih (reads_of_unitWith? hc hunit).1 (hrest _ _ _ hunit)
    unfold occurrencesAmong
    rw [ends_bind_iff_of_yields hunit, ends_bind_iff_of_yields hfound]
    exact ends_pure _ _ _

/-- Once the entity is known the search ends. -/
theorem ends_occurrences_of_target (hc : c.Reads root) (live : Bool) {u : CachedUnit}
    (hunit : YieldsWith (unit? p.file) c s (some u) c₁ s₁)
    (hothers : scope = .project → c₁.CanParseEach s₁ (p.others c₁.root files))
    {t : Option OccurrenceTarget} (ht : u.target? p.line p.column = .ok t) :
    Ends (occurrences p scope files live) c s := by
  have htarget : YieldsWith (orFault (u.target? p.line p.column)) c₁ s₁ t c₁ s₁ :=
    yieldsWith_liftM.2 ⟨yields_mk.2 ⟨ht, rfl⟩, rfl⟩
  have hc₁ := (reads_of_unitWith? hc hunit).1
  have hget : YieldsWith (get : CoreM ModelState _) c₁ s₁ c₁ c₁ s₁ :=
    yieldsWith_get.2 ⟨rfl, rfl, rfl⟩
  unfold occurrences
  rw [ends_bind_iff_of_yields hunit, ends_bind_iff_of_yields htarget]
  cases t with
  | none => exact ends_pure _ _ _
  | some target =>
    cases scope with
    | currentFile => exact ends_pure _ _ _
    | project =>
      have hsearch (fs : List FileBuffer) (h : c₁.CanParseEach s₁ fs) : Ends (do
          return Location.sortUnique (u.occurrences target (some c₁.root) ++
            (← occurrencesAmong target c₁.root fs))) c₁ s₁ :=
        ends_bind_pure_iff.2 (ends_occurrencesAmong target c₁.root hc₁ h)
      dsimp only
      rw [ends_bind_iff_of_yields hget]
      cases live with
      | false => exact hsearch [] trivial
      | true =>
        have hkey : YieldsWith (keyOf p.file.path) c₁ s₁ (c₁.builder.key p.file.path) c₁ s₁ := by
          unfold keyOf
          rw [yieldsWith_bind_of_yields hget]
          exact yieldsWith_pure.2 ⟨rfl, rfl, rfl⟩
        have hfiles : YieldsWith (otherFiles (c₁.builder.key p.file.path) files) c₁ s₁
            (p.others c₁.root files) c₁ s₁ := by
          unfold otherFiles
          rw [yieldsWith_bind_of_yields hget]
          exact yieldsWith_pure.2 ⟨rfl, rfl, rfl⟩
        rw [if_pos rfl, ends_bind_iff_of_yields hkey, ends_bind_iff_of_yields hfiles]
        exact hsearch _ (hothers rfl)

/-- Occurrences are found exactly if the position fits its word. -/
theorem ends_occurrences_iff (hc : c.Reads root) (live : Bool)
    (h : c.CanParseFor s (.occurrences p scope files)) :
    Ends (occurrences p scope files live) c s ↔
      ∀ m, c.UsesMap s (.occurrences p scope files) m → p.line + m.lineShift < wordLimit := by
  have hparse : c.CanParseEach s (p.file :: if scope = .project then p.others c.root files else []) := by
    cases scope with
    | currentFile => exact h
    | project => exact h
  obtain ⟨a, c₁, s₁, hunit⟩ : Ends (unit? p.file) c s := ends_unitWith? hc false hparse.1
  have hroot : c₁.root = c.root := (reads_of_unitWith? hc hunit).1.rooted.trans hc.rooted.symm
  refine ends_unit?_bind_iff rfl nofun hunit (ends_pure _ _ _) fun u hu => ?_
  subst hu
  rw [← u.exists_target?_iff]
  constructor
  · rintro ⟨_, _, _, hrun⟩
    obtain ⟨t, c₂, s₂, htarget, -⟩ := yieldsWith_bind.1 hrun
    exact ends_orFault_iff.1 ⟨t, c₂, s₂, htarget⟩
  · rintro ⟨t, ht⟩
    have hends : Ends (occurrences p scope files live) c s := by
      refine ends_occurrences_of_target hc live hunit ?_ ht
      rintro rfl
      rw [hroot]
      exact hparse.2 _ _ _ hunit
    unfold occurrences at hends
    rwa [ends_bind_iff_of_yields hunit] at hends

/-- Completions are proposed exactly if the position fits its word in the text of now. -/
theorem ends_completions_iff (hc : c.Reads root) (h : c.CanParseFor s (.completions p)) :
    Ends (completions p) c s ↔
      ∀ m, c.UsesMap s (.completions p) m → p.line + m.lineShift < wordLimit := by
  obtain ⟨a, c₁, s₁, hunit⟩ := ends_unitWith? hc true h.1
  obtain ⟨hc₁, -, -⟩ := reads_of_unitWith? hc hunit
  have hkeys : c₁.builder.key p.file.path = c.builder.key p.file.path := by
    rw [hc₁.key_eq, hc.key_eq]
  unfold completions
  rw [ends_bind_iff_of_yields hunit]
  cases a with
  | none =>
    refine iff_of_true (ends_pure _ _ _) fun m hm => ?_
    cases hm with
    | unit _ hkind _ => exact absurd rfl hkind
    | now hunit' _ => cases (hunit.unique hunit').1
  | some u =>
    obtain ⟨made, t, s₂, -, -, hmade⟩ := exists_buildSources hc₁.engine h.1.text
      (c.builder.key p.file.path) s₁
    have hmaps : (∀ m, c.UsesMap s (.completions p) m → p.line + m.lineShift < wordLimit) ↔
        p.line + made.map.lineShift < wordLimit := by
      constructor
      · intro hall
        exact hall _ (.now hunit hmade)
      · rintro hline m hm
        cases hm with
        | unit _ hkind _ => exact absurd rfl hkind
        | now hunit' hmade' =>
          obtain ⟨hsame, rfl⟩ := hunit.unique hunit'
          obtain ⟨-, rfl⟩ := Prod.mk.inj hsame
          obtain ⟨hsame', -⟩ := hmade.unique hmade'
          rw [← (Prod.mk.inj hsame').1]
          exact hline
    have hget {c : AnalysisCore ModelState} {s : ModelState} :
        YieldsWith (get : CoreM ModelState _) c s c c s :=
      yieldsWith_get.2 ⟨rfl, rfl, rfl⟩
    have hkey : YieldsWith (keyOf p.file.path) c₁ s₁ (c.builder.key p.file.path) c₁ s₁ := by
      unfold keyOf
      rw [yieldsWith_bind_of_yields hget]
      exact yieldsWith_pure.2 ⟨hkeys.symm, rfl, rfl⟩
    have hstate {c : AnalysisCore ModelState} {s : ModelState} :
        YieldsWith (getThe ModelState : CoreM ModelState _) c s s c s := rfl
    rw [hmaps]
    dsimp only
    rw [ends_bind_iff_of_yields hkey,
      ends_bind_iff_of_yields (yieldsWith_building_iff.2 ⟨_, hmade, rfl⟩),
      ends_bind_iff_of_yields hget, ends_bind_iff_of_yields hstate, ends_bind_pure_iff,
      ends_orFault_iff]
    rw [hc₁.engine]
    exact u.exists_complete_iff s₂ made.unsaved c₁.root

/-- For a position the lines of a file move by one at most, and those of a file that is no sketch not at
all. -/
theorem lineShift_le_of_usesMap (hc : c.Reads root) (hposition : r.position? = some p)
    (h : c.UsesMap s r m) :
    m.lineShift ≤ if (p.file.path.normalize root).kind = .sketchEntry then 1 else 0 := by
  rw [← hc.key_eq]
  cases h with
  | unit hposition' _ hunit =>
    obtain rfl := Option.some.inj (hposition.symm.trans hposition')
    obtain ⟨hukey, halone⟩ := (reads_of_unitWith? hc hunit).2.2 _ rfl
    obtain ⟨made, hmade, hmap, -⟩ := halone.sources
    rw [hmap, ← hukey]
    exact hmade.lineShift_le_of_kind
  | now _ hmade =>
    obtain rfl := Option.some.inj hposition
    obtain ⟨t, hsources, -⟩ := yieldsWith_buildSources_iff.1 hmade
    exact (Transformer.isOf_of_sources hsources).lineShift_le_of_kind

/-- A request about a position in a file that the engine can read is answered exactly if the line fits
its word in the analysed text, whatever was asked before, whatever the column is and whatever the engine
was told to fail on. The line is greater there by one at most, and in a file that is no sketch it is the
same. -/
theorem ends_answer_iff (hc : c.Reached (fun _ => True) root)
    (hengine : c.builder.engine = modelEngine) (hposition : r.position? = some p)
    (h : c.CanParseFor s r) (live : Bool) :
    (Ends (answer live r) c s ↔ ∀ m, c.UsesMap s r m → p.line + m.lineShift < wordLimit) ∧
      ∀ m, c.UsesMap s r m →
        m.lineShift ≤ if (p.file.path.normalize root).kind = .sketchEntry then 1 else 0 := by
  have hreads := hc.reads hengine
  constructor
  · cases r with
    | completions q =>
      obtain rfl := Option.some.inj hposition
      exact ends_bind_pure_iff.trans (ends_completions_iff hreads h)
    | hover q files =>
      obtain rfl := Option.some.inj hposition
      exact ends_bind_pure_iff.trans (ends_hover_iff hreads h)
    | definition q files =>
      obtain rfl := Option.some.inj hposition
      exact ends_bind_pure_iff.trans (ends_definition_iff hreads h)
    | occurrences q scope files =>
      obtain rfl := Option.some.inj hposition
      exact ends_bind_pure_iff.trans (ends_occurrences_iff hreads live h)
    | container q =>
      obtain rfl := Option.some.inj hposition
      exact ends_bind_pure_iff.trans (ends_container_iff hreads h)
    | diagnostics file => cases hposition
    | symbols file now => cases hposition
    | project files => cases hposition
  · exact fun m hm => lineShift_le_of_usesMap hreads hposition hm

/-- A sketch that is one function, without a blank line, can be read. -/
theorem canParseFor_one_function (line column : Nat) :
    (AnalysisCore.ofSettings modelEngine (fun _ => []) (fun _ => none) { root := ⟨"/s"⟩ }).CanParseFor {}
      (.hover ⟨⟨⟨"/s/Blink.ino"⟩, "void f() \x7b\x7d\n"⟩, line, column⟩ []) := by
  constructor
  · dsimp only
    decide +kernel
  · -- there is nothing on disk, and no other file is open
    intro q _ code hcode
    cases hcode

/-- Its line moves down by one, for the include: on the last line from which that can be done a question
is answered. -/
theorem ends_hover_of_last_fitting_line :
    Ends (answer true (.hover ⟨⟨⟨"/s/Blink.ino"⟩, "void f() \x7b\x7d\n"⟩, 4294967294, 1⟩ []))
      (.ofSettings modelEngine (fun _ => []) (fun _ => none) { root := ⟨"/s"⟩ }) {} := by
  have hreached : (AnalysisCore.ofSettings modelEngine (fun _ => []) (fun _ => none)
      { root := ⟨"/s"⟩ }).Reached (fun _ => True) ⟨"/s"⟩ :=
    .start modelEngine (fun _ => []) rfl fun _ _ => trivial
  obtain ⟨hends, hshift⟩ :=
    ends_answer_iff hreached rfl rfl (canParseFor_one_function 4294967294 1) true
  refine hends.2 fun m hm => ?_
  have hle : m.lineShift ≤ 1 := (hshift m hm).trans (by split <;> decide)
  have hlimit : wordLimit = 4294967296 := rfl
  dsimp only
  omega

/-- On the last line that there is in a word the question is not answered. -/
theorem not_ends_hover_of_last_line :
    ∃ (c : AnalysisCore ModelState) (p : EditPosition),
      p = ⟨⟨⟨"/s/Blink.ino"⟩, "void f() \x7b\x7d\n"⟩, 4294967295, 1⟩ ∧ p.line < wordLimit ∧
      c.Reached (fun _ => True) ⟨"/s"⟩ ∧ c.builder.engine = modelEngine ∧
      c.CanParseFor {} (.hover p []) ∧ ¬ Ends (answer true (.hover p [])) c {} := by
  refine ⟨.ofSettings modelEngine (fun _ => []) (fun _ => none) { root := ⟨"/s"⟩ }, _, rfl, by decide,
    .start modelEngine (fun _ => []) rfl fun _ _ => trivial, rfl, canParseFor_one_function _ _, ?_⟩
  rintro ⟨a, c', s', hrun⟩
  have hnone : (EngineM.runFrom ((answer true (.hover
      ⟨⟨⟨"/s/Blink.ino"⟩, "void f() \x7b\x7d\n"⟩, 4294967295, 1⟩ [])).run
        (.ofSettings modelEngine (fun _ => []) (fun _ => none) { root := ⟨"/s"⟩ })) {}).1.toOption.isNone =
          true := by
    decide +kernel
  unfold YieldsWith Yields at hrun
  rw [hrun] at hnone
  cases hnone

end CoreM

end SketchSense
