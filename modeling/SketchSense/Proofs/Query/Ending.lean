import SketchSense.Completion.Complete
import SketchSense.Proofs.Cache.Completing
import SketchSense.Proofs.Model.Extents
import SketchSense.Proofs.Query.Occurrence
import SketchSense.Query.Definition
import SketchSense.Query.Hover

/-!
# Questions about a unit that end

A question about a position in a unit is answered exactly if the line, counted in the analysed text,
still fits its word. Nothing that is looked up on the way can fail: what a source beside a header
declares is asked of the engine, which can read it, and the lines below a definition are only counted
where there is nothing else to show, which does not happen.

* `CachedUnit.ReadAlone.declarationLines_ne_empty`, that the lines of a name show something;
* `exists_siblingDefinition?`, a look into the sources beside a header;
* `exists_hover?_iff`, `exists_findDefinition?_iff` and others, one for every kind of question.
-/

namespace SketchSense

open Model

/-! ## Names and their texts -/

namespace CachedUnit.ReadAlone

variable {u : CachedUnit} {c d : Cursor} (hu : u.ReadAlone)

include hu

/-- The texts of a unit can be read. -/
theorem canRead : ∀ t ∈ u.unsaved, CanRead t.code := by
  intro t ht
  obtain ⟨files, hfiles, -⟩ := buildUnit_eq_ok.1 hu.built
  obtain ⟨m, -, hm⟩ := (mem_of_mapM_eq_ok hfiles).1 t (mem_mainLast.2 ht)
  exact canRead_of_ofBuffer hm

/-- The text of a name shows something where the name stands. -/
theorem exists_showsAt (hc : u.IsNamed c) :
    ∃ t ∈ u.unsaved, c.location.file = t.path ∧ Text.ShowsAt t.code c.location.line := by
  obtain ⟨n, hn, rfl, hlength⟩ := hc
  obtain ⟨files, hfiles, hunit⟩ := buildUnit_eq_ok.1 hu.built
  rw [hunit] at hn
  obtain ⟨d, hd, rfl⟩ := List.mem_map.1 hn
  obtain ⟨t, ht, lx, hlex, hname⟩ := exists_nameIn hfiles hd (Nat.ne_of_gt hlength)
  exact ⟨t, mem_mainLast.1 ht, hname.file_eq, hname.showsAt hlex⟩

/-- The lines of a name show something. -/
theorem declarationLines_ne_empty (hc : u.IsNamed c) {t : FileBuffer} (ht : t ∈ u.unsaved)
    (hfile : c.location.file = t.path) : declarationLines u.unit c t.code ≠ "" := by
  obtain ⟨t', ht', hfile', hshows⟩ := hu.exists_showsAt hc
  obtain rfl : t' = t := hu.eq_of_path_beq t' ht' t ht (by rw [← hfile', hfile]; exact BEq.rfl)
  unfold declarationLines
  refine Text.snippet_ne_empty hshows ?_
  cases hbody : u.unit.bodyOf? c with
  | none => exact Nat.le_refl _
  | some body => exact hu.line_le_of_bodyOf? hc.mem_cursors hbody

/-- The texts of a unit are those of its file and of the header that is generated for it. -/
theorem path_of_mem {t : FileBuffer} (ht : t ∈ u.unsaved) :
    t.path = u.key.analyzedName ∨ t.path = u.key.prototypeHeader := by
  obtain ⟨s, hs, -, hunsaved⟩ := hu.sources
  rw [hunsaved] at ht
  exact hs.path_of_mem ht

/-- What a name refers to is named. -/
theorem isNamed_of_referenced (hc : u.IsNamed c) (hd : u.unit.referenced c = some d) :
    u.IsNamed d := by
  obtain ⟨es, hes⟩ := exists_linkedUnit hu.built
  obtain ⟨x, hx, rfl⟩ := hes.mem_cursors.1 hc.mem_cursors
  obtain ⟨r, hr, hreferenced, husr, hempty, -⟩ := hes.exists_referenced hx
  rw [hd, Option.getD_some] at hreferenced
  rw [hreferenced]
  by_cases hkey : x.cursor.usr = ""
  · rw [hempty hkey]
    exact hc
  · obtain ⟨n, hn, hcursor⟩ := List.mem_map.1 (hes.mem_cursors_of_mem hr)
    exact ⟨n, hn, hcursor, hes.nameLength_pos hn (by rwa [hcursor, husr])⟩

/-- Where a name is defined there is a name. -/
theorem isNamed_of_definition (hc : c ∈ u.unit.cursors) (hd : u.unit.definition c = some d) :
    u.IsNamed d := by
  obtain ⟨es, hes⟩ := exists_linkedUnit hu.built
  obtain ⟨x, hx, rfl⟩ := hes.mem_cursors.1 hc
  obtain ⟨r, hr, rfl, husr, hkey, -⟩ := hes.exists_definition hx hd
  obtain ⟨n, hn, hcursor⟩ := List.mem_map.1 (hes.mem_cursors_of_mem hr)
  exact ⟨n, hn, hcursor, hes.nameLength_pos hn (by rwa [hcursor, husr])⟩

/-- What is shown for a name is named. -/
theorem isNamed_hoverCursor (hc : u.IsNamed c) : u.IsNamed (hoverCursor u.unit c) := by
  have htarget : u.IsNamed (((u.unit.referenced c).or (u.unit.definition c)).getD c) := by
    cases hr : u.unit.referenced c with
    | some r => exact hu.isNamed_of_referenced hc hr
    | none =>
      cases hd : u.unit.definition c with
      | some d => exact hu.isNamed_of_definition hc.mem_cursors hd
      | none => exact hc
  unfold hoverCursor
  dsimp only
  split
  · cases hd : u.unit.definition (((u.unit.referenced c).or (u.unit.definition c)).getD c) with
    | some d => exact hu.isNamed_of_definition htarget.mem_cursors hd
    | none => exact htarget
  · exact htarget

end CachedUnit.ReadAlone

/-! ## Sources beside a header -/

/-- The sources beside the texts that a file is analysed with. -/
def FilePath.besides (key : FilePath) : List FilePath :=
  key.analyzedName.siblingSources ++ key.prototypeHeader.siblingSources

/-- Beside a file that is no header nothing is looked for. -/
theorem FilePath.siblingSources_of_kind {p : FilePath} (h : p.kind ≠ .header) :
    p.siblingSources = [] := by
  unfold siblingSources
  split
  · next hkind _ => exact absurd hkind h
  · rfl

section Siblings

variable {b : UnitBuilder ModelState} {texts : SourceTexts} (hb : UsesModel b)

include hb

theorem exists_definitionAmong? (key : FunctionKey) {paths : List FilePath}
    (hreads : ∀ p ∈ paths, ∀ code, texts.text? p = some code → CanRead code) (s : ModelState) :
    ∃ l s', Yields (definitionAmong? b texts key paths) s l s' := by
  induction paths generalizing s with
  | nil => exact ⟨none, s, yields_pure.2 ⟨rfl, rfl⟩⟩
  | cons p paths ih =>
    rw [List.forall_mem_cons] at hreads
    unfold definitionAmong?
    cases htext : texts.text? p with
    | none => exact ih hreads.2 s
    | some code =>
      obtain ⟨answer, hparse⟩ := exists_yields_parse (r := scanRequest p code (b.provider p))
        (by simp [ParseRequest.mainCode?, scanRequest])
        (fun t ht => by
          rw [List.mem_singleton.1 ht]
          exact hreads.1 code htext) s
      rw [← hb] at hparse
      cases answer with
      | error e =>
        obtain ⟨l, s', hrest⟩ := ih hreads.2 (s.afterParse (scanRequest p code (b.provider p)))
        exact ⟨l, s', yields_bind.2 ⟨_, _, hparse, hrest⟩⟩
      | ok u =>
        cases hfound : u.findFunction? p key true with
        | some l =>
          refine ⟨some l, s.afterParse (scanRequest p code (b.provider p)),
            yields_bind.2 ⟨_, _, hparse, ?_⟩⟩
          dsimp only
          rw [hfound]
          exact yields_pure.2 ⟨rfl, rfl⟩
        | none =>
          obtain ⟨l, s', hrest⟩ := ih hreads.2 (s.afterParse (scanRequest p code (b.provider p)))
          refine ⟨l, s', yields_bind.2 ⟨_, _, hparse, ?_⟩⟩
          dsimp only
          rw [hfound]
          exact hrest

/-- A look into the sources beside a header ends. -/
theorem exists_siblingDefinition? {c : Cursor}
    (hreads : ∀ p ∈ c.location.file.siblingSources, ∀ code, texts.text? p = some code → CanRead code)
    (s : ModelState) : ∃ l s', Yields (siblingDefinition? b texts c) s l s' := by
  unfold siblingDefinition?
  cases FunctionKey.ofCursor? c with
  | none => exact ⟨none, s, yields_pure.2 ⟨rfl, rfl⟩⟩
  | some key => exact exists_definitionAmong? hb key hreads s

omit hb

/-- For what is not in a header nothing is found beside it. -/
theorem yields_siblingDefinition?_of_kind {c : Cursor} (h : c.location.file.kind ≠ .header)
    (s : ModelState) : Yields (siblingDefinition? b texts c) s none s := by
  unfold siblingDefinition?
  cases FunctionKey.ofCursor? c with
  | none => exact yields_pure.2 ⟨rfl, rfl⟩
  | some key =>
    rw [FilePath.siblingSources_of_kind h]
    exact yields_pure.2 ⟨rfl, rfl⟩

include hb

/-- The documentation beside a header is found whenever there is something else to show. -/
theorem exists_siblingDocumentation {c : Cursor}
    (hreads : ∀ p ∈ c.location.file.siblingSources, ∀ code, texts.text? p = some code → CanRead code)
    {code : String} (hcode : code ≠ "") (s : ModelState) :
    ∃ d s', Yields (siblingDocumentation b texts c code) s d s' := by
  obtain ⟨l, s', hl⟩ := exists_siblingDefinition? hb hreads s
  unfold siblingDocumentation
  cases l with
  | none => exact ⟨_, _, yields_bind.2 ⟨_, _, hl, yields_pure.2 ⟨rfl, rfl⟩⟩⟩
  | some l =>
    cases htext : texts.text? l.file with
    | none =>
      refine ⟨declarationText code, s', yields_bind.2 ⟨_, _, hl, ?_⟩⟩
      dsimp only
      rw [htext]
      exact yields_pure.2 ⟨rfl, rfl⟩
    | some text =>
      cases hcomment : commentAt? text l.line with
      | some d =>
        refine ⟨d, s', yields_bind.2 ⟨_, _, hl, ?_⟩⟩
        dsimp only
        rw [htext]
        dsimp only
        rw [hcomment]
        exact yields_pure.2 ⟨rfl, rfl⟩
      | none =>
        refine ⟨declarationText code, s', yields_bind.2 ⟨_, _, hl, ?_⟩⟩
        dsimp only
        rw [htext]
        dsimp only
        rw [hcomment]
        dsimp only
        rw [if_pos hcode]
        exact yields_pure.2 ⟨rfl, rfl⟩

end Siblings

/-! ## Questions about a position -/

section Questions

variable {b : UnitBuilder ModelState} {u : CachedUnit} {files : List FileBuffer}
  {disk : FilePath → Option String}

/-- The engine can read the sources beside the texts of a unit. -/
def ReadsBesides (key : FilePath) (files : List FileBuffer) (disk : FilePath → Option String) :
    Prop :=
  ∀ p ∈ key.besides, ∀ code, (codeOf? p files).or (disk p) = some code → CanRead code

theorem CachedUnit.ReadAlone.canRead_of_text? (hu : u.ReadAlone)
    (hbesides : ReadsBesides u.key files disk) {c : Cursor} (hc : u.IsNamed c) :
    ∀ p ∈ c.location.file.siblingSources, ∀ code,
      SourceTexts.text? ⟨u.unsaved, files, disk⟩ p = some code → CanRead code := by
  intro p hp code hcode
  unfold SourceTexts.text? at hcode
  dsimp only at hcode
  cases hown : codeOf? p u.unsaved with
  | some own =>
    rw [hown, Option.some_or] at hcode
    obtain ⟨t, ht, rfl⟩ := Option.map_eq_some_iff.1 hown
    obtain rfl := Option.some.inj hcode
    exact hu.canRead t (List.mem_of_find?_eq_some ht)
  | none =>
    rw [hown, Option.none_or] at hcode
    refine hbesides p ?_ code hcode
    obtain ⟨t, ht, hfile⟩ := hu.exists_text hc
    rw [hfile] at hp
    rcases hu.path_of_mem ht with hpath | hpath
    · rw [hpath] at hp
      exact List.mem_append_left _ hp
    · rw [hpath] at hp
      exact List.mem_append_right _ hp

/-- The text that a name is in is found first. -/
theorem CachedUnit.ReadAlone.text?_eq (hu : u.ReadAlone) {t : FileBuffer} (ht : t ∈ u.unsaved) :
    SourceTexts.text? ⟨u.unsaved, files, disk⟩ t.path = some t.code := by
  have hown : codeOf? t.path u.unsaved = some t.code := by
    unfold codeOf?
    cases hfound : u.unsaved.find? fun f => f.path == t.path with
    | none => exact absurd BEq.rfl (List.find?_eq_none.1 hfound t ht)
    | some f =>
      have hpath := List.find?_some hfound
      rw [hu.eq_of_path_beq f (List.mem_of_find?_eq_some hfound) t ht hpath]
      rfl
  unfold SourceTexts.text?
  rw [hown, Option.some_or]

/-- The documentation of a name is found. -/
theorem CachedUnit.ReadAlone.exists_documentationOf (hu : u.ReadAlone) (hb : UsesModel b)
    (hbesides : ReadsBesides u.key files disk) {c : Cursor} (hc : u.IsNamed c) (s : ModelState) :
    ∃ d s', Yields (documentationOf b ⟨u.unsaved, files, disk⟩ u.unit c) s d s' := by
  obtain ⟨t, ht, hfile, hshows⟩ := hu.exists_showsAt hc
  unfold documentationOf
  by_cases hunknown : c.location.isUnknown = true
  · -- a name in no file is in no header
    have hkind : c.location.file.kind ≠ .header := by
      intro hheader
      have hempty := FilePath.isEmpty_of_kind (p := c.location.file) (by rw [hheader]; decide)
      exact absurd hunknown (by simp [Location.isUnknown, hempty])
    rw [if_pos (.inl hunknown)]
    unfold siblingDocumentation
    exact ⟨_, s, yields_bind.2
      ⟨none, s, yields_siblingDefinition?_of_kind hkind s, yields_pure.2 ⟨rfl, rfl⟩⟩⟩
  · rw [if_neg (not_or.2 ⟨hunknown, Nat.ne_of_gt hshows.1⟩), hfile, hu.text?_eq ht]
    dsimp only
    cases commentAt? t.code c.location.line with
    | some d => exact ⟨d, s, yields_pure.2 ⟨rfl, rfl⟩⟩
    | none =>
      exact exists_siblingDocumentation hb (hu.canRead_of_text? hbesides hc)
        (hu.declarationLines_ne_empty hc ht hfile) s

/-- What is shown for a name is found. -/
theorem CachedUnit.ReadAlone.exists_hoverOf (hu : u.ReadAlone) (hb : UsesModel b)
    (hbesides : ReadsBesides u.key files disk) {c : Cursor} (hc : u.IsNamed c) (s : ModelState) :
    ∃ r s', Yields (hoverOf b ⟨u.unsaved, files, disk⟩ u.unit c) s r s' := by
  have hend (d : Documentation) (s' : ModelState) : ∃ r, Yields
      (if (c.hover d).name = "" ∧ (c.hover d).signature = "" ∧ (c.hover d).briefComment = "" ∧
          (c.hover d).fullComment = "" then pure none
        else pure (some (c.hover d)) : EngineM ModelState (Option Hover)) s' r s' := by
    split
    · exact ⟨none, yields_pure.2 ⟨rfl, rfl⟩⟩
    · exact ⟨some (c.hover d), yields_pure.2 ⟨rfl, rfl⟩⟩
  unfold hoverOf
  dsimp only
  split
  · obtain ⟨d, s', hd⟩ := hu.exists_documentationOf hb hbesides hc s
    obtain ⟨r, hr⟩ := hend d s'
    exact ⟨r, s', yields_bind.2 ⟨d, s', hd, hr⟩⟩
  · obtain ⟨r, hr⟩ := hend ⟨c.briefComment.getD "", c.rawComment.getD ""⟩ s
    exact ⟨r, s, yields_bind.2 ⟨_, s, yields_pure.2 ⟨rfl, rfl⟩, hr⟩⟩

variable {line column : Nat}

/-- A position has a place in the analysed text if the line there fits its word. -/
theorem exists_toAnalyzed_iff (column : Nat) {m : CoordinateMap} :
    (∃ l, m.toAnalyzed line column = .ok l) ↔ line + m.lineShift < wordLimit := by
  constructor
  · rintro ⟨l, hl⟩
    exact (toAnalyzed_eq.1 hl).1
  · intro h
    exact ⟨_, toAnalyzed_eq.2 ⟨h, rfl⟩⟩

/-- What is shown for a position is found exactly if the position fits its word. -/
theorem CachedUnit.ReadAlone.exists_hover?_iff (hu : u.ReadAlone) (hb : UsesModel b)
    (hbesides : ReadsBesides u.key files disk) (s : ModelState) :
    (∃ r s', Yields (hover? b ⟨u.unsaved, files, disk⟩ u line column) s r s') ↔
      line + u.map.lineShift < wordLimit := by
  rw [← exists_toAnalyzed_iff column]
  unfold hover?
  simp only [yields_bind, yields_mk]
  constructor
  · rintro ⟨r, s', l, -, ⟨hl, -⟩, -⟩
    exact ⟨l, hl⟩
  · rintro ⟨l, hl⟩
    cases hc : u.unit.cursorAt l with
    | none => exact ⟨none, s, l, s, ⟨hl, rfl⟩, by rw [hc]; exact yields_pure.2 ⟨rfl, rfl⟩⟩
    | some c =>
      obtain ⟨r, s', hr⟩ := hu.exists_hoverOf hb hbesides
        (hu.isNamed_hoverCursor (isNamed_of_cursorAt hc)) s
      exact ⟨r, s', l, s, ⟨hl, rfl⟩, by rw [hc]; exact hr⟩

/-- Where the name at a position leads is found exactly if the position fits its word. -/
theorem CachedUnit.ReadAlone.exists_findDefinition?_iff (hu : u.ReadAlone) (hb : UsesModel b)
    (hbesides : ReadsBesides u.key files disk) (s : ModelState) :
    (∃ r s', Yields (findDefinition? b ⟨u.unsaved, files, disk⟩ u line column) s r s') ↔
      line + u.map.lineShift < wordLimit := by
  rw [← exists_toAnalyzed_iff column]
  unfold findDefinition?
  simp only [yields_bind, yields_mk]
  constructor
  · rintro ⟨r, s', l, -, ⟨hl, -⟩, -⟩
    exact ⟨l, hl⟩
  · rintro ⟨l, hl⟩
    cases hc : u.unit.cursorAt l with
    | none => exact ⟨none, s, l, s, ⟨hl, rfl⟩, by rw [hc]; exact yields_pure.2 ⟨rfl, rfl⟩⟩
    | some c =>
      have hnamed := isNamed_of_cursorAt hc
      generalize hhere : (jumpCursor? (u.unit.referenced c) (u.unit.definition c)).bind u.jumpTo? =
        here
      by_cases hheader : c.location.file.kind = .header
      · cases hsymbol : (u.unit.referenced c).or (u.unit.definition c) with
        | none =>
          refine ⟨here, s, l, s, ⟨hl, rfl⟩, ?_⟩
          rw [hc]
          dsimp only
          rw [if_pos hheader, hsymbol, hhere]
          exact yields_pure.2 ⟨rfl, rfl⟩
        | some symbol =>
          have hsymbolNamed : u.IsNamed symbol := by
            rcases Option.or_eq_some_iff.1 hsymbol with hr | ⟨-, hd⟩
            · exact hu.isNamed_of_referenced hnamed hr
            · exact hu.isNamed_of_definition hnamed.mem_cursors hd
          obtain ⟨found, s', hfound⟩ := exists_siblingDefinition? hb
            (hu.canRead_of_text? hbesides hsymbolNamed) s
          cases found with
          | some place =>
            refine ⟨some place, s', l, s, ⟨hl, rfl⟩, ?_⟩
            rw [hc]
            dsimp only
            rw [if_pos hheader, hsymbol]
            exact yields_bind.2 ⟨_, _, hfound, yields_pure.2 ⟨rfl, rfl⟩⟩
          | none =>
            refine ⟨here, s', l, s, ⟨hl, rfl⟩, ?_⟩
            rw [hc]
            dsimp only
            rw [if_pos hheader, hsymbol, hhere]
            exact yields_bind.2 ⟨_, _, hfound, yields_pure.2 ⟨rfl, rfl⟩⟩
      · refine ⟨here, s, l, s, ⟨hl, rfl⟩, ?_⟩
        rw [hc]
        dsimp only
        rw [if_neg hheader, hhere]
        exact yields_pure.2 ⟨rfl, rfl⟩

/-- The container around a position is found exactly if the position fits its word. -/
theorem CachedUnit.exists_container?_iff (u : CachedUnit) :
    (∃ r, u.container? line column = .ok r) ↔ line + u.map.lineShift < wordLimit := by
  rw [← exists_toAnalyzed_iff column]
  unfold CachedUnit.container?
  cases u.map.toAnalyzed line column with
  | error f => simp [bind, Except.bind]
  | ok l => simp [bind, Except.bind, pure, Except.pure]

/-- The entity at a position is found exactly if the position fits its word. -/
theorem CachedUnit.exists_target?_iff (u : CachedUnit) :
    (∃ r, u.target? line column = .ok r) ↔ line + u.map.lineShift < wordLimit := by
  rw [← exists_toAnalyzed_iff column]
  unfold CachedUnit.target?
  cases u.map.toAnalyzed line column with
  | error f => simp [bind, Except.bind]
  | ok l => simp [bind, Except.bind, pure, Except.pure]

/-- Completions are proposed exactly if the position fits its word in the text of now. -/
theorem CachedUnit.exists_complete_iff (u : CachedUnit) {m : CoordinateMap} (s : ModelState)
    (unsaved : List FileBuffer) (root : FilePath) :
    (∃ r, u.complete modelEngine s unsaved m line column root = .ok r) ↔
      line + m.lineShift < wordLimit := by
  rw [← exists_toAnalyzed_iff column]
  unfold CachedUnit.complete
  cases m.toAnalyzed line column with
  | error f => simp [bind, Except.bind]
  | ok l => simp [bind, Except.bind, pure, Except.pure]

end Questions

end SketchSense
