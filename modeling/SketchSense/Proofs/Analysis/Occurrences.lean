import SketchSense.Proofs.Analysis.Searches
import SketchSense.Proofs.FilePath.Inside

/-!
# Occurrences that are asked for again

Asked at any of the places that a question for occurrences has found, in the file where it was found,
the analysis finds the same places again, and the name that was asked about is among them. The one
exception is a file with a name that is kept for sketches: its places are shown in the sketch of that
name.

* `CoreM.findsIn_congr`, that names of one entity are looked for alike;
* `AnalysisCore.FindsAgain`, that a question at a place finds a list of places;
* `CoreM.occurrences_again`, that occurrences lead to each other.
-/

namespace SketchSense

open Model

variable {root : FilePath} {p : EditPosition} {files : List FileBuffer} {scope : OccurrenceScope}
  {f : FileBuffer}

/-- Asked at a place, in a file under any spelling, the analysis finds the places of a list. -/
def AnalysisCore.FindsAgain (root : FilePath) (c : AnalysisCore ModelState) (s : ModelState)
    (scope : OccurrenceScope) (files : List FileBuffer) (L : List Location) (f : FileBuffer)
    (q : Location) : Prop :=
  ∀ g, f.Respells root g → ∃ c' s',
    YieldsWith (CoreM.occurrences ⟨g, q.line, q.column⟩ scope files true) c s L c' s'

namespace CoreM

open AnalysisCore

variable {c c' : AnalysisCore ModelState} {s s' : ModelState} {L : List Location}

/-! ## Names of one entity -/

/-- A name in the unit that is held for a file, with the entity that is looked for. -/
theorem exists_of_findsIn {u : CachedUnit} {n : Cursor} {q : Location} {dir : Option FilePath}
    (hc : c.Reads root) (hu : c.Holds root p.file u) (hn : u.IsNamed n)
    (h : c.FindsIn root ⟨u.unit.primary n, u.key⟩ dir f q) :
    ∃ w d, c.Holds root f w ∧ w.IsNamed d ∧ u.IsNameOf n w d ∧ d.location.isUnknown = false ∧
      w.map.toEdited d.location = some q := by
  obtain ⟨w, hw, hq⟩ := h
  obtain ⟨hukey, hualone⟩ := hc.of_holds hu
  obtain ⟨hwkey, hwalone⟩ := hc.of_holds hw
  have hsame (hkey : w.key = u.key) : w = u :=
    hu.eq_of_key hw (hwkey.symm.trans (hkey.trans hukey))
  obtain ⟨d, hd, hname, hknown, hshown, -⟩ :=
    (hualone.mem_occurrences_iff hwalone hn.mem_cursors hsame).1 hq
  exact ⟨w, d, hw, hwalone.isNamed_of_isNameOf hn hd hname, hname, hknown, hshown⟩

/-- What is found of a name is in a normal file. -/
theorem isNormal_of_findsIn {u : CachedUnit} {n : Cursor} {q : Location} {dir : Option FilePath}
    (hc : c.Reads root) (hu : c.Holds root p.file u) (hn : u.IsNamed n)
    (h : c.FindsIn root ⟨u.unit.primary n, u.key⟩ dir f q) : q.file.IsNormal := by
  obtain ⟨w, d, hw, hd, -, -, hshown⟩ := exists_of_findsIn hc hu hn h
  exact (hc.of_holds hw).2.isNormal_of_toEdited hd hshown

/-- Names of one entity are looked for alike. -/
theorem findsIn_congr {u w : CachedUnit} {n d : Cursor} {q : Location} {dir : Option FilePath}
    (hc : c.Reads root) {a b : FileBuffer} (hu : c.Holds root a u) (hw : c.Holds root b w)
    (hn : n ∈ u.unit.cursors) (hd : d ∈ w.unit.cursors) (husr : d.usr = n.usr)
    (hlone : n.usr = "" → w = u ∧ d.location = n.location) :
    c.FindsIn root ⟨w.unit.primary d, w.key⟩ dir f q ↔
      c.FindsIn root ⟨u.unit.primary n, u.key⟩ dir f q := by
  obtain ⟨hukey, hualone⟩ := hc.of_holds hu
  obtain ⟨hwkey, hwalone⟩ := hc.of_holds hw
  unfold FindsIn
  apply exists_congr
  intro v
  apply and_congr_right
  intro hv
  obtain ⟨hvkey, hvalone⟩ := hc.of_holds hv
  exact CachedUnit.ReadAlone.mem_occurrences_congr hualone hwalone hvalone hn hd
    (fun hkey => hu.eq_of_key hv (hvkey.symm.trans (hkey.trans hukey)))
    (fun hkey => hw.eq_of_key hv (hvkey.symm.trans (hkey.trans hwkey))) husr hlone

/-! ## What is known of what was found -/

/-- What is known after a question that has found something: `n` is the name in the unit `u` that was
asked about, the files are held that were searched, and the list has what there is in them. -/
structure Found (root : FilePath) (c : AnalysisCore ModelState) (p : EditPosition)
    (scope : OccurrenceScope) (files : List FileBuffer) (L : List Location) (u : CachedUnit)
    (n : Cursor) : Prop where
  reads : c.Reads root
  unit : c.Holds root p.file u
  target : u.target? p.line p.column = .ok (some ⟨u.unit.primary n, u.key⟩)
  start : u.nameStart? p.line p.column = u.map.toEdited n.location
  named : u.IsNamed n
  held : ∀ f ∈ p.searched root files scope, ∃ w, c.Holds root f w
  listed : ∃ ls, L = Location.sortUnique ls ∧ (∀ q ∈ ls, q.file.IsNormal) ∧
    ∀ q, q ∈ ls ↔ ∃ f ∈ p.searched root files scope,
      c.FindsIn root ⟨u.unit.primary n, u.key⟩ (scope.within root) f q

/-- What is known after a question about the name `n` in the unit `u` of its file. -/
theorem found_of_cursorAt {c₁ : AnalysisCore ModelState} {s₁ : ModelState} {u : CachedUnit}
    {l : Location} {n : Cursor}
    (hapart : (p.searched root files scope).Pairwise (FileBuffer.Apart root)) (hc : c.Reads root)
    (hs : s.Unfailing) (hunit : YieldsWith (unit? p.file) c s (some u) c₁ s₁)
    (hl : u.map.toAnalyzed p.line p.column = .ok l) (hcursor : u.unit.cursorAt l = some n)
    (h : YieldsWith (occurrences p scope files true) c s L c' s') :
    Found root c' p scope files L u n := by
  obtain ⟨hc₁, -, hu₁⟩ := holds_of_unit? hc hs hunit
  have ht := (hc₁.of_holds hu₁).2.target?_eq_some.2 ⟨l, n, hl, hcursor, rfl⟩
  obtain ⟨hc', hu, hheld, ls, hL, hls⟩ := of_occurrences hapart hc hs hunit ht h
  have hn := CachedUnit.isNamed_of_cursorAt hcursor
  refine ⟨hc', hu, ht, CachedUnit.nameStart?_eq hl hcursor, hn, hheld, ls, hL, ?_, hls⟩
  intro q hq
  obtain ⟨f, -, hfinds⟩ := (hls q).1 hq
  exact isNormal_of_findsIn hc' hu hn hfinds

theorem exists_found (hfiles : scope = .project → OpenFiles root p.file files) (hc : c.Reads root)
    (hs : s.Unfailing) (h : YieldsWith (occurrences p scope files true) c s L c' s') (hne : L ≠ []) :
    ∃ u n, Found root c' p scope files L u n := by
  obtain ⟨u, c₁, s₁, t, hunit, ht, hnone⟩ := exists_target?_of_occurrences hc hs h
  obtain ⟨t, rfl⟩ := Option.ne_none_iff_exists'.1 fun hnot => hne (hnone hnot).1
  obtain ⟨hc₁, -, hu₁⟩ := holds_of_unit? hc hs hunit
  obtain ⟨l, n, hl, hcursor, -⟩ := (hc₁.of_holds hu₁).2.target?_eq_some.1 ht
  exact ⟨u, n, found_of_cursorAt (pairwise_searched fun hscope => (hfiles hscope).apart) hc hs hunit
    hl hcursor h⟩

namespace Found

variable {u : CachedUnit} {n : Cursor} {q : Location} (h : Found root c p scope files L u n)

include h

theorem mem_iff : q ∈ L ↔ ∃ f ∈ p.searched root files scope,
    c.FindsIn root ⟨u.unit.primary n, u.key⟩ (scope.within root) f q := by
  obtain ⟨ls, rfl, hnormal, hls⟩ := h.listed
  rw [Location.mem_sortUnique hnormal, hls]

/-- A file in which something is found has a name under which it is analysed. -/
theorem isEmpty_analyzedName (hfiles : scope = .project → OpenFiles root p.file files)
    (hne : L ≠ []) : u.key.analyzedName.isEmpty = false := by
  obtain ⟨hukey, hualone⟩ := h.reads.of_holds h.unit
  cases scope with
  | project =>
    obtain ⟨active, hactive, hspelled⟩ := (hfiles rfl).active
    have hkind : active.path.kind ≠ .other := (hfiles rfl).kinds active hactive
    rw [hukey, ← hspelled.key]
    apply FilePath.isEmpty_analyzedName
    rw [FilePath.kind_normalize root hkind]
    exact hkind
  | currentFile =>
    -- the name that was found is in the same file
    obtain ⟨q, hq⟩ := List.exists_mem_of_ne_nil L hne
    obtain ⟨f, hf, hfinds⟩ := h.mem_iff.1 hq
    rw [List.mem_singleton.1 hf] at hfinds
    obtain ⟨w, d, hw, hd, -, hknown, hshown⟩ := exists_of_findsIn h.reads h.unit h.named hfinds
    rw [h.unit.eq_of_key hw rfl] at hd hshown
    rw [← hualone.file_of_toEdited hd hshown]
    exact hknown

/-- The name that was asked about is found where it starts. -/
theorem mem_of_nameStart? (hfiles : scope = .project → OpenFiles root p.file files) (hne : L ≠ [])
    (hq : q ∈ u.nameStart? p.line p.column) : q ∈ L := by
  obtain ⟨hukey, hualone⟩ := h.reads.of_holds h.unit
  rw [h.start] at hq
  have hshown : u.map.toEdited n.location = some q := hq
  have hknown : n.location.isUnknown = false := by
    unfold Location.isUnknown
    rw [hualone.file_of_toEdited h.named hshown]
    exact h.isEmpty_analyzedName hfiles hne
  have hinside : (scope.within root).all (q.file.isInside ·) = true := by
    cases scope with
    | currentFile => rfl
    | project =>
      obtain ⟨active, hactive, hspelled⟩ := (hfiles rfl).active
      have hin := (hfiles rfl).inside active hactive
      rw [hspelled.key, ← hukey] at hin
      show q.file.isInside root = true
      rcases hualone.toEdited_cases h.named hshown with ⟨hfile, -⟩ | ⟨-, hfile⟩
      · rw [hfile]
        exact hin
      · rw [hfile, FilePath.isInside_editedName]
        exact hin
  have hself : p.file ∈ p.searched root files scope := by
    cases scope <;> exact List.mem_cons_self
  have hoccurs := (hualone.mem_occurrences_iff hualone h.named.mem_cursors fun _ => rfl).2
    ⟨n, h.named.mem_cursors, u.isNameOf_self n, hknown, hshown, hinside⟩
  exact h.mem_iff.2 ⟨p.file, hself, u, h.unit, hoccurs⟩

/-- From a name of the entity the same places are found. -/
theorem findsAgain {w : CachedUnit} {d m : Cursor} {l : Location}
    (hfiles : scope = .project → OpenFiles root p.file files)
    (hf : f ∈ p.searched root files scope) (hw : c.Holds root f w) (hname : u.IsNameOf n w d)
    (hl : w.map.toAnalyzed q.line q.column = .ok l) (hm : w.unit.cursorAt l = some m)
    (husr : m.usr = d.usr) (hlocation : m.location = d.location) (s : ModelState) :
    c.FindsAgain root s scope files L f q := by
  intro g hg
  obtain ⟨ls, rfl, hnormal, hls⟩ := h.listed
  obtain ⟨hukey, hualone⟩ := h.reads.of_holds h.unit
  obtain ⟨hwkey, hwalone⟩ := h.reads.of_holds hw
  obtain ⟨-, hfront, hback⟩ := exists_searched_again (q := ⟨g, q.line, q.column⟩) hfiles hf hg
  have hheld : ∀ b ∈ (EditPosition.mk g q.line q.column).searched root files scope,
      ∃ v, c.Holds root b v := by
    intro b hb
    obtain ⟨a, ha, hba⟩ := hback b hb
    obtain ⟨v, hv⟩ := h.held a ha
    exact ⟨v, hv.respells hba.symm⟩
  obtain ⟨ms, c', hrun, hms⟩ := exists_occurrences h.reads hheld (hw.respells hg)
    (hwalone.target?_eq_some.2 ⟨l, m, hl, hm, rfl⟩) s
  have hcongr (b : FileBuffer) (x : Location) :
      c.FindsIn root ⟨w.unit.primary m, w.key⟩ (scope.within root) b x ↔
        c.FindsIn root ⟨u.unit.primary n, u.key⟩ (scope.within root) b x := by
    refine findsIn_congr h.reads h.unit hw h.named.mem_cursors
      (CachedUnit.isNamed_of_cursorAt hm).mem_cursors (husr.trans hname.usr_eq) fun hempty => ?_
    obtain ⟨rfl, rfl⟩ := hname.eq_of_usr_eq_empty hempty
    exact ⟨rfl, hlocation⟩
  have hsame : ∀ x, x ∈ ls ↔ x ∈ ms := by
    intro x
    rw [hls, hms]
    constructor
    · rintro ⟨a, ha, hfound⟩
      obtain ⟨b, hb, hab⟩ := hfront a ha
      exact ⟨b, hb, (hcongr b x).2 (hfound.respells hab)⟩
    · rintro ⟨b, hb, hfound⟩
      obtain ⟨a, ha, hba⟩ := hback b hb
      exact ⟨a, ha, ((hcongr b x).1 hfound).respells hba⟩
  refine ⟨c', s, ?_⟩
  rw [Location.sortUnique_eq_of_mem_iff hnormal hsame]
  exact hrun

end Found

/-! ## The same places again -/

/-- Occurrences lead to each other. A question that has found something has found the name that it was
asked about, and every place was found in one of the files that were searched. Wherever a place was
found, either that file has a name that is kept for sketches, and the place is shown in the sketch of
that name, or it is shown in that file. Then the same question asked there, about the same open files,
finds the same places. Lines are counted as far as a word goes. -/
theorem occurrences_again (hc : c.Reached (fun _ => True) root)
    (hengine : c.builder.engine = modelEngine) (hs : s.Unfailing)
    (hfiles : scope = .project → OpenFiles root p.file files)
    (h : YieldsWith (occurrences p scope files true) c s L c' s') (hne : L ≠ []) :
    ∃ u t, c'.Holds root p.file u ∧ u.target? p.line p.column = .ok (some t) ∧
      (∀ q ∈ u.nameStart? p.line p.column, q ∈ L) ∧
      ∀ q ∈ L, (∃ f ∈ p.searched root files scope, c'.FindsIn root t (scope.within root) f q) ∧
        ∀ f ∈ p.searched root files scope, c'.FindsIn root t (scope.within root) f q →
          (f.path.normalize root).isAnalyzedEntry = true ∧
              q.file = (f.path.normalize root).editedName ∨
            q.file = f.path.normalize root ∧
              (q.line + 1 < wordLimit → c'.FindsAgain root s' scope files L f q) := by
  obtain ⟨u, n, hfound⟩ := exists_found hfiles (hc.reads hengine) hs h hne
  refine ⟨u, _, hfound.unit, hfound.target, fun q hq => hfound.mem_of_nameStart? hfiles hne hq,
    fun q hq => ⟨hfound.mem_iff.1 hq, fun f hf hfinds => ?_⟩⟩
  obtain ⟨w, d, hw, hd, hname, -, hshown⟩ :=
    exists_of_findsIn hfound.reads hfound.unit hfound.named hfinds
  obtain ⟨hwkey, hwalone⟩ := hfound.reads.of_holds hw
  rw [← hwkey]
  rcases hwalone.toEdited_cases hd hshown with ⟨hfile, hagain⟩ | hreserved
  · refine .inr ⟨hfile, fun hfits => ?_⟩
    obtain ⟨l, m, hl, hm, husr, hlocation⟩ := hagain hfits
    exact hfound.findsAgain hfiles hf hw hname hl hm husr hlocation s'
  · exact .inl hreserved

/-- Asked in the middle of the name of a function, in a sketch that is open together with a header, the
analysis finds where the name starts, and asked there it finds the same. -/
theorem occurrences_again_at_start :
    ∃ (sketch : FileBuffer) (files : List FileBuffer) (c c' : AnalysisCore ModelState)
      (s s' : ModelState), sketch = ⟨⟨"/s/Blink.ino"⟩, "void blink() \x7b\x7d\n"⟩ ∧
      files = [⟨⟨"/s/led.h"⟩, "int led;\n"⟩, sketch] ∧
      YieldsWith (occurrences ⟨sketch, 1, 8⟩ .project files true)
        (.ofSettings modelEngine (fun _ => []) (fun _ => none) { root := ⟨"/s"⟩ }) {}
        [⟨sketch.path, 1, 6⟩] c s ∧
      YieldsWith (occurrences ⟨sketch, 1, 6⟩ .project files true) c s [⟨sketch.path, 1, 6⟩] c' s' := by
  generalize hsketch : FileBuffer.mk ⟨"/s/Blink.ino"⟩ "void blink() \x7b\x7d\n" = sketch
  generalize hfiles : [⟨⟨"/s/led.h"⟩, "int led;\n"⟩, sketch] = files
  generalize hstart : AnalysisCore.ofSettings modelEngine (fun _ => []) (fun _ => none)
    { root := ⟨"/s"⟩ } = start
  have hanswer : (EngineM.runFrom ((occurrences ⟨sketch, 1, 8⟩ .project files true).run start)
      {}).1.toOption.map (fun r => r.1.map fun l => (l.file.text, l.line, l.column)) =
        some [("/s/Blink.ino", 1, 6)] := by
    rw [← hstart, ← hfiles, ← hsketch]
    decide +kernel
  obtain ⟨L, c, s, hrun, hL⟩ := exists_yieldsWith hanswer
  obtain ⟨⟨⟨text⟩, line, column⟩, rfl, hl⟩ := List.map_eq_singleton_iff.1 hL
  cases hl
  have hreached : start.Reached (fun _ => True) ⟨"/s"⟩ := by
    rw [← hstart]
    exact .start modelEngine (fun _ => []) rfl fun _ _ => trivial
  have hopen : OpenFiles ⟨"/s"⟩ sketch files := by
    rw [← hfiles, ← hsketch]
    refine ⟨by decide, by decide +kernel, ?_, _, List.mem_cons_of_mem _ List.mem_cons_self, .refl _ _⟩
    unfold FileBuffer.Apart
    decide +kernel
  obtain ⟨u, t, -, -, -, hall⟩ := occurrences_again (p := ⟨sketch, 1, 8⟩) hreached (by rw [← hstart]; rfl)
    ⟨fun _ => rfl, rfl⟩ (fun _ => hopen) hrun (List.cons_ne_nil _ _)
  obtain ⟨⟨f, hf, hfinds⟩, hplace⟩ := hall _ List.mem_cons_self
  have hsearched : f = sketch ∨ f = ⟨⟨"/s/led.h"⟩, "int led;\n"⟩ := by
    rcases List.mem_cons.1 hf with rfl | hf
    · exact .inl rfl
    · have hopened : f ∈ files := (List.mem_filter.1 hf).1
      rw [← hfiles, List.mem_cons, List.mem_singleton] at hopened
      exact hopened.symm
  have hagain : c.FindsAgain ⟨"/s"⟩ s .project files [⟨⟨"/s/Blink.ino"⟩, 1, 6⟩] sketch
      ⟨⟨"/s/Blink.ino"⟩, 1, 6⟩ := by
    rcases hplace f hf hfinds with ⟨hreserved, -⟩ | ⟨hfile, hagain⟩
    · exfalso
      rcases hsearched with rfl | rfl
      · rw [← hsketch] at hreserved
        exact absurd hreserved (by decide +kernel)
      · exact absurd hreserved (by decide +kernel)
    · rcases hsearched with rfl | rfl
      · exact hagain (by decide)
      · exact absurd (congrArg FilePath.text hfile) (by decide +kernel)
  obtain ⟨c', s', hrun'⟩ := hagain sketch (.refl _ _)
  have hpath : sketch.path = ⟨"/s/Blink.ino"⟩ := by rw [← hsketch]
  rw [← hpath] at hrun hrun'
  exact ⟨sketch, files, c, c', s, s', rfl, hfiles.symm, hrun, hrun'⟩

/-- A source with a name that is kept for a sketch, next to that sketch. What is found in the source is
shown in the sketch, not where the name starts, and nothing is found there. -/
theorem occurrences_in_reserved_file :
    ∃ (source : FileBuffer) (files : List FileBuffer) (c c' : AnalysisCore ModelState)
      (s s' : ModelState), source = ⟨⟨"/s/X.ino.cpp"⟩, "int a;\n"⟩ ∧
      files = [source, ⟨⟨"/s/X.ino"⟩, "\n"⟩] ∧ OpenFiles ⟨"/s"⟩ source files ∧
      YieldsWith (occurrences ⟨source, 1, 5⟩ .project files true)
        (.ofSettings modelEngine (fun _ => []) (fun _ => none) { root := ⟨"/s"⟩ }) {}
        [⟨⟨"/s/X.ino"⟩, 1, 5⟩] c s ∧
      YieldsWith (occurrences ⟨⟨⟨"/s/X.ino"⟩, "\n"⟩, 1, 5⟩ .project files true) c s [] c' s' ∧
      (⟨source.path, 1, 5⟩ : Location) ∉ [(⟨⟨"/s/X.ino"⟩, 1, 5⟩ : Location)] := by
  generalize hsource : FileBuffer.mk ⟨"/s/X.ino.cpp"⟩ "int a;\n" = source
  generalize hfiles : [source, ⟨⟨"/s/X.ino"⟩, "\n"⟩] = files
  generalize hstart : AnalysisCore.ofSettings modelEngine (fun _ => []) (fun _ => none)
    { root := ⟨"/s"⟩ } = start
  have hanswer : (EngineM.runFrom ((do
      let L ← occurrences ⟨source, 1, 5⟩ .project files true
      let M ← occurrences ⟨⟨⟨"/s/X.ino"⟩, "\n"⟩, 1, 5⟩ .project files true
      return (L, M) : CoreM ModelState _).run start) {}).1.toOption.map
        (fun r => (r.1.1.map fun l => (l.file.text, l.line, l.column), r.1.2.length)) =
      some ([("/s/X.ino", 1, 5)], 0) := by
    rw [← hstart, ← hfiles, ← hsource]
    decide +kernel
  obtain ⟨⟨L, M⟩, c', s', hrun, hLM⟩ := exists_yieldsWith hanswer
  obtain ⟨hL, hM⟩ := Prod.mk.inj hLM
  obtain ⟨⟨⟨text⟩, line, column⟩, rfl, hl⟩ := List.map_eq_singleton_iff.1 hL
  cases hl
  obtain rfl : M = [] := List.length_eq_zero_iff.1 hM
  obtain ⟨L, c, s, hfirst, hrest⟩ := yieldsWith_bind.1 hrun
  obtain ⟨M, c₁, s₁, hsecond, hend⟩ := yieldsWith_bind.1 hrest
  obtain ⟨hanswers, rfl, rfl⟩ := yieldsWith_pure.1 hend
  cases hanswers
  refine ⟨source, files, c, c', s, s', rfl, hfiles.symm, ?_, hfirst, hsecond, ?_⟩
  · rw [← hfiles, ← hsource]
    refine ⟨by decide, by decide +kernel, ?_, _, List.mem_cons_self, .refl _ _⟩
    unfold FileBuffer.Apart
    decide +kernel
  · rw [List.mem_singleton, ← hsource]
    intro heq
    exact absurd (congrArg (fun l : Location => l.file.text) heq) (by decide)

end CoreM

end SketchSense
