import Mathlib.Data.List.Perm.Basic
import SketchSense.Proofs.Analysis.Ending
import SketchSense.Proofs.Analysis.Occurrences
import SketchSense.Proofs.Cache.Agreeing
import SketchSense.Proofs.Cache.Headers

/-!
# The occurrences in a project

The list of the occurrences in a project is the union of those in the units of the files that are
searched, in order. The files are searched one after the other, and they share what is remembered for
sketches; only where two sketches are remembered under one hash can the order of the files be seen.

* `AnalysisCore.IsUnion`, the list that belongs to the units that are held;
* `FileBuffer.Independent`, files of which neither changes what the other one gets, with
  `CoreM.exists_unit?_of_alikeFor` and `CoreM.alikeFor_of_unit?`;
* `CoreM.exists_occurrencesAmong_iff`, that every file is searched as if it were the first one;
* `CoreM.occurrences_union`, what is found in a project, in whatever order the files are.
-/

namespace SketchSense

open Model

variable {root : FilePath} {f g : FileBuffer}

/-! ## Files that do not get in each other's way -/

/-- Different files that are not remembered under one hash. -/
structure FileBuffer.Independent (root : FilePath) (f g : FileBuffer) : Prop where
  apart : f.Apart root g
  remembered : RememberedApart (f.path.normalize root) f.code (g.path.normalize root) g.code

/-- What is hashed to remember a file. -/
def FileBuffer.rememberedBytes (root : FilePath) (f : FileBuffer) : List (List UInt8) :=
  [(Skeleton.ofCode f.code).signatureBytes (f.path.normalize root).display,
    (Skeleton.ofCode f.code).layoutBytes (f.path.normalize root).display]

/-- The sketches among some files. -/
def sketchesOf (root : FilePath) (files : List FileBuffer) : List FileBuffer :=
  files.filter fun f => (f.path.normalize root).kind = .sketchEntry

theorem FileBuffer.Independent.symm (h : f.Independent root g) : g.Independent root f := by
  refine ⟨h.apart.symm, fun hg hf => ?_⟩
  obtain ⟨hlayout, hsignature⟩ := h.remembered hf hg
  exact ⟨hlayout.symm, hsignature.symm⟩

/-- Different files are independent if the sketches among them are displayed differently and no two
hashed inputs collide. -/
theorem FileBuffer.independent_of_toldApart {files : List FileBuffer}
    (hfree : ContentHash.CollisionFree ((sketchesOf root files).flatMap (rememberedBytes root)))
    (htold : FilePath.ToldApart ((sketchesOf root files).map fun f => f.path.normalize root))
    (hf : f ∈ files) (hg : g ∈ files) (hapart : f.Apart root g) : f.Independent root g := by
  refine ⟨hapart, fun hkind hkind' => ?_⟩
  have hfs : f ∈ sketchesOf root files := List.mem_filter.2 ⟨hf, by simpa using hkind⟩
  have hgs : g ∈ sketchesOf root files := List.mem_filter.2 ⟨hg, by simpa using hkind'⟩
  have hfkey := List.mem_map_of_mem (f := fun f : FileBuffer => f.path.normalize root) hfs
  have hgkey := List.mem_map_of_mem (f := fun f : FileBuffer => f.path.normalize root) hgs
  have hdisplay : (f.path.normalize root).display ≠ (g.path.normalize root).display := by
    intro heq
    have hkeys := htold.injective _ hfkey _ hgkey heq
    unfold Apart at hapart
    rw [hkeys, BEq.rfl] at hapart
    cases hapart
  have hsignature : InsertionMemo.signatureOf (f.path.normalize root) f.code ≠
      InsertionMemo.signatureOf (g.path.normalize root) g.code := by
    intro heq
    have hbytes := hfree _ (List.mem_flatMap.2 ⟨f, hfs, List.mem_cons_self⟩) _
      (List.mem_flatMap.2 ⟨g, hgs, List.mem_cons_self⟩) heq
    exact hdisplay (ContentHash.textField_append_inj
      (FilePath.not_mem_display (by decide) (htold.noZero _ hfkey))
      (FilePath.not_mem_display (by decide) (htold.noZero _ hgkey)) hbytes).1
  refine ⟨fun heq => ?_, hsignature⟩
  have hbytes := hfree _
    (List.mem_flatMap.2 ⟨f, hfs, List.mem_cons_of_mem _ List.mem_cons_self⟩) _
    (List.mem_flatMap.2 ⟨g, hgs, List.mem_cons_of_mem _ List.mem_cons_self⟩) heq
  exact hsignature (ContentHash.hashField_append_inj hbytes).1

namespace AnalysisCore

/-- The analyses keep the same unit for a file, and their builders are alike for it. -/
structure AlikeFor (root : FilePath) (f : FileBuffer) (c d : AnalysisCore ModelState) : Prop where
  builder : c.builder.AlikeFor (f.path.normalize root) f.code d.builder
  kept : d.units.units.get? (f.path.normalize root) = c.units.units.get? (f.path.normalize root)

namespace AlikeFor

variable {c d e : AnalysisCore ModelState}

theorem refl (root : FilePath) (f : FileBuffer) (c : AnalysisCore ModelState) :
    c.AlikeFor root f c :=
  ⟨.refl _ _ _, rfl⟩

theorem symm (h : c.AlikeFor root f d) : d.AlikeFor root f c := ⟨h.builder.symm, h.kept.symm⟩

theorem trans (h : c.AlikeFor root f d) (h' : d.AlikeFor root f e) : c.AlikeFor root f e :=
  ⟨h.builder.trans h'.builder, h'.kept.trans h.kept⟩

end AlikeFor

end AnalysisCore

namespace CoreM

open AnalysisCore

variable {c c' d : AnalysisCore ModelState} {s s' r : ModelState} {a : Option CachedUnit}
  {u : CachedUnit} {t : OccurrenceTarget} {within : FilePath} {fs gs : List FileBuffer}
  {ls : List Location}

/-- A file that is asked about leaves analyses alike for an independent one. -/
theorem alikeFor_of_unit? (hc : c.Reads root) (hs : s.Unfailing)
    (h : YieldsWith (unit? f) c s a c' s') (hfg : f.Independent root g) : c.AlikeFor root g c' := by
  obtain ⟨-, -, -, hrest⟩ := exists_holds_of_unit? hc hs h
  refine ⟨?_, hrest _ hfg.apart⟩
  obtain ⟨b, answer, units, hresolve, -, rfl⟩ := yieldsWith_unit?_iff.1 h
  have hkey := hc.key_eq f.path
  have hremembered := hfg.remembered
  rw [← hkey] at hremembered
  exact (UnitCache.keeps_resolveWith_alikeFor hc.units false hremembered hresolve (.refl _ _ _)).1

/-- Analyses that are alike for a file answer for it with the same unit. -/
theorem exists_unit?_of_alikeFor (hc : c.Reads root) (hs : s.Unfailing) (hr : r.Unfailing)
    (hcd : c.AlikeFor root f d) (h : YieldsWith (unit? f) c s (some u) c' s') :
    ∃ d' r', YieldsWith (unit? f) d r (some u) d' r' := by
  obtain ⟨b, answer, units, hresolve, hanswer, -⟩ := yieldsWith_unit?_iff.1 h
  have hkey := hc.key_eq f.path
  obtain ⟨hbuilder, hkept⟩ := hcd
  rw [← hkey] at hbuilder hkept
  cases answer with
  | error e => cases hanswer
  | ok found =>
    obtain ⟨v, action⟩ := found
    obtain ⟨units', b', r', hresolve'⟩ :=
      UnitCache.exists_resolveWith_of_alikeFor hc.units hkept hbuilder hc.engine hs hr hresolve
    exact ⟨_, r', yieldsWith_unit?_iff.2 ⟨b', _, units', hresolve', hanswer, rfl⟩⟩

/-! ## One file after the other -/

/-- Independent files are searched as if each of them were the first. -/
theorem exists_occurrencesAmong_iff (hfs : fs.Pairwise (FileBuffer.Independent root))
    (hc : c.Reads root) (hs : s.Unfailing) (hd : d.Reads root) (hr : r.Unfailing)
    (hcd : ∀ f ∈ fs, c.AlikeFor root f d) :
    (∃ d' r', YieldsWith (occurrencesAmong t within fs) d r ls d' r') ↔
      ∃ us, List.Forall₂ (fun f u => ∃ c' s', YieldsWith (unit? f) c s (some u) c' s') fs us ∧
        ls = us.flatMap (·.occurrences t (some within)) := by
  induction fs generalizing d r ls with
  | nil =>
    constructor
    · rintro ⟨d', r', h⟩
      obtain ⟨rfl, -⟩ := yieldsWith_pure.1 h
      exact ⟨[], .nil, rfl⟩
    · rintro ⟨us, hus, rfl⟩
      cases hus
      exact ⟨d, r, yieldsWith_pure.2 ⟨rfl, rfl, rfl⟩⟩
  | cons f fs ih =>
    obtain ⟨hfirst, hfs⟩ := List.pairwise_cons.1 hfs
    rw [List.forall_mem_cons] at hcd
    have hnext {a : Option CachedUnit} {d₁ : AnalysisCore ModelState} {r₁ : ModelState}
        (hunit : YieldsWith (unit? f) d r a d₁ r₁) : ∀ g ∈ fs, c.AlikeFor root g d₁ :=
      fun g hg => (hcd.2 g hg).trans (alikeFor_of_unit? hd hr hunit (hfirst g hg))
    unfold occurrencesAmong
    constructor
    · rintro ⟨d', r', h⟩
      obtain ⟨a, d₁, r₁, hunit, hrest⟩ := yieldsWith_bind.1 h
      obtain ⟨found, d₂, r₂, hfound, hend⟩ := yieldsWith_bind.1 hrest
      obtain ⟨rfl, -⟩ := yieldsWith_pure.1 hend
      obtain ⟨hd₁, hr₁, ⟨u, rfl, -⟩, -⟩ := exists_holds_of_unit? hd hr hunit
      obtain ⟨us, hus, rfl⟩ := (ih hfs hd₁ hr₁ (hnext hunit)).1 ⟨d₂, r₂, hfound⟩
      exact ⟨u :: us, .cons (exists_unit?_of_alikeFor hd hr hs hcd.1.symm hunit) hus, rfl⟩
    · rintro ⟨us, hus, rfl⟩
      cases hus with
      | @cons _ u _ us hu hus =>
        obtain ⟨c', s', hunit⟩ := hu
        obtain ⟨d₁, r₁, hunit⟩ := exists_unit?_of_alikeFor hc hs hr hcd.1 hunit
        obtain ⟨hd₁, hr₁, -, -⟩ := exists_holds_of_unit? hd hr hunit
        obtain ⟨d₂, r₂, hfound⟩ := (ih hfs hd₁ hr₁ (hnext hunit)).2 ⟨us, hus, rfl⟩
        exact ⟨d₂, r₂, yieldsWith_bind.2 ⟨_, _, _, hunit, yieldsWith_bind.2 ⟨_, _, _, hfound,
          yieldsWith_pure.2 ⟨rfl, rfl, rfl⟩⟩⟩⟩

/-- In another order independent files are searched with the same result, up to the order. -/
theorem exists_occurrencesAmong_of_perm (hfs : fs.Pairwise (FileBuffer.Independent root))
    (hperm : fs.Perm gs) (hc : c.Reads root) (hs : s.Unfailing)
    (h : YieldsWith (occurrencesAmong t within fs) c s ls c' s') :
    ∃ ms d r, YieldsWith (occurrencesAmong t within gs) c s ms d r ∧ ms.Perm ls := by
  have hgs : gs.Pairwise (FileBuffer.Independent root) :=
    hperm.pairwise hfs fun hfg => hfg.symm
  obtain ⟨us, hus, rfl⟩ :=
    (exists_occurrencesAmong_iff hfs hc hs hc hs fun f _ => .refl root f c).1 ⟨c', s', h⟩
  obtain ⟨vs, hvs, hvus⟩ := List.perm_comp_forall₂ hperm.symm hus
  obtain ⟨d, r, hrun⟩ :=
    (exists_occurrencesAmong_iff hgs hc hs hc hs fun f _ => .refl root f c).2 ⟨vs, hvs, rfl⟩
  exact ⟨_, d, r, hrun, hvus.flatMap_right _⟩

end CoreM

/-! ## The whole project -/

/-- A place inside the sketch where `w` has a name of the entity that `n` names in `u`. -/
def CachedUnit.ShowsName (root : FilePath) (u : CachedUnit) (n : Cursor) (w : CachedUnit)
    (q : Location) : Prop :=
  ∃ d ∈ w.unit.cursors, u.IsNameOf n w d ∧ d.location.isUnknown = false ∧
    w.map.toEdited d.location = some q ∧ q.file.isInside root = true

/-- The list has, in order and once each, the places inside the sketch of the entity at a position: those
in the unit of its file and in the units of the other sources and headers. -/
structure AnalysisCore.IsUnion (root : FilePath) (c : AnalysisCore ModelState) (p : EditPosition)
    (files : List FileBuffer) (L : List Location) : Prop where
  increasing : L.Pairwise fun a b => a.compare b = .lt
  inside : ∀ q ∈ L, q.file.isInside root = true
  union : ∃ u l, c.Holds root p.file u ∧ u.map.toAnalyzed p.line p.column = .ok l ∧
    (u.unit.cursorAt l = none → L = []) ∧
    ∀ n, u.unit.cursorAt l = some n → (∀ f ∈ p.searched root files .project, ∃ w, c.Holds root f w) ∧
      ∀ q, q ∈ L ↔ ∃ f ∈ p.searched root files .project, ∃ w, c.Holds root f w ∧
        u.ShowsName root n w q

namespace CoreM

open AnalysisCore

variable {c c' : AnalysisCore ModelState} {s s' : ModelState} {u : CachedUnit} {p : EditPosition}
  {files others : List FileBuffer} {L : List Location}

/-- What is found about the name `n` in the unit `u` is a list of the places of its entity. -/
theorem Found.isUnion {n : Cursor} {l : Location} (h : Found root c p .project files L u n)
    (hl : u.map.toAnalyzed p.line p.column = .ok l) (hcursor : u.unit.cursorAt l = some n) :
    c.IsUnion root p files L := by
  obtain ⟨hukey, hualone⟩ := h.reads.of_holds h.unit
  have hfinds (f : FileBuffer) (q : Location) :
      c.FindsIn root ⟨u.unit.primary n, u.key⟩ (some root) f q ↔
        ∃ w, c.Holds root f w ∧ u.ShowsName root n w q := by
    refine exists_congr fun w => and_congr_right fun hw => ?_
    obtain ⟨hwkey, hwalone⟩ := h.reads.of_holds hw
    exact hualone.mem_occurrences_iff hwalone h.named.mem_cursors
      fun hkey => h.unit.eq_of_key hw (hwkey.symm.trans (hkey.trans hukey))
  have hmem (q : Location) : q ∈ L ↔ ∃ f ∈ p.searched root files .project,
      ∃ w, c.Holds root f w ∧ u.ShowsName root n w q := by
    simp only [← hfinds]
    exact h.mem_iff
  refine ⟨?_, fun q hq => ?_, u, l, h.unit, hl, fun hnone => ?_, fun m hm => ?_⟩
  · obtain ⟨ls, rfl, hnormal, -⟩ := h.listed
    exact Location.pairwise_sortUnique hnormal
  · obtain ⟨-, -, -, -, -, -, -, -, -, hinside⟩ := (hmem q).1 hq
    exact hinside
  · rw [hcursor] at hnone
    cases hnone
  · obtain rfl : n = m := Option.some.inj (hcursor.symm.trans hm)
    exact ⟨h.held, hmem⟩

/-- Without a name at the position there is nothing to find. -/
theorem isUnion_nil {l : Location} (hu : c.Holds root p.file u)
    (hl : u.map.toAnalyzed p.line p.column = .ok l) (hnone : u.unit.cursorAt l = none) :
    c.IsUnion root p files [] := by
  refine ⟨.nil, by simp, u, l, hu, hl, fun _ => rfl, fun n hn => ?_⟩
  rw [hnone] at hn
  cases hn

/-- With independent files the same is found in whatever order they are. -/
theorem exists_occurrences_of_perm (hapart : files.Pairwise (FileBuffer.Apart root))
    (hfiles : (p.others root files).Pairwise (FileBuffer.Independent root))
    (hperm : files.Perm others) (hc : c.Reads root) (hs : s.Unfailing)
    (h : YieldsWith (occurrences p .project files true) c s L c' s') :
    ∃ d r, YieldsWith (occurrences p .project others true) c s L d r := by
  obtain ⟨u, c₁, s₁, t, hunit, ht, hnone⟩ := exists_target?_of_occurrences hc hs h
  cases t with
  | none =>
    obtain ⟨rfl, -, -⟩ := hnone rfl
    exact ⟨_, _, yieldsWith_occurrences_of_no_name hunit ht _ _ _⟩
  | some t =>
    obtain ⟨hc₁, hs₁, hu₁⟩ := holds_of_unit? hc hs hunit
    obtain ⟨l, n, -, hcursor, rfl⟩ := (hc₁.of_holds hu₁).2.target?_eq_some.1 ht
    obtain ⟨ls, hls, rfl⟩ := (yieldsWith_occurrences_iff hunit ht hc₁.rooted).1 h
    obtain ⟨ms, d, r, hms, hsame⟩ :=
      exists_occurrencesAmong_of_perm hfiles (hperm.filter _) hc₁ hs₁ hls
    refine ⟨d, r, (yieldsWith_occurrences_iff hunit ht hc₁.rooted).2 ⟨ms, hms, ?_⟩⟩
    have hsearched : (p.searched root files .project).Pairwise (FileBuffer.Apart root) :=
      pairwise_searched fun _ => hapart
    obtain ⟨hfirst, hothers⟩ := List.pairwise_cons.1 hsearched
    obtain ⟨hc', hstill, -, hfinds⟩ := of_occurrencesAmong hothers hc₁ hs₁ hls
    have hu' := hstill p.file u hfirst hu₁
    have hnormal : ∀ q ∈ u.occurrences ⟨u.unit.primary n, u.key⟩ (some root) ++ ls,
        q.file.IsNormal := by
      intro q hq
      have hn := CachedUnit.isNamed_of_cursorAt hcursor
      rcases List.mem_append.1 hq with hq | hq
      · exact isNormal_of_findsIn hc' hu' hn (hu'.findsIn_iff.2 hq)
      · obtain ⟨f, -, hfound⟩ := (hfinds q).1 hq
        exact isNormal_of_findsIn hc' hu' hn hfound
    exact Location.sortUnique_eq_of_mem_iff hnormal fun q => (hsame.symm.append_left _).mem_iff

/-- If the places of a question are known by path, line and column, it is answered with the list of them
that increases. -/
theorem exists_occurrences_of_places {c : AnalysisCore ModelState} {ts : List (String × Nat × Nat)}
    (h : (EngineM.runFrom ((projectPlaces p files).run c) s).1.toOption.map
      (fun r => r.1.map fun l => (l.file.text, l.line, l.column)) = some ts)
    (hnormal : ∀ t ∈ ts, ((FilePath.mk t.1).normalize ⟨"/"⟩).text = t.1)
    (hL : L.Pairwise fun a b => a.compare b = .lt)
    (hmem : ∀ l, l ∈ ts.map (fun t => (⟨⟨t.1⟩, t.2.1, t.2.2⟩ : Location)) ↔ l ∈ L) :
    ∃ c' s', YieldsWith (occurrences p .project files true) c s L c' s' := by
  obtain ⟨ls, c', s', hrun, rfl⟩ := exists_yieldsWith h
  have hls : ls = (ls.map fun l => (l.file.text, l.line, l.column)).map
      fun t => (⟨⟨t.1⟩, t.2.1, t.2.2⟩ : Location) := by
    rw [List.map_map]
    exact (List.map_id ls).symm
  have hnormal (l : Location) (hl : l ∈ ls) : l.file.IsNormal := by
    have hself := hnormal _ (List.mem_map_of_mem hl)
    have hfile : l.file.normalize ⟨"/"⟩ = l.file := congrArg FilePath.mk hself
    rw [← hfile]
    exact FilePath.isNormal_normalize _ _
  refine ⟨c', s', ?_⟩
  rw [← Location.sortUnique_eq hnormal hL fun l => by rw [← hmem, ← hls]]
  exact yieldsWith_occurrences_of_projectPlaces hrun

/-- The occurrences in a project. While the engine does not fail and can read the texts, the question is
answered for every line that fits its word. What is found is the union of what there is in the file of
the position and in the other sources and headers, each place once and in order. In another order of the
files the same is found, as long as the sketches among the others are displayed differently and what is
hashed to remember them does not collide. -/
theorem occurrences_union (hc : c.Reached (fun _ => True) root)
    (hengine : c.builder.engine = modelEngine) (hs : s.Unfailing)
    (hfiles : files.Pairwise (FileBuffer.Apart root)) :
    (c.CanParseFor s (.occurrences p .project files) →
      (p.line + if (p.file.path.normalize root).kind = .sketchEntry then 1 else 0) < wordLimit →
      Ends (occurrences p .project files true) c s) ∧
    ∀ L c' s', YieldsWith (occurrences p .project files true) c s L c' s' →
      c'.IsUnion root p files L ∧
        (ContentHash.CollisionFree
            ((sketchesOf root (p.others root files)).flatMap (FileBuffer.rememberedBytes root)) →
          FilePath.ToldApart ((sketchesOf root (p.others root files)).map (·.path.normalize root)) →
          ∀ others, files.Perm others →
            ∃ d r, YieldsWith (occurrences p .project others true) c s L d r) := by
  have hreads := hc.reads hengine
  refine ⟨fun hparse hline => ?_, fun L c' s' h => ⟨?_, fun hfree htold others hperm => ?_⟩⟩
  · refine (ends_occurrences_iff hreads true hparse).2 fun m hm => ?_
    exact Nat.lt_of_le_of_lt (Nat.add_le_add_left (lineShift_le_of_usesMap hreads rfl hm) _) hline
  · obtain ⟨u, c₁, s₁, t, hunit, ht, hnone⟩ := exists_target?_of_occurrences hreads hs h
    obtain ⟨hc₁, -, hu₁⟩ := holds_of_unit? hreads hs hunit
    obtain ⟨l, hl, rfl⟩ := (hc₁.of_holds hu₁).2.target?_eq_ok.1 ht
    cases hcursor : u.unit.cursorAt l with
    | some n =>
      exact (found_of_cursorAt (pairwise_searched fun _ => hfiles) hreads hs hunit hl hcursor
        h).isUnion hl hcursor
    | none =>
      rw [hcursor] at hnone
      obtain ⟨rfl, rfl, -⟩ := hnone rfl
      exact isUnion_nil hu₁ hl hcursor
  · refine exists_occurrences_of_perm hfiles ?_ hperm hreads hs h
    exact (hfiles.sublist List.filter_sublist).imp_of_mem
      fun hf hg hapart => FileBuffer.independent_of_toldApart hfree htold hf hg hapart

/-- Two sketches and the source where the name is, whichever sketch comes first. -/
theorem occurrences_union_two_sketches :
    ∃ (p : EditPosition) (a b : FileBuffer) (L : List Location) (c c' d : AnalysisCore ModelState)
      (s r : ModelState), p = ⟨⟨⟨"/s/m.cpp"⟩, "int a;\n"⟩, 1, 5⟩ ∧
      a = ⟨⟨"/s/Blink.ino"⟩, "void f() \x7b\x7d\nint a;\n"⟩ ∧
      b = ⟨⟨"/s/Fade.ino"⟩, "void f() \x7b\x7d\nint a;\n"⟩ ∧
      L = [⟨a.path, 2, 5⟩, ⟨b.path, 2, 5⟩, ⟨p.file.path, 1, 5⟩] ∧
      c = .ofSettings modelEngine (fun _ => []) (fun _ => none) { root := ⟨"/s"⟩ } ∧
      YieldsWith (occurrences p .project [a, b] true) c {} L c' s ∧ c'.IsUnion ⟨"/s"⟩ p [a, b] L ∧
      YieldsWith (occurrences p .project [b, a] true) c {} L d r := by
  generalize hp : EditPosition.mk ⟨⟨"/s/m.cpp"⟩, "int a;\n"⟩ 1 5 = p
  generalize ha : FileBuffer.mk ⟨"/s/Blink.ino"⟩ "void f() \x7b\x7d\nint a;\n" = a
  generalize hb : FileBuffer.mk ⟨"/s/Fade.ino"⟩ "void f() \x7b\x7d\nint a;\n" = b
  generalize hstart : AnalysisCore.ofSettings modelEngine (fun _ => []) (fun _ => none)
    { root := ⟨"/s"⟩ } = start
  have hreached : start.Reached (fun _ => True) ⟨"/s"⟩ := by
    rw [← hstart]
    exact .start modelEngine (fun _ => []) rfl fun _ _ => trivial
  have hapart : [a, b].Pairwise (FileBuffer.Apart ⟨"/s"⟩) := by
    rw [← ha, ← hb]
    unfold FileBuffer.Apart
    decide +kernel
  have hparse : start.CanParseFor {} (.occurrences p .project [a, b]) := by
    rw [← hstart, ← hp, ← ha, ← hb]
    unfold CanParseFor
    decide +kernel
  have hfree : ContentHash.CollisionFree ((sketchesOf ⟨"/s"⟩ (p.others ⟨"/s"⟩ [a, b])).flatMap
      (FileBuffer.rememberedBytes ⟨"/s"⟩)) := by
    rw [← hp, ← ha, ← hb]
    unfold ContentHash.CollisionFree
    decide +kernel
  have htold : FilePath.ToldApart ((sketchesOf ⟨"/s"⟩ (p.others ⟨"/s"⟩ [a, b])).map
      (·.path.normalize ⟨"/s"⟩)) := by
    rw [← hp, ← ha, ← hb]
    exact FilePath.toldApart_of_pairwise (by decide +kernel) (by decide +kernel)
  obtain ⟨c₁, s₁, hfound⟩ : ∃ c' s', YieldsWith (occurrences p .project [a, b] true) start {}
      [⟨a.path, 2, 5⟩, ⟨b.path, 2, 5⟩, ⟨p.file.path, 1, 5⟩] c' s' := by
    have hplaces : (EngineM.runFrom ((projectPlaces p [a, b]).run start) {}).1.toOption.map
        (fun r => r.1.map fun l => (l.file.text, l.line, l.column)) =
          some [("/s/m.cpp", 1, 5), ("/s/Blink.ino", 2, 5), ("/s/Fade.ino", 2, 5)] := by
      rw [← hstart, ← hp, ← ha, ← hb]
      decide +kernel
    refine exists_occurrences_of_places hplaces (by decide +kernel) ?_ fun l => ?_
    · rw [← hp, ← ha, ← hb]
      decide +kernel
    · rw [← hp, ← ha, ← hb]
      simp only [List.map_cons, List.map_nil, List.mem_cons, List.not_mem_nil, or_false]
      grind
  obtain ⟨hends, hlists⟩ := occurrences_union (s := {}) (p := p) hreached (by rw [← hstart]; rfl)
    ⟨fun _ => rfl, rfl⟩ hapart
  obtain ⟨L, c', s, hrun⟩ := hends hparse (by rw [← hp]; decide +kernel)
  obtain ⟨hsame, -⟩ := hrun.unique hfound
  obtain rfl := (Prod.mk.inj hsame).1
  obtain ⟨hunion, hperm⟩ := hlists _ c' s hrun
  obtain ⟨d, r, hagain⟩ := hperm hfree htold [b, a] (.swap b a [])
  exact ⟨p, a, b, _, start, c', d, s, r, rfl, rfl, rfl, rfl, rfl, hrun, hunion, hagain⟩

/-- Two sketches that are displayed alike share what is remembered: the place of the include in the first
one is used for the second one. A line above the include of a sketch is shown only if the include took the
place of a blank line, so it depends on the order of the sketches what is found. -/
theorem occurrences_depend_on_order :
    ∃ (p : EditPosition) (a b : FileBuffer) (L : List Location) (c c' d : AnalysisCore ModelState)
      (s r : ModelState), p = ⟨⟨⟨"/s/m.cpp"⟩, "int a;\n"⟩, 1, 5⟩ ∧
      a = ⟨⟨"/s/a\\b.ino"⟩, "int a;\n\n\nvoid f() \x7b\n\x7d\n"⟩ ∧
      b = ⟨⟨"/s/a/b.ino"⟩, "int a;\nvoid f() \x7b\n\n\x7d\n"⟩ ∧
      L = [⟨a.path, 1, 5⟩, ⟨p.file.path, 1, 5⟩] ∧
      c = .ofSettings modelEngine (fun _ => []) (fun _ => none) { root := ⟨"/s"⟩ } ∧
      c.Reached (fun _ => True) ⟨"/s"⟩ ∧ [a, b].Pairwise (FileBuffer.Apart ⟨"/s"⟩) ∧
      ContentHash.CollisionFree ([p.file, a, b].flatMap fun f =>
        ContentHash.textBytes f.code :: f.rememberedBytes ⟨"/s"⟩) ∧
      YieldsWith (occurrences p .project [a, b] true) c {} (⟨b.path, 1, 5⟩ :: L) c' s ∧
      YieldsWith (occurrences p .project [b, a] true) c {} L d r := by
  generalize hp : EditPosition.mk ⟨⟨"/s/m.cpp"⟩, "int a;\n"⟩ 1 5 = p
  generalize ha : FileBuffer.mk ⟨"/s/a\\b.ino"⟩ "int a;\n\n\nvoid f() \x7b\n\x7d\n" = a
  generalize hb : FileBuffer.mk ⟨"/s/a/b.ino"⟩ "int a;\nvoid f() \x7b\n\n\x7d\n" = b
  generalize hstart : AnalysisCore.ofSettings modelEngine (fun _ => []) (fun _ => none)
    { root := ⟨"/s"⟩ } = start
  have hreached : start.Reached (fun _ => True) ⟨"/s"⟩ := by
    rw [← hstart]
    exact .start modelEngine (fun _ => []) rfl fun _ _ => trivial
  have hapart : [a, b].Pairwise (FileBuffer.Apart ⟨"/s"⟩) := by
    rw [← ha, ← hb]
    unfold FileBuffer.Apart
    decide +kernel
  have hfree : ContentHash.CollisionFree ([p.file, a, b].flatMap fun f =>
      ContentHash.textBytes f.code :: f.rememberedBytes ⟨"/s"⟩) := by
    rw [← hp, ← ha, ← hb]
    unfold ContentHash.CollisionFree
    decide +kernel
  have hplaces : (EngineM.runFrom ((projectPlaces p [a, b]).run start) {}).1.toOption.map
      (fun r => r.1.map fun l => (l.file.text, l.line, l.column)) =
        some [("/s/m.cpp", 1, 5), ("/s/a\\b.ino", 1, 5), ("/s/a/b.ino", 1, 5)] := by
    rw [← hstart, ← hp, ← ha, ← hb]
    decide +kernel
  have hplaces' : (EngineM.runFrom ((projectPlaces p [b, a]).run start) {}).1.toOption.map
      (fun r => r.1.map fun l => (l.file.text, l.line, l.column)) =
        some [("/s/m.cpp", 1, 5), ("/s/a\\b.ino", 1, 5)] := by
    rw [← hstart, ← hp, ← ha, ← hb]
    decide +kernel
  obtain ⟨c', s, hrun⟩ : ∃ c' s', YieldsWith (occurrences p .project [a, b] true) start {}
      [⟨b.path, 1, 5⟩, ⟨a.path, 1, 5⟩, ⟨p.file.path, 1, 5⟩] c' s' := by
    refine exists_occurrences_of_places hplaces (by decide +kernel) ?_ fun l => ?_
    · rw [← hp, ← ha, ← hb]
      decide +kernel
    · rw [← hp, ← ha, ← hb]
      simp only [List.map_cons, List.map_nil, List.mem_cons, List.not_mem_nil, or_false]
      grind
  obtain ⟨d, r, hrun'⟩ : ∃ c' s', YieldsWith (occurrences p .project [b, a] true) start {}
      [⟨a.path, 1, 5⟩, ⟨p.file.path, 1, 5⟩] c' s' := by
    refine exists_occurrences_of_places hplaces' (by decide +kernel) ?_ fun l => ?_
    · rw [← hp, ← ha]
      decide +kernel
    · rw [← hp, ← ha]
      simp only [List.map_cons, List.map_nil, List.mem_cons, List.not_mem_nil, or_false]
      grind
  exact ⟨p, a, b, _, start, c', d, s, r, rfl, rfl, rfl, rfl, rfl, hreached, hapart, hfree, hrun, hrun'⟩

end CoreM

end SketchSense
