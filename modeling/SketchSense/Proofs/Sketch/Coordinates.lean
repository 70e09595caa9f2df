import Mathlib
import SketchSense.Proofs.Model.Scan
import SketchSense.Proofs.Sketch.Placement

/-!
# Coordinates of a scanned sketch

A sketch whose layout is not known is scanned, and what the scan finds fixes its sources. From there
on it is known where the include goes, and so on which texts the coordinates follow the text.

* `attachedSite?` and `Sources.ofScan`, the include and the sources that a scan leads to;
* `Transformer.yields_sources_ofScan`, that a fresh transformer makes them;
* `coordinatesAgree_sources_iff`, when their coordinates follow the text.
-/

namespace SketchSense

/-! ## Sources after a scan -/

/-- The place of the include above some definitions, if any of them has a prototype. -/
def attachedSite? (path : FilePath) (code : String) (ds : List Definition) : Option IncludeSite :=
  if prototypeHeader path ds = "" then none
  else includeSite? path (Text.splitLines code.toList) ds

/-- The sources of a sketch whose scan finds some definitions. -/
def Sources.ofScan (path : FilePath) (code : String) (ds : List Definition) : Sources :=
  match attachedSite? path code ds with
  | none => .renamed path code
  | some i => .withInclude path code (prototypeHeader path ds) i

variable {σ : Type} {e : Engine σ} {path : FilePath} {code : String} {args : List String}

/-- A header that is not empty has a place to be included. -/
theorem includeSite?_of_prototypeHeader (ls : List (List Char)) {ds : List Definition}
    (h : prototypeHeader path ds ≠ "") : ∃ i, includeSite? path ls ds = some i := by
  rw [← Option.ne_none_iff_exists']
  intro hnone
  rw [includeSite?_eq_none.1 hnone] at h
  exact h rfl

/-- The header of a scan that fails is the one of a scan that finds nothing. -/
theorem getD_map_prototypeHeader (path : FilePath) (found : Option (List Definition)) :
    (found.map (prototypeHeader path)).getD "" = prototypeHeader path (found.getD []) := by
  cases found with
  | none => rfl
  | some ds => rfl

/-- A transformer that remembers nothing scans the sketch. -/
theorem Transformer.yields_sources_ofScan {s s' : σ} {found : Option (List Definition)}
    (hkind : path.kind = .sketchEntry) (hscan : Yields (definitions? e path code args) s found s') :
    ∃ t, Yields (({} : Transformer).sources e path code args) s
      (.ofScan path code (found.getD []), t) s' := by
  have hheader := getD_map_prototypeHeader path found
  by_cases hempty : prototypeHeader path (found.getD []) = ""
  · refine ⟨_, (yields_sources hkind).2 (.inr ⟨Table.get?_empty _, found, s', hscan,
      yields_withHeader.2 (.inl ⟨hheader.trans hempty, ?_, rfl, rfl⟩)⟩)⟩
    simp [Sources.ofScan, attachedSite?, hempty]
  · obtain ⟨i, hi⟩ := includeSite?_of_prototypeHeader (Text.splitLines code.toList) hempty
    refine ⟨_, (yields_sources hkind).2 (.inr ⟨Table.get?_empty _, found, s', hscan,
      yields_withHeader.2 (.inr ⟨hheader.trans_ne hempty, _, _,
        InsertionMemo.yields_replayOrInject.2 (.inr ⟨rfl, _, yields_pure.2 ⟨rfl, rfl⟩, Prod.eta _⟩),
        ?_, rfl⟩)⟩)⟩
    rw [InsertionMemo.inject_eq, hheader]
    simp [Sources.ofScan, attachedSite?, hempty, hi, Sources.withInclude]

/-! ## Agreement -/

/-- The include stands above a line of the text, in place of one line or none. -/
theorem attachedSite?_eq_some {ds : List Definition} {i : IncludeSite}
    (hi : attachedSite? path code ds = some i)
    (hlines : ∀ d ∈ ds, 1 ≤ d.line ∧ d.line ≤ Text.lineCount code.toList) :
    i.gone ≤ 1 ∧ i.above + i.gone < Text.lineCount code.toList := by
  unfold attachedSite? at hi
  split at hi
  · cases hi
  obtain ⟨first, hfirst, habove, -, hgone⟩ := includeSite?_eq_some hi
  obtain ⟨d, hd, rfl⟩ := List.mem_map.1 (List.min?_mem hfirst)
  obtain ⟨hpos, hle⟩ := hlines d hd
  rcases hgone with ⟨hzero, -⟩ | ⟨hone, hlt, -⟩
  · omega
  · omega

/-- The coordinates of a scanned sketch follow its text exactly if its include is even. -/
theorem coordinatesAgree_ofScan_iff {ds : List Definition} (hkind : path.kind = .sketchEntry)
    (hlines : ∀ d ∈ ds, 1 ≤ d.line ∧ d.line ≤ Text.lineCount code.toList) :
    CoordinatesAgree path code (.ofScan path code ds) (attachedSite? path code ds) ↔
      (∀ i ∈ attachedSite? path code ds, i.IsEven) ∧
        Text.lineCount (Sources.ofScan path code ds).main.code.toList < wordLimit := by
  unfold Sources.ofScan
  cases hsite : attachedSite? path code ds with
  | none =>
    rw [coordinatesAgree_renamed_iff hkind]
    simp [Sources.renamed]
  | some i =>
    obtain ⟨hgone, hbelow⟩ := attachedSite?_eq_some hsite hlines
    rw [coordinatesAgree_withInclude_iff hkind hgone hbelow]
    simp

open Model

variable {s s' : ModelState} {found : Option (List Definition)}

/-- Whatever the model engine finds in a sketch, the coordinates of its sources follow the text
exactly if nothing is included or the include is one line that replaces a blank one or comes first,
and if the lines can be counted. -/
theorem coordinatesAgree_sources_iff (hkind : path.kind = .sketchEntry)
    (hscan : Yields (definitions? modelEngine path code args) s found s') :
    ∃ made t, Yields (({} : Transformer).sources modelEngine path code args) s (made, t) s' ∧
      (CoordinatesAgree path code made (attachedSite? path code (found.getD [])) ↔
        (∀ i ∈ attachedSite? path code (found.getD []), i.IsEven) ∧
          Text.lineCount made.main.code.toList < wordLimit) := by
  obtain ⟨t, hmade⟩ := Transformer.yields_sources_ofScan hkind hscan
  refine ⟨_, t, hmade, coordinatesAgree_ofScan_iff hkind ?_⟩
  rcases definitions?_eq hscan with rfl | rfl
  · simp
  · exact line_of_mem_definedIn? code

/-- A declaration above a blank line keeps its coordinates. -/
theorem coordinates_agree_over_blank_line :
    ∃ made t s', Yields (({} : Transformer).sources modelEngine ⟨"/s/Blink.ino"⟩
        "int a;\n\nvoid setup() \x7b a; \x7d\n" []) {} (made, t) s' ∧
      CoordinatesAgree ⟨"/s/Blink.ino"⟩ "int a;\n\nvoid setup() \x7b a; \x7d\n" made
        (some ⟨1, 1, "#include \"Blink.ino.hpp\"".toList⟩) := by
  have hkind : (FilePath.mk "/s/Blink.ino").kind = .sketchEntry := by decide
  have hscan := yields_definitions? (s := {}) ⟨"/s/Blink.ino"⟩
    "int a;\n\nvoid setup() \x7b a; \x7d\n" [] (by cbv) rfl
  have hfound : definedIn? "int a;\n\nvoid setup() \x7b a; \x7d\n" =
      some [⟨"setup", 3, "void setup()"⟩] := by cbv
  rw [hfound] at hscan
  obtain ⟨made, t, hmade, hagree⟩ := coordinatesAgree_sources_iff hkind hscan
  obtain ⟨_, hofScan⟩ := Transformer.yields_sources_ofScan hkind hscan
  obtain ⟨rfl, -⟩ := Prod.mk.inj (hmade.unique hofScan).1
  refine ⟨_, t, _, hmade, hagree.2 ⟨?_, by decide⟩⟩
  intro i hi
  cases hi
  exact ⟨by decide, .inl rfl⟩

/-- A declaration right above the first function does not: the engine is asked for the include. -/
theorem coordinates_disagree_above_include :
    ∃ made t s', Yields (({} : Transformer).sources modelEngine ⟨"/s/Blink.ino"⟩
        "int a;\nvoid setup() \x7b a; \x7d\n" []) {} (made, t) s' ∧
      made.map.toAnalyzed 1 5 = .ok ⟨⟨"/s/Blink.ino.cpp"⟩, 2, 5⟩ ∧
      (Text.splitLines made.main.code.toList)[0]? = some "int a;".toList ∧
      (Text.splitLines made.main.code.toList)[1]? = some "#include \"Blink.ino.hpp\"".toList ∧
      ¬ CoordinatesAgree ⟨"/s/Blink.ino"⟩ "int a;\nvoid setup() \x7b a; \x7d\n" made
        (some ⟨1, 0, "#include \"Blink.ino.hpp\"".toList⟩) := by
  have hscan := yields_definitions? (s := {}) ⟨"/s/Blink.ino"⟩
    "int a;\nvoid setup() \x7b a; \x7d\n" [] (by cbv) rfl
  have hfound : definedIn? "int a;\nvoid setup() \x7b a; \x7d\n" =
      some [⟨"setup", 2, "void setup()"⟩] := by cbv
  rw [hfound] at hscan
  obtain ⟨t, hmade⟩ := Transformer.yields_sources_ofScan (by decide) hscan
  refine ⟨_, t, _, hmade, rfl, rfl, rfl, ?_⟩
  intro hagree
  -- the include is a line of its own, and `int a;` stands above it
  have heven := isEven_of_coordinatesAgree (by decide) (by decide) hagree
  rcases heven.2 with h | h
  · cases h
  · cases h

end SketchSense
