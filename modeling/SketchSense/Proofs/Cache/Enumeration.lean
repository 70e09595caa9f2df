import SketchSense.Model.Engine
import SketchSense.Proofs.Cache.Presenting
import SketchSense.Proofs.Diagnostic.Merging
import SketchSense.Proofs.Enumeration

/-!
# Reports in any order of the units

The units of a project are enumerated in an order that nothing fixes, and their diagnostics are merged
in that order. Two diagnostics that read the same may differ in their notes, which the order of reports
does not look at; then the unit that comes first has its way.

* `ProjectUnit.shown` and `ProjectUnit.Agree`, what a unit shows at a place and when units agree;
* `ProjectCache.report_free_of_order_iff`, when the report of a pass does not depend on the order.
-/

namespace SketchSense

variable {σ : Type}

namespace ProjectUnit

/-- What a unit shows at the place of a diagnostic in the order of reports: of its diagnostics that are
not told apart from that one the first of every text and severity. What reads like a diagnostic of
any unit that stands before it does not count. -/
def shown (units : List ProjectUnit) (u : ProjectUnit) (d : Diagnostic) : List Diagnostic :=
  shownAt Diagnostic.compareFull (fun e => (e.repeatKey, e.severity)) (units.flatMap (·.diagnostics))
    u.diagnostics d

/-- At no place two units show different diagnostics. One of them may show less, and none is less. -/
def Agree (units : List ProjectUnit) : Prop :=
  ∀ u ∈ units, ∀ v ∈ units, ∀ d, Comparable (u.shown units d) (v.shown units d)

theorem agree_singleton (u : ProjectUnit) : Agree [u] := by
  intro v hv w hw d
  rw [List.mem_singleton.1 hv, List.mem_singleton.1 hw]
  exact .inl List.prefix_rfl

end ProjectUnit

theorem mergedDiagnostics_eq (units : List ProjectUnit) : mergedDiagnostics units =
    merged Diagnostic.compareFull (fun d => (d.repeatKey, d.severity)) (·.diagnostics) units :=
  rfl

namespace ProjectCache

/-- A pass reports what the units report that it leaves. -/
theorem report_eq {c c' : ProjectCache} {files : List FileBuffer} {e : Enumeration ProjectUnit}
    {b b' : UnitBuilder σ} {s s' : σ} {ds : List Diagnostic}
    (h : YieldsWith (c.refresh files e) b s (ds, c') b' s') :
    ds = mergedDiagnostics (c'.units.valuesIn e) := by
  unfold refresh at h
  simp only [yieldsWith_bind, yieldsWith_get, yieldsWith_pure, Prod.mk.injEq] at h
  obtain ⟨_, _, _, -, c₁, _, _, -, ⟨rfl, rfl⟩, -, -⟩ := h
  rfl

/-- Whatever was kept before and whatever the engine reports, the report of a pass does not depend on
the order in which its units are enumerated exactly if the units agree. -/
theorem report_free_of_order_iff {c c' : ProjectCache} {files : List FileBuffer}
    {b b' : UnitBuilder σ} {s s' : σ} {ds : List Diagnostic}
    (h : YieldsWith (c.refresh files) b s (ds, c') b' s') :
    (∀ units : List ProjectUnit, units.Perm c'.units.values → mergedDiagnostics units = ds) ↔
      ProjectUnit.Agree c'.units.values := by
  rw [report_eq h, Table.valuesIn_kept]
  simp only [mergedDiagnostics_eq]
  exact forall_perm_merged_iff (fun u : ProjectUnit => u.diagnostics) c'.units.values

section Runs

open Model

/-- A pass over a sketch with one source, in which the engine reports an error. -/
theorem report_of_one_source :
    ∃ ds c' b' s', YieldsWith (({} : ProjectCache).refresh [⟨⟨"/s/b.cpp"⟩, "int b;\n"⟩])
        { engine := modelEngine, provider := fun _ => [], profile := {}, root := ⟨"/s"⟩ }
        { extraDiagnostics := [.at .error ⟨⟨"/s/lib.h"⟩, 1, 1⟩ "x"] } (ds, c') b' s' ∧
      ds.map (·.message) = ["x"] ∧
      ∀ units : List ProjectUnit, units.Perm c'.units.values → mergedDiagnostics units = ds := by
  have hanswer : (EngineM.runFrom ((({} : ProjectCache).refresh [⟨⟨"/s/b.cpp"⟩, "int b;\n"⟩]).run
      { engine := modelEngine, provider := fun _ => [], profile := {}, root := ⟨"/s"⟩ })
        { extraDiagnostics := [.at .error ⟨⟨"/s/lib.h"⟩, 1, 1⟩ "x"] }).1.toOption.map
          (fun r => (r.1.1.map (·.message), r.1.2.units.values.length)) = some (["x"], 1) := by
    decide +kernel
  obtain ⟨⟨ds, c'⟩, b', s', hrun, hfound⟩ := exists_yieldsWith hanswer
  obtain ⟨hmessages, hlength⟩ := Prod.mk.inj hfound
  obtain ⟨u, hu⟩ := List.length_eq_one_iff.1 hlength
  refine ⟨ds, c', b', s', hrun, hmessages, (report_free_of_order_iff hrun).2 ?_⟩
  rw [show c'.units.values = [u] from hu]
  exact ProjectUnit.agree_singleton u

/-- Of two diagnostics that read the same and are not told apart the first is reported. -/
theorem sortAndDedup_of_repeat {d e : Diagnostic} (hkey : d.repeatKey = e.repeatKey)
    (hseverity : d.severity = e.severity) (hcompare : d.compareFull e = .eq) :
    Diagnostic.sortAndDedup [d, e] = [d] := by
  have hsorted : sortBy Diagnostic.compareFull [d, e] = [d, e] := by
    apply List.mergeSort_of_pairwise
    simp [hcompare]
  unfold Diagnostic.sortAndDedup
  rw [hsorted]
  simp [keepFirst, keepFirstAfter, hkey, hseverity]

/-- All of a diagnostic that the order of reports looks at. -/
structure Reading where
  file : String
  line : Nat
  column : Nat
  severity : Severity
  message : String
  deriving DecidableEq

/-- What a diagnostic reads, and the lines of its notes. -/
def readingAndNotes (d : Diagnostic) : Reading × List Nat :=
  (⟨d.location.file.text, d.location.line, d.location.column, d.severity, d.message⟩,
    d.children.map (·.location.line))

/-- If two units report one diagnostic each and the two read the same, the first unit has its way. -/
theorem noteLines_of_same_reading {u v : ProjectUnit} {d e : Diagnostic} (hu : u.diagnostics = [d])
    (hv : v.diagnostics = [e]) (h : (readingAndNotes d).1 = (readingAndNotes e).1) :
    (mergedDiagnostics [u, v]).map (readingAndNotes · |>.2) = [(readingAndNotes d).2] := by
  have hreport : Diagnostic.sortAndDedup [d, e] = [d] := by
    obtain ⟨⟨⟨file⟩, line, column⟩, severity, message, notes⟩ := d
    obtain ⟨⟨⟨file'⟩, line', column'⟩, severity', message', notes'⟩ := e
    cases h
    -- the order of reports does not look at notes
    exact sortAndDedup_of_repeat rfl rfl (show Diagnostic.compareFull
      ⟨⟨⟨file⟩, line, column⟩, severity, message, notes⟩
      ⟨⟨⟨file⟩, line, column⟩, severity, message, notes⟩ = .eq from Std.ReflCmp.compare_self)
  unfold mergedDiagnostics
  simp only [List.flatMap_cons, List.flatMap_nil, List.append_nil, hu, hv, List.singleton_append, hreport,
    List.map_cons, List.map_nil]

/-- Two such units, and the notes they report in both orders. -/
theorem exists_of_same_reading {units : List ProjectUnit}
    {reading : Reading} {notes notes' : List Nat}
    (h : units.map (fun u => u.diagnostics.map readingAndNotes) =
      [[(reading, notes)], [(reading, notes')]]) :
    ∃ u v, units = [u, v] ∧
      (mergedDiagnostics [u, v]).map (readingAndNotes · |>.2) = [notes] ∧
      (mergedDiagnostics [v, u]).map (readingAndNotes · |>.2) = [notes'] := by
  obtain ⟨u, rest, rfl, hu, hrest⟩ := List.map_eq_cons_iff.1 h
  obtain ⟨v, rfl, hv⟩ := List.map_eq_singleton_iff.1 hrest
  obtain ⟨d, hd, hreading⟩ := List.map_eq_singleton_iff.1 hu
  obtain ⟨e, he, hreading'⟩ := List.map_eq_singleton_iff.1 hv
  refine ⟨u, v, rfl, ?_, ?_⟩
  · rw [noteLines_of_same_reading hd he (by rw [hreading, hreading']), hreading]
  · rw [noteLines_of_same_reading he hd (by rw [hreading, hreading']), hreading']

/-- An error in a library with a note in a sketch. -/
def errorWithNote : RawDiagnostic :=
  { RawDiagnostic.at .error ⟨⟨"/s/lib.h"⟩, 1, 1⟩ "x" with
    children := [.at .note ⟨⟨"/s/A.ino.cpp"⟩, 5, 1⟩ "here"] }

/-- The unit of the sketch, in which a line was put in, shows the note a line above where the unit of
the source shows it. So the report depends on which of them comes first. -/
theorem report_depends_on_order :
    ∃ ds c' b' s', YieldsWith (({} : ProjectCache).refresh
          [⟨⟨"/s/A.ino"⟩, "void f() \x7b\x7d\n"⟩, ⟨⟨"/s/b.cpp"⟩, "int b;\n"⟩])
        { engine := modelEngine, provider := fun _ => [], profile := {}, root := ⟨"/s"⟩ }
        { extraDiagnostics := [errorWithNote] } (ds, c') b' s' ∧
      ∃ units : List ProjectUnit, units.Perm c'.units.values ∧ mergedDiagnostics units ≠ ds := by
  have hanswer : (EngineM.runFrom ((({} : ProjectCache).refresh
        [⟨⟨"/s/A.ino"⟩, "void f() \x7b\x7d\n"⟩, ⟨⟨"/s/b.cpp"⟩, "int b;\n"⟩]).run
      { engine := modelEngine, provider := fun _ => [], profile := {}, root := ⟨"/s"⟩ })
        { extraDiagnostics := [errorWithNote] }).1.toOption.map
          (fun r => r.1.2.units.values.map fun u => u.diagnostics.map readingAndNotes) =
      some [[(⟨"/s/lib.h", 1, 1, .error, "x"⟩, [4])], [(⟨"/s/lib.h", 1, 1, .error, "x"⟩, [5])]] := by
    decide +kernel
  obtain ⟨⟨ds, c'⟩, b', s', hrun, hfound⟩ := exists_yieldsWith hanswer
  obtain ⟨u, v, hunits, hnotes, hnotes'⟩ := exists_of_same_reading hfound
  refine ⟨ds, c', b', s', hrun, [v, u], ?_, fun heq => ?_⟩
  · rw [show c'.units.values = [u, v] from hunits]
    exact .swap u v []
  · rw [heq, report_eq hrun, Table.valuesIn_kept, show c'.units.values = [u, v] from hunits, hnotes]
      at hnotes'
    cases hnotes'

end Runs

end ProjectCache

end SketchSense
