import SketchSense.Model.Engine
import SketchSense.Proofs.Analysis.Reached
import SketchSense.Proofs.Diagnostic.Merging
import SketchSense.Proofs.Diagnostic.Scoping

/-!
# Reports inside the sketch

What is reported for a file is inside the root of the sketch: the engine's messages are collected for
it, and the failure to parse a file is reported only if the file is in it. A project does not look
where a file is that it cannot parse. So what it reports is inside the root exactly if every such file
is, or else if its failure is left out for a diagnostic that reads the same.

* `Diagnostic.Hides`, with `not_hides_of_mem_sortAndDedup`;
* `ProjectCache.FailuresInside`, with `ProjectCache.Presenting.forall_isInside_iff`;
* `AnalysisCore.Reached.isInside_of_diagnostics`, what holds of every analysis that is reached.
-/

namespace SketchSense

variable {σ : Type} {root : FilePath}

/-! ## What a report leaves out -/

namespace Diagnostic

/-- `d` reads like `e` and stands before it, so that a report with `d` leaves `e` out. -/
def Hides (d e : Diagnostic) : Prop :=
  d.repeatKey = e.repeatKey ∧ d.severity = e.severity ∧ compareFull d e = .lt

variable {ds : List Diagnostic} {d e : Diagnostic}

/-- What is reported was there, and nothing hid it. -/
theorem not_hides_of_mem_sortAndDedup (h : d ∈ sortAndDedup ds) :
    d ∈ ds ∧ ∀ e ∈ ds, ¬ e.Hides d := by
  refine ⟨(sortBy_perm _ _).mem_iff.1 (mem_of_mem_keepFirst h), ?_⟩
  rintro e he ⟨hkey, hseverity, hlt⟩
  have hle := isLE_of_find?_sortBy (find?_of_mem_keepFirst h) he (by rw [hkey, hseverity, BEq.rfl])
  have hswap : compareFull d e = (compareFull e d).swap := Std.OrientedCmp.eq_swap
  rw [hswap, hlt] at hle
  cases hle

/-- Diagnostics that are not told apart by the full order are in the same file. -/
theorem file_beq_of_compareFull (h : compareFull d e = .eq) :
    (d.location.file == e.location.file) = true := by
  unfold compareFull comparePosition Location.compare at h
  simp only [Ordering.then_eq_eq] at h
  exact FilePath.beq_iff.2 (Std.LawfulEqCmp.eq_of_compare h.1.2.1)

end Diagnostic

/-! ## Projects -/

namespace ProjectCache

/-- Every file without a unit is inside `root`, or its failure is hidden by a diagnostic of a file
inside `root`. -/
def FailuresInside (root : FilePath) (c : ProjectCache) : Prop :=
  ∀ e ∈ c.units.entries, e.2.unit = none → e.1.isInside root = true ∨
    ∃ d ∈ c.units.values.flatMap (·.diagnostics),
      d.location.file.isInside root = true ∧ d.Hides (.parseFailureIn e.1)

variable {K : FilePath → Prop} {c : ProjectCache}

/-- A diagnostic of a project is inside the root, or it is the failure of a file. -/
theorem Presenting.isInside_or_failure (hK : ∀ k, K k → k.IsNormal) (hc : c.Presenting K root)
    {d : Diagnostic} (hd : d ∈ c.units.values.flatMap (·.diagnostics)) :
    d.location.file.isInside root = true ∨
      ∃ e ∈ c.units.entries, e.2.unit = none ∧ d = .parseFailureIn e.1 := by
  obtain ⟨p, hp, hd⟩ := List.mem_flatMap.1 hd
  obtain ⟨e, he, rfl⟩ := List.mem_map.1 hp
  obtain ⟨-, hunit, hfailure⟩ := hc e he
  cases hu : e.2.unit with
  | some u =>
    obtain ⟨hpresents, raw, hraw⟩ := hunit u hu
    rw [hraw] at hd
    exact .inl (hpresents.isInside_of_mem_collect hK hd)
  | none =>
    rw [hfailure hu, List.mem_singleton] at hd
    exact .inr ⟨e, he, hu, hd⟩

/-- A project reports nothing outside the root exactly if no failure is there that shows. -/
theorem Presenting.forall_isInside_iff (hK : ∀ k, K k → k.IsNormal) (hc : c.Presenting K root)
    (o : Enumeration ProjectUnit) :
    (∀ d ∈ mergedDiagnostics (c.units.valuesIn o), d.location.file.isInside root = true) ↔
      c.FailuresInside root := by
  have hlisted {d : Diagnostic} : d ∈ (c.units.valuesIn o).flatMap (·.diagnostics) ↔
      d ∈ c.units.values.flatMap (·.diagnostics) :=
    ((c.units.valuesIn_perm o).flatMap_right _).mem_iff
  constructor
  · intro hall e he hnone
    have hmem : Diagnostic.parseFailureIn e.1 ∈ (c.units.valuesIn o).flatMap (·.diagnostics) := by
      refine hlisted.2 (List.mem_flatMap.2 ⟨e.2, List.mem_map_of_mem he, ?_⟩)
      rw [(hc e he).2.failure hnone]
      exact List.mem_singleton_self _
    obtain ⟨d, hreported, hd, hkey, hseverity, hle⟩ := Diagnostic.exists_mem_sortAndDedup hmem
    have hinside := hall d hreported
    -- what is reported instead is the failure itself, or it stands before it
    cases hcompare : Diagnostic.compareFull d (.parseFailureIn e.1) with
    | lt => exact .inr ⟨d, hlisted.1 hd, hinside, hkey, hseverity, hcompare⟩
    | eq =>
      rw [FilePath.isInside_eq_of_beq (Diagnostic.file_beq_of_compareFull hcompare)] at hinside
      exact .inl hinside
    | gt =>
      rw [hcompare] at hle
      cases hle
  · intro hinside d hd
    obtain ⟨hmem, hshown⟩ := Diagnostic.not_hides_of_mem_sortAndDedup hd
    rcases hc.isInside_or_failure hK (hlisted.1 hmem) with hd | ⟨e, he, hnone, rfl⟩
    · exact hd
    · rcases hinside e he hnone with hfile | ⟨d', hd', -, hhides⟩
      · exact hfile
      · exact absurd hhides (hshown d' (hlisted.2 hd'))

end ProjectCache

/-! ## Reports of an analysis -/

namespace CoreM

theorem Reported.isInside {P : FilePath → Prop} {ds : List Diagnostic} (h : Reported P root ds) :
    ∀ d ∈ ds, d.location.file.isInside root = true := by
  intro d hd
  cases h with
  | collected hu raw => exact hu.isInside_of_mem_collect (fun _ => IsKeyOf.isNormal) hd
  | failure hkey hinside =>
    rw [List.mem_singleton.1 hd]
    exact hinside
  | nothing => exact absurd hd List.not_mem_nil

end CoreM

namespace AnalysisCore.Reached

open Model

variable {c : AnalysisCore σ}

/-- Whatever happened to an analysis before, and whatever the engine does, all that is reported for a
file is inside the root of the sketch; and all that is reported for a project is, exactly if every
file that cannot be parsed is inside the root or its failure is hidden. -/
theorem isInside_of_diagnostics (hc : c.Reached (fun _ => True) root) (s : σ) :
    (∀ file pass c' s', YieldsWith (CoreM.diagnostics file) c s pass c' s' →
      ∀ d ∈ pass.diagnostics, d.location.file.isInside root = true) ∧
    (∀ files e pass c' s', YieldsWith (CoreM.projectDiagnostics files e) c s pass c' s' →
      ((∀ d ∈ pass.diagnostics, d.location.file.isInside root = true) ↔
        c'.project.FailuresInside root)) := by
  have hc := hc.presenting
  constructor
  · intro file pass c' s' hrun
    exact (CoreM.keeps_diagnostics trivial hrun hc).2.isInside
  · intro files e pass c' s' hrun
    obtain ⟨hc', hreported⟩ := CoreM.yieldsWith_projectDiagnostics (fun _ _ => trivial) hc hrun
    rw [hreported]
    exact hc'.project.forall_isInside_iff (fun _ => IsKeyOf.isNormal) e

/-- An analysis of the sketch in `/s` about which nothing is kept. -/
def startInS : AnalysisCore ModelState :=
  .ofSettings modelEngine (fun _ => []) (fun _ => none) { root := ⟨"/s"⟩ }

theorem reached_startInS : startInS.Reached (fun _ => True) ⟨"/s"⟩ :=
  .start modelEngine _ rfl fun _ _ => trivial

/-- The failure to parse a source of the sketch is reported inside it. -/
theorem isInside_of_failing_source :
    ∃ pass c' s', YieldsWith (CoreM.projectDiagnostics [⟨⟨"/s/lib/a.cpp"⟩, "int a;\n"⟩]) startInS
        { failsOn := fun _ => true } pass c' s' ∧
      pass.diagnostics.map (·.message) = ["Failed to parse translation unit (/s/lib/a.cpp)"] ∧
      ∀ d ∈ pass.diagnostics, d.location.file.isInside ⟨"/s"⟩ = true := by
  have hanswer : (EngineM.runFrom ((CoreM.projectDiagnostics [⟨⟨"/s/lib/a.cpp"⟩, "int a;\n"⟩]).run
      startInS) { failsOn := fun _ => true }).1.toOption.map
        (fun r => (r.1.diagnostics.map (·.message), r.2.project.units.keys.map (·.text))) =
      some (["Failed to parse translation unit (/s/lib/a.cpp)"], ["/s/lib/a.cpp"]) := by
    decide +kernel
  obtain ⟨pass, c', s', hrun, hfound⟩ := exists_yieldsWith hanswer
  obtain ⟨hmessages, hkeys⟩ := Prod.mk.inj hfound
  refine ⟨pass, c', s', hrun, hmessages,
    ((isInside_of_diagnostics reached_startInS _).2 _ _ _ _ _ hrun).2 fun e he _ => .inl ?_⟩
  have hkey : e.1.text ∈ c'.project.units.keys.map (·.text) :=
    List.mem_map_of_mem (List.mem_map_of_mem he)
  rw [hkeys, List.mem_singleton] at hkey
  rw [show e.1 = ⟨"/s/lib/a.cpp"⟩ from congrArg FilePath.mk hkey]
  decide

/-- The failure to parse an open source that is not in the sketch is reported outside it. -/
theorem not_isInside_of_failing_source :
    ∃ pass c' s', YieldsWith (CoreM.projectDiagnostics [⟨⟨"/t/a.cpp"⟩, "int a;\n"⟩]) startInS
        { failsOn := fun _ => true } pass c' s' ∧
      ∃ d ∈ pass.diagnostics, d.location.file.isInside ⟨"/s"⟩ = false := by
  have hanswer : (EngineM.runFrom ((CoreM.projectDiagnostics [⟨⟨"/t/a.cpp"⟩, "int a;\n"⟩]).run
      startInS) { failsOn := fun _ => true }).1.toOption.map
        (fun r => r.1.diagnostics.any fun d => !d.location.file.isInside ⟨"/s"⟩) = some true := by
    decide +kernel
  obtain ⟨pass, c', s', hrun, hfound⟩ := exists_yieldsWith hanswer
  obtain ⟨d, hd, houtside⟩ := List.any_eq_true.1 hfound
  exact ⟨pass, c', s', hrun, d, hd, by simpa using houtside⟩

end AnalysisCore.Reached

end SketchSense
