import SketchSense.Proofs.Analysis.Questions
import SketchSense.Proofs.Cache.Enumeration
import SketchSense.Proofs.Cache.Passes

/-!
# Answers in which the order of the units shows

The units of a project are listed in an order that nothing fixes. The order has no effect on what a
request makes of an analysis: a pass over the project brings the same units up to date, asks the engine
the same and leaves it in the same state. Only the report may be another one.

* `ProjectUnit.agree_iff`, that units agree exactly if they report the same in every order;
* `ProjectCache.runFrom_refresh` and `CoreM.exists_answer_in`, a pass over a project in any order;
* `CoreM.runFrom_answer_of_agree`, that the order has no effect at all where the units agree.
-/

namespace SketchSense

variable {σ : Type}

/-! ## Orders -/

open Classical in
/-- The order in which `as` becomes `bs`, and all else stays as it is. -/
noncomputable def Enumeration.ofPerm {α : Type} {as bs : List α} (h : bs.Perm as) : Enumeration α where
  order cs := if cs = as then bs else cs
  perm cs := by
    split
    · next heq =>
      rw [heq]
      exact h
    · exact .refl cs

theorem Enumeration.order_ofPerm {α : Type} {as bs : List α} (h : bs.Perm as) :
    (ofPerm h).order as = bs := if_pos rfl

/-- Units agree exactly if their report is the same in every order. -/
theorem ProjectUnit.agree_iff {units : List ProjectUnit} :
    Agree units ↔
      ∀ e : Enumeration ProjectUnit, mergedDiagnostics (e.order units) = mergedDiagnostics units := by
  have hperm : (∀ units' : List ProjectUnit, units'.Perm units →
      mergedDiagnostics units' = mergedDiagnostics units) ↔ Agree units := by
    simp only [mergedDiagnostics_eq]
    exact forall_perm_merged_iff (fun u : ProjectUnit => u.diagnostics) units
  rw [← hperm]
  constructor
  · intro hall e
    exact hall _ (e.perm units)
  · intro hall units' hunits
    have hreport := hall (.ofPerm hunits)
    rwa [Enumeration.order_ofPerm] at hreport

/-! ## One pass -/

namespace ProjectCache

/-- A pass in any order runs as the one in the order of the keys. -/
theorem runFrom_refresh (c : ProjectCache) (files : List FileBuffer) (e : Enumeration ProjectUnit)
    (b : UnitBuilder σ) (s : σ) :
    EngineM.runFrom ((c.refresh files e).run b) s =
      match EngineM.runFrom ((c.refresh files).run b) s with
      | (.ok ((_, c'), b'), s') => (.ok ((mergedDiagnostics (c'.units.valuesIn e), c'), b'), s')
      | (.error fault, s') => (.error fault, s') := by
  have hrun (o : Enumeration ProjectUnit) : EngineM.runFrom ((c.refresh files o).run b) s =
      match EngineM.runFrom ((refreshFiles (openHeaders b files) c (sourceFiles b files)).run b) s with
      | (.ok (d, b'), s') =>
        let units := d.units.restrict fun key => (sourceFiles b files).any (·.path == key)
        (.ok ((mergedDiagnostics (units.valuesIn o), ⟨units, d.stats⟩), b'), s')
      | (.error fault, s') => (.error fault, s') := by
    unfold refresh
    rw [runFrom_run_bind_of_yields _ (yieldsWith_get.2 ⟨rfl, rfl, rfl⟩), runFrom_run_bind]
    cases EngineM.runFrom ((refreshFiles (openHeaders b files) c (sourceFiles b files)).run b) s with
    | mk r s' => cases r <;> rfl
  rw [hrun, hrun]
  cases EngineM.runFrom ((refreshFiles (openHeaders b files) c (sourceFiles b files)).run b) s with
  | mk r s' => cases r <;> rfl

end ProjectCache

namespace CoreM

/-- A pass over a project announces what its units report. -/
theorem runFrom_projectDiagnostics (files : List FileBuffer) (e : Enumeration ProjectUnit)
    (c : AnalysisCore σ) (s : σ) :
    EngineM.runFrom ((projectDiagnostics files e).run c) s =
      match EngineM.runFrom ((c.project.refresh files e).run c.builder) s with
      | (.ok ((ds, project), builder), s') =>
        EngineM.runFrom ((announce builder.root ds).run { c with builder, project }) s'
      | (.error fault, s') => (.error fault, s') := by
  have hbuilding : EngineM.runFrom ((building (c.project.refresh files e)).run c) s =
      match EngineM.runFrom ((c.project.refresh files e).run c.builder) s with
      | (.ok (r, builder), s') => (.ok (r, { c with builder }), s')
      | (.error fault, s') => (.error fault, s') := by
    unfold building
    rw [runFrom_run_bind_of_yields _ (yieldsWith_get.2 ⟨rfl, rfl, rfl⟩), runFrom_run_liftM_bind]
    cases EngineM.runFrom ((c.project.refresh files e).run c.builder) s with
    | mk r s' => cases r <;> rfl
  unfold projectDiagnostics
  rw [runFrom_run_bind_of_yields _ (yieldsWith_get.2 ⟨rfl, rfl, rfl⟩), runFrom_run_bind, hbuilding]
  cases EngineM.runFrom ((c.project.refresh files e).run c.builder) s with
  | mk r s' => cases r <;> rfl

variable {live : Bool} {r : Request} {e e' : Enumeration ProjectUnit} {c c' : AnalysisCore σ} {s s' : σ}
  {a : Answer}

/-- A pass over a project keeps the units that its refresh leaves, and announces their report. -/
theorem yieldsWith_projectDiagnostics_iff {files : List FileBuffer} {p : DiagnosticsPass} :
    YieldsWith (projectDiagnostics files e) c s p c' s' ↔ ∃ ds project builder,
      YieldsWith (c.project.refresh files e) c.builder s (ds, project) builder s' ∧
        p = ⟨builder.root, ds, (c.notifier.observe builder.root ds).1⟩ ∧
        c' = { c with builder, project, notifier := (c.notifier.observe builder.root ds).2 } := by
  unfold projectDiagnostics
  simp only [yieldsWith_bind, yieldsWith_get, yieldsWith_modify, yieldsWith_building_iff,
    yieldsWith_announce_iff]
  constructor
  · rintro ⟨_, _, _, ⟨rfl, rfl, rfl⟩, ⟨ds, project⟩, _, _, ⟨builder, hrun, rfl⟩, _, _, _, ⟨rfl, rfl⟩, _,
      _, _, ⟨rfl, rfl, rfl⟩, rfl, rfl, rfl⟩
    exact ⟨ds, project, builder, hrun, rfl, rfl⟩
  · rintro ⟨ds, project, builder, hrun, rfl, rfl⟩
    exact ⟨c, c, s, ⟨rfl, rfl, rfl⟩, (ds, project), _, s', ⟨builder, hrun, rfl⟩, ⟨⟩, _, _, ⟨rfl, rfl⟩, _,
      _, _, ⟨rfl, rfl, rfl⟩, rfl, rfl, rfl⟩

/-- A pass over a project reports what its units report in the order in which they are listed. -/
theorem diagnostics_of_answer {files : List FileBuffer}
    (h : YieldsWith (answer live (.project files) e) c s a c' s') :
    ∃ p, a = .project p ∧ p.diagnostics = mergedDiagnostics (c'.project.units.valuesIn e) := by
  obtain ⟨p, _, _, hrun, hend⟩ := yieldsWith_bind.1 h
  obtain ⟨rfl, rfl, -⟩ := yieldsWith_pure.1 hend
  obtain ⟨ds, project, builder, hrefresh, rfl, rfl⟩ := yieldsWith_projectDiagnostics_iff.1 hrun
  exact ⟨_, rfl, ProjectCache.report_eq hrefresh⟩

/-- In any other order the same units are left. -/
theorem exists_answer_in {files : List FileBuffer}
    (h : YieldsWith (answer live (.project files) e) c s a c' s') (e' : Enumeration ProjectUnit) :
    ∃ a' c'', YieldsWith (answer live (.project files) e') c s a' c'' s' ∧
      c''.project = c'.project := by
  obtain ⟨p, _, _, hrun, hend⟩ := yieldsWith_bind.1 h
  obtain ⟨rfl, rfl, rfl⟩ := yieldsWith_pure.1 hend
  obtain ⟨ds, project, builder, hrefresh, rfl, rfl⟩ := yieldsWith_projectDiagnostics_iff.1 hrun
  obtain ⟨d, hfiles, rfl, -⟩ := ProjectCache.yieldsWith_refresh.1 hrefresh
  have hother := (yieldsWith_projectDiagnostics_iff (e := e')).2
    ⟨_, _, builder, ProjectCache.yieldsWith_refresh.2 ⟨d, hfiles, rfl, rfl⟩, rfl, rfl⟩
  exact ⟨_, _, yieldsWith_bind.2 ⟨_, _, _, hother, yieldsWith_pure.2 ⟨rfl, rfl, rfl⟩⟩, rfl⟩

/-- Where the units agree that a pass leaves, the order in which they are listed has no effect. -/
theorem runFrom_answer_of_agree
    (h : ∀ a c' s', YieldsWith (answer live r e) c s a c' s' → r.kind = .project →
      ProjectUnit.Agree c'.project.units.values) :
    EngineM.runFrom ((answer live r e').run c) s = EngineM.runFrom ((answer live r e).run c) s := by
  cases r with
  | project files =>
    have hpass : EngineM.runFrom ((projectDiagnostics files e').run c) s =
        EngineM.runFrom ((projectDiagnostics files e).run c) s := by
      rw [runFrom_projectDiagnostics, runFrom_projectDiagnostics, ProjectCache.runFrom_refresh _ _ e',
        ProjectCache.runFrom_refresh _ _ e]
      cases hrefresh : EngineM.runFrom ((c.project.refresh files).run c.builder) s with
      | mk r s' =>
        cases r with
        | error fault => rfl
        | ok r =>
          obtain ⟨⟨ds, project⟩, builder⟩ := r
          have hrun : YieldsWith (c.project.refresh files e) c.builder s
              (mergedDiagnostics (project.units.valuesIn e), project) builder s' := by
            unfold YieldsWith Yields
            rw [ProjectCache.runFrom_refresh, hrefresh]
          have hproject := yieldsWith_projectDiagnostics_iff.2 ⟨_, _, _, hrun, rfl, rfl⟩
          have hanswer : YieldsWith (answer live (.project files) e) c s _ _ s' :=
            yieldsWith_bind.2 ⟨_, _, _, hproject, yieldsWith_pure.2 ⟨rfl, rfl, rfl⟩⟩
          have hagree := ProjectUnit.agree_iff.1 (h _ _ _ hanswer rfl)
          have hreport : mergedDiagnostics (project.units.valuesIn e') =
              mergedDiagnostics (project.units.valuesIn e) := (hagree e').trans (hagree e).symm
          dsimp only
          rw [hreport]
    show EngineM.runFrom ((projectDiagnostics files e' >>= _).run c) s =
      EngineM.runFrom ((projectDiagnostics files e >>= _).run c) s
    rw [runFrom_run_bind, runFrom_run_bind, hpass]
  | _ => rfl

end CoreM

end SketchSense
