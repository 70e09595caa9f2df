import SketchSense.Diagnostic.Collect
import SketchSense.Proofs.Collation
import SketchSense.Proofs.FilePath.Kinds

/-!
# Merged reports

A report lists diagnostics in full order. Two that are not told apart by that order are the same, as
long as they have no notes and their files are written as normal paths. So a report does not depend
on the order in which its diagnostics were found.

* `Diagnostic.IsPlain`, a diagnostic without notes in a normal file, and `sortAndDedup_eq_of_perm`;
* `exists_mem_sortAndDedup`, that for every diagnostic one that reads the same is reported;
* `RawDiagnostic.IsAlone`, a message without notes, with `Scope.collect_perm` and
  `Scope.isPlain_of_mem_collect`.
-/

namespace SketchSense

/-! ## The full order -/

instance : Std.TransOrd FilePath := inferInstanceAs (Std.TransCmp FilePath.compare)

instance : Std.TransCmp Location.compare :=
  inferInstanceAs (Std.TransCmp (compareLex (compareOn Location.file)
    (compareLex (compareOn Location.line) (compareOn Location.column))))

instance : Std.TransOrd Location := inferInstanceAs (Std.TransCmp Location.compare)

/-- The order of locations tells those in normal files apart. -/
theorem Location.eq_of_compare {a b : Location} (ha : a.file.IsNormal) (hb : b.file.IsNormal)
    (h : Location.compare a b = .eq) : a = b := by
  unfold Location.compare at h
  simp only [Ordering.then_eq_eq] at h
  obtain ⟨hfile, hline, hcolumn⟩ := h
  have hcomponents : a.file.components = b.file.components := Std.LawfulEqCmp.eq_of_compare hfile
  have hfile := ha.eq_of_components_eq hb hcomponents
  have hline : a.line = b.line := Std.LawfulEqCmp.eq_of_compare hline
  have hcolumn : a.column = b.column := Std.LawfulEqCmp.eq_of_compare hcolumn
  obtain ⟨file, line, column⟩ := a
  obtain ⟨file', line', column'⟩ := b
  simp only at hfile hline hcolumn
  rw [hfile, hline, hcolumn]

namespace Diagnostic

instance : Std.TransCmp comparePosition :=
  inferInstanceAs (Std.TransCmp (compareLex (compareOn fun d : Diagnostic => d.severity.rank)
    (compareOn Diagnostic.location)))

instance : Std.TransCmp compareFull :=
  inferInstanceAs (Std.TransCmp (compareLex comparePosition
    (compareLex (compareOn Diagnostic.message)
      (compareOn fun d : Diagnostic => d.severity.level))))

/-- A diagnostic without notes, whose file is written as a normal path. -/
structure IsPlain (d : Diagnostic) : Prop where
  childless : d.children = []
  normal : d.location.file.IsNormal

theorem level_injective {s t : Severity} (h : s.level = t.level) : s = t := by
  cases s <;> cases t <;> first | rfl | cases h

/-- The full order tells plain diagnostics apart. -/
theorem eq_of_compareFull {a b : Diagnostic} (ha : a.IsPlain) (hb : b.IsPlain)
    (h : compareFull a b = .eq) : a = b := by
  unfold compareFull comparePosition Severity.compare at h
  simp only [Ordering.then_eq_eq] at h
  obtain ⟨⟨-, hlocation⟩, hmessage, hlevel⟩ := h
  have hlocation := Location.eq_of_compare ha.normal hb.normal hlocation
  have hmessage : a.message = b.message := Std.LawfulEqCmp.eq_of_compare hmessage
  have hseverity := level_injective (Std.LawfulEqCmp.eq_of_compare hlevel)
  have hchildren := ha.childless.trans hb.childless.symm
  obtain ⟨location, severity, message, children⟩ := a
  obtain ⟨location', severity', message', children'⟩ := b
  simp only at hlocation hmessage hseverity hchildren
  rw [hlocation, hmessage, hseverity, hchildren]

/-- A report of plain diagnostics does not depend on the order they were in. -/
theorem sortAndDedup_eq_of_perm {as bs : List Diagnostic} (hperm : as.Perm bs)
    (h : ∀ d ∈ as, d.IsPlain) : sortAndDedup as = sortAndDedup bs := by
  unfold sortAndDedup
  rw [sortBy_eq_of_perm hperm fun a ha b hb => eq_of_compareFull (h a ha) (h b hb)]

/-- Of every diagnostic one is reported that reads the same and does not stand behind it. -/
theorem exists_mem_sortAndDedup {ds : List Diagnostic} {d : Diagnostic} (h : d ∈ ds) :
    ∃ e ∈ sortAndDedup ds, e ∈ ds ∧ e.repeatKey = d.repeatKey ∧ e.severity = d.severity ∧
      (compareFull e d).isLE = true := by
  obtain ⟨e, he, hkey⟩ := exists_mem_keepFirst (fun d : Diagnostic => (d.repeatKey, d.severity))
    ((sortBy_perm compareFull ds).mem_iff.2 h)
  have hkeys := Prod.mk.inj (eq_of_beq hkey)
  refine ⟨e, he, (sortBy_perm _ _).mem_iff.1 (mem_of_mem_keepFirst he), hkeys.1, hkeys.2, ?_⟩
  exact isLE_of_find?_sortBy (find?_of_mem_keepFirst he) h (by rw [hkeys.1, hkeys.2, BEq.rfl])

end Diagnostic

/-! ## Messages without notes -/

/-- A message at one place, without notes and no note itself. -/
def RawDiagnostic.IsAlone (d : RawDiagnostic) : Prop :=
  ∃ severity l message, d = .at severity l message ∧ severity ≠ .note

theorem RawDiagnostic.IsAlone.isNote {d : RawDiagnostic} (h : d.IsAlone) : d.isNote = false := by
  obtain ⟨severity, l, message, rfl, hseverity⟩ := h
  exact decide_eq_false hseverity

namespace Scope

variable (s : Scope) {ds es : List RawDiagnostic}

/-- A message at one place is shown at that place. -/
theorem preferred_at (severity : Severity) (l : Location) (message : String) :
    s.preferred (.at severity l message) = l := by
  unfold preferred RawDiagnostic.at
  dsimp only
  -- whichever search succeeds, it finds `l`
  cases hown : [l, l, l].find? fun l => s.holds l && !l.file.isPrototypeHeader with
  | some own =>
    have hmem := List.mem_of_find?_eq_some hown
    simpa using hmem
  | none =>
    cases hinside : [l, l, l].find? s.holds with
    | some inside =>
      have hmem := List.mem_of_find?_eq_some hinside
      simpa using hmem
    | none =>
      cases hknown : [l, l, l].find? fun l => !l.isUnknown with
      | some known =>
        have hmem := List.mem_of_find?_eq_some hknown
        simpa using hmem
      | none => rfl

/-- Messages without notes are reported one by one. -/
theorem reports_eq (h : ∀ d ∈ ds, d.IsAlone) : s.reports ds = ds.filterMap (s.report? · []) := by
  induction ds with
  | nil => rfl
  | cons d ds ih =>
    have hrest := ih fun e he => h e (List.mem_cons_of_mem _ he)
    -- no note follows, so a message has none of its own
    have hfollowing : ds.takeWhile RawDiagnostic.isNote = [] := by
      cases ds with
      | nil => rfl
      | cons e es =>
        rw [List.takeWhile_cons_of_neg]
        simp [(h e (by simp)).isNote]
    rw [reports, hfollowing, hrest, List.filterMap_cons]
    cases s.report? d [] <;> rfl

/-- The report of a message without notes has none, at the place where the message is shown. -/
theorem report?_eq_some {d : RawDiagnostic} {r : Diagnostic} (hd : d.IsAlone)
    (h : s.report? d [] = some r) :
    r.children = [] ∧ s.map.toEdited d.spelling = some r.location := by
  obtain ⟨severity, l, message, rfl, -⟩ := hd
  unfold report? at h
  rw [preferred_at] at h
  dsimp only at h
  split at h
  · obtain ⟨place, hplace, rfl⟩ := Option.map_eq_some_iff.1 h
    exact ⟨rfl, hplace⟩
  · cases h

/-- Of messages without notes it does not matter in which order they come. -/
theorem collect_perm (h : ∀ d ∈ ds, d.IsAlone) (hperm : ds.Perm es) :
    (s.collect ds).Perm (s.collect es) := by
  have hes : ∀ d ∈ es, d.IsAlone := fun d hd => h d (hperm.mem_iff.2 hd)
  have hreports : (s.reports ds).Perm (s.reports es) := by
    rw [reports_eq s h, reports_eq s hes]
    exact hperm.filterMap _
  exact (sortBy_perm _ _).trans (hreports.trans (sortBy_perm _ _).symm)

/-- For a file that is presented as it is, messages in normal files give plain diagnostics. -/
theorem isPlain_of_mem_collect {root key : FilePath} (h : ∀ d ∈ ds, d.IsAlone)
    (hnormal : ∀ d ∈ ds, d.spelling.file.IsNormal) {r : Diagnostic}
    (hr : r ∈ collect ⟨root, .identity key⟩ ds) : r.IsPlain := by
  rw [collect, (sortBy_perm _ _).mem_iff, reports_eq _ h] at hr
  obtain ⟨d, hd, hreport⟩ := List.mem_filterMap.1 hr
  obtain ⟨hchildren, hplace⟩ := report?_eq_some _ (h d hd) hreport
  refine ⟨hchildren, ?_⟩
  unfold CoordinateMap.toEdited CoordinateMap.isHeader CoordinateMap.isRenamed at hplace
  simp only [CoordinateMap.identity, Option.any_none, Bool.or_false, BEq.rfl, Bool.not_true,
    Bool.and_false, Bool.false_eq_true, if_false] at hplace
  split at hplace
  · cases hplace
  · next hheader =>
    rw [Bool.not_eq_true] at hheader
    split at hplace
    · rw [← Option.some.inj hplace]
      exact (hnormal d hd).editedName hheader
    · rw [← Option.some.inj hplace]
      exact hnormal d hd

end Scope

end SketchSense
