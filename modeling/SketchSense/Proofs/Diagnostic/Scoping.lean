import SketchSense.Proofs.Cache.Presenting
import SketchSense.Proofs.FilePath.Inside

/-!
# Where collected diagnostics are

Whether a message is reported is decided by its place in the engine's coordinates, but it is shown in
those of the sketch. The way back from a name made for a sketch stays in the directory and ends at a
name that was not made, so nothing leaves the sketch on the way.

* `CoordinateMap.file_of_toEdited`, the file that a location is translated to;
* `Scope.exists_of_mem_collect`, where a collected diagnostic and its notes come from;
* `CachedUnit.Presents.isInside_of_mem_collect`, that they are collected inside the root.
-/

namespace SketchSense

/-- A location in the file that was renamed is translated to its sketch, and one in any other file to
the sketch that the file's name was made for, if it was. -/
theorem CoordinateMap.file_of_toEdited {m : CoordinateMap} {l l' : Location}
    (h : m.toEdited l = some l') :
    (l'.file = m.edited ∧ m.isRenamed l.file = true) ∨ l'.file = l.file.editedName := by
  unfold toEdited at h
  split at h
  · cases h
  · next hheader =>
    split at h
    · next hrenamed =>
      split at h
      · rw [← Option.some.inj h]
        exact .inl ⟨rfl, hrenamed⟩
      · cases h
    · split at h
      · rw [← Option.some.inj h]
        exact .inr rfl
      · next hentry =>
        -- a file that is neither analysed under a made name nor a generated header is its own
        have hordinary : l.file.isSynthetic = false := by
          unfold isHeader at hheader
          rw [Bool.or_eq_true, not_or, Bool.not_eq_true] at hheader
          rw [Bool.not_eq_true] at hentry
          unfold FilePath.isSynthetic
          rw [hentry, hheader.1]
          rfl
        rw [← Option.some.inj h, FilePath.editedName_eq, hordinary, if_neg Bool.false_ne_true]
        exact .inr rfl

namespace Scope

variable {s : Scope} {d : Diagnostic}

/-- A report is made of some message and the notes that follow it. -/
theorem exists_report?_of_mem_reports {ds : List RawDiagnostic} (h : d ∈ s.reports ds) :
    ∃ raw following, s.report? raw following = some d := by
  induction ds with
  | nil => exact absurd h List.not_mem_nil
  | cons raw rest ih =>
    unfold reports at h
    rcases List.mem_append.1 h with h | h
    · exact ⟨raw, _, Option.mem_toList.1 h⟩
    · exact ih h

/-- A note is at a translated place or names no file, and has no notes of its own. -/
theorem of_mem_notes {ds : List RawDiagnostic} (h : d ∈ s.notes ds) :
    (d.location.isUnknown = true ∨ ∃ l, s.map.toEdited l = some d.location) ∧ d.children = [] := by
  obtain ⟨raw, -, hnote⟩ := List.mem_filterMap.1 (mem_of_mem_keepFirst h)
  obtain ⟨l, hplace, rfl⟩ := Option.map_eq_some_iff.1 hnote
  refine ⟨?_, rfl⟩
  split at hplace
  · next hunknown =>
    rw [← Option.some.inj hplace]
    exact .inl hunknown
  · exact .inr ⟨_, hplace⟩

/-- A collected diagnostic is shown at the translation of a place in the root, and its children are
notes. -/
theorem exists_of_mem_collect {ds : List RawDiagnostic} (h : d ∈ s.collect ds) :
    (∃ l, s.holds l = true ∧ s.map.toEdited l = some d.location) ∧
      ∃ raws, d.children = s.notes raws := by
  obtain ⟨raw, following, hreport⟩ :=
    exists_report?_of_mem_reports ((sortBy_perm _ _).mem_iff.1 h)
  unfold report? at hreport
  dsimp only at hreport
  split at hreport
  · next hshown =>
    obtain ⟨l, hplace, rfl⟩ := Option.map_eq_some_iff.1 hreport
    exact ⟨⟨_, (Bool.and_eq_true_iff.1 hshown).1, hplace⟩, _, rfl⟩
  · cases hreport

end Scope

/-- All that is collected for a unit is inside the root. -/
theorem CachedUnit.Presents.isInside_of_mem_collect {K : FilePath → Prop}
    (hK : ∀ k, K k → k.IsNormal) {u : CachedUnit} (hu : u.Presents K) {root : FilePath}
    {raw : List RawDiagnostic} {d : Diagnostic} (h : d ∈ Scope.collect ⟨root, u.map⟩ raw) :
    d.location.file.isInside root = true := by
  obtain ⟨⟨l, hholds, hplace⟩, -⟩ := Scope.exists_of_mem_collect h
  have hinside : l.file.isInside root = true := (Bool.and_eq_true_iff.1 hholds).2
  rcases CoordinateMap.file_of_toEdited hplace with ⟨hfile, hrenamed⟩ | hfile
  · -- the renamed file and its sketch are in one directory
    have hanalyzed : (l.file == u.key.analyzedName) = true := by
      rw [← hu.analyzed]
      exact (Bool.and_eq_true_iff.1 hrenamed).1
    rw [hfile, hu.edited, ← FilePath.isInside_analyzedName (hK _ hu.key),
      ← FilePath.isInside_eq_of_beq hanalyzed, hinside]
  · rw [hfile, FilePath.isInside_editedName, hinside]

end SketchSense
