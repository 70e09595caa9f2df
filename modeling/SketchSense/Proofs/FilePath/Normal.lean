import SketchSense.FilePath.Root

/-!
# Normal paths and their texts

The text of a normal path is read back as the names it was written from, so normal paths that name
the same file are the same text. That is what lets them be keys.

* `splitSlashes_joinSlashes`: segments survive being written;
* `NormalPath.IsPlain`, the names of a normal path, and `isPlain_normal`;
* `components_toFilePath`, the steps of a written path, and `normalize_eq_of_beq`;
* `not_mem_display` and `display_eq_text`, how a path is displayed.
-/

namespace SketchSense
namespace FilePath

/-! ## Segments -/

theorem splitSlashes_ne_nil (s : List Char) : splitSlashes s ≠ [] := by
  cases s with
  | nil => simp [splitSlashes]
  | cons c s =>
    unfold splitSlashes
    split
    · simp
    · split <;> simp

/-- A segment holds no separator. -/
theorem not_mem_of_mem_splitSlashes {s : List Char} :
    ∀ {cs : List Char}, s ∈ splitSlashes cs → '/' ∉ s := by
  intro cs
  induction cs generalizing s with
  | nil => intro h; simp_all [splitSlashes]
  | cons c cs ih =>
    intro h
    unfold splitSlashes at h
    split at h
    · rcases List.mem_cons.1 h with rfl | h
      · simp
      · exact ih h
    · next hc =>
      split at h
      · next hs =>
        simp only [List.mem_singleton] at h
        subst h
        simpa using Ne.symm hc
      · next t ts hs =>
        rcases List.mem_cons.1 h with rfl | h
        · have ht : '/' ∉ t := ih (by rw [hs]; exact List.mem_cons_self)
          simp [Ne.symm hc, ht]
        · exact ih (by rw [hs]; exact List.mem_cons_of_mem _ h)

/-- The characters of a segment are those of the text. -/
theorem mem_of_mem_splitSlashes {c : Char} {s cs : List Char} (h : s ∈ splitSlashes cs)
    (hc : c ∈ s) : c ∈ cs := by
  induction cs generalizing s with
  | nil => simp_all [splitSlashes]
  | cons d cs ih =>
    unfold splitSlashes at h
    split at h
    · rcases List.mem_cons.1 h with rfl | h
      · cases hc
      · exact List.mem_cons_of_mem _ (ih h hc)
    · split at h
      · rw [List.mem_singleton] at h
        simp_all
      · next t ts hs =>
        rcases List.mem_cons.1 h with rfl | h
        · rcases List.mem_cons.1 hc with rfl | hc
          · exact List.mem_cons_self
          · exact List.mem_cons_of_mem _ (ih (by rw [hs]; exact List.mem_cons_self) hc)
        · exact List.mem_cons_of_mem _ (ih (by rw [hs]; exact List.mem_cons_of_mem _ h) hc)

theorem splitSlashes_of_not_mem {s : List Char} (h : '/' ∉ s) : splitSlashes s = [s] := by
  induction s with
  | nil => rfl
  | cons c s ih =>
    simp only [List.mem_cons, not_or] at h
    simp [splitSlashes, Ne.symm h.1, ih h.2]

/-- The first separator ends the first segment. -/
theorem splitSlashes_append_cons {s t : List Char} (h : '/' ∉ s) :
    splitSlashes (s ++ '/' :: t) = s :: splitSlashes t := by
  induction s with
  | nil => simp [splitSlashes]
  | cons c s ih =>
    simp only [List.mem_cons, not_or] at h
    rw [List.cons_append, splitSlashes, if_neg (Ne.symm h.1), ih h.2]

theorem joinSlashes_cons_cons (s t : List Char) (ts : List (List Char)) :
    joinSlashes (s :: t :: ts) = s ++ '/' :: joinSlashes (t :: ts) := rfl

/-- Segments without separators survive being written and cut again. -/
theorem splitSlashes_joinSlashes {ss : List (List Char)} (hne : ss ≠ [])
    (h : ∀ s ∈ ss, '/' ∉ s) : splitSlashes (joinSlashes ss) = ss := by
  induction ss with
  | nil => exact absurd rfl hne
  | cons s ss ih =>
    have hs : '/' ∉ s := h s List.mem_cons_self
    cases ss with
    | nil => exact splitSlashes_of_not_mem hs
    | cons t ts =>
      have hrest := ih (by simp) fun u hu => h u (List.mem_cons_of_mem _ hu)
      rw [joinSlashes_cons_cons, splitSlashes_append_cons hs, hrest]

theorem toList_intercalate_slash (names : List String) :
    ("/".intercalate names).toList = joinSlashes (names.map String.toList) := by
  rw [String.toList_intercalate]
  induction names with
  | nil => rfl
  | cons s names ih =>
    cases names with
    | nil => simp [joinSlashes]
    | cons t ts =>
      have hsep : "/".toList = ['/'] := rfl
      rw [hsep] at ih ⊢
      simp only [List.map_cons] at ih ⊢
      rw [List.intercalate_cons_cons, ih, joinSlashes_cons_cons]
      simp

end FilePath

/-! ## Plain names -/

/-- A segment that names a step down: not idle, not a step up, without a separator. -/
def IsPlainName (s : List Char) : Prop :=
  FilePath.isIdle s = false ∧ s ≠ ['.', '.'] ∧ '/' ∉ s

namespace NormalPath

/-- All names of a normal path are plain. -/
def IsPlain (n : NormalPath) : Prop := ∀ s ∈ n.names, IsPlainName s.toList

/-- A step that leads from plain names to plain names. -/
def IsPlainStep : Component → Prop
  | .name s => IsPlainName s.toList
  | _ => True

theorem IsPlain.step {n : NormalPath} (hn : n.IsPlain) {c : Component} (hc : IsPlainStep c) :
    (n.step c).IsPlain := by
  cases c with
  | root => intro s hs; simp [NormalPath.step] at hs
  | current => exact hn
  | up => intro s hs; exact hn s (List.dropLast_subset _ hs)
  | name t =>
    intro s hs
    simp only [NormalPath.step, List.mem_append, List.mem_singleton] at hs
    rcases hs with hs | rfl
    · exact hn s hs
    · exact hc

theorem isPlain_foldl {steps : List Component} (h : ∀ c ∈ steps, IsPlainStep c) {n : NormalPath}
    (hn : n.IsPlain) : (steps.foldl NormalPath.step n).IsPlain := by
  induction steps generalizing n with
  | nil => exact hn
  | cons c steps ih =>
    exact ih (fun d hd => h d (List.mem_cons_of_mem _ hd)) (hn.step (h c List.mem_cons_self))

end NormalPath

namespace FilePath

theorem isPlainStep_of_mem_components {p : FilePath} {c : Component} (h : c ∈ p.components) :
    NormalPath.IsPlainStep c := by
  simp only [components, List.mem_append, List.mem_map, List.mem_filter] at h
  rcases h with h | ⟨s, ⟨hs, hidle⟩, rfl⟩
  · split at h
    · simp_all [NormalPath.IsPlainStep]
    · split at h <;> simp_all [NormalPath.IsPlainStep]
  · unfold componentOf
    split
    · trivial
    · next hup =>
      refine ⟨?_, ?_, ?_⟩
      · simpa using hidle
      · simpa using hup
      · simpa using not_mem_of_mem_splitSlashes hs

theorem isPlain_normal (p base : FilePath) : (p.normal base).IsPlain :=
  NormalPath.isPlain_foldl (fun _ h => isPlainStep_of_mem_components h)
    (fun _ hs => by simp at hs)

end FilePath

/-! ## The text of a normal path -/

namespace NormalPath

variable {n : NormalPath}

/-- Segments of the written path: an empty one stands for the root. -/
theorem segments_toFilePath (hn : n.IsPlain) (hne : n.names ≠ []) :
    n.toFilePath.segments =
      (if n.absolute then [[]] else []) ++ n.names.map String.toList := by
  have hsplit : FilePath.splitSlashes (FilePath.joinSlashes (n.names.map String.toList))
      = n.names.map String.toList := by
    refine FilePath.splitSlashes_joinSlashes (by simpa using hne) fun s hs => ?_
    obtain ⟨t, ht, rfl⟩ := List.mem_map.1 hs
    exact (hn t ht).2.2
  unfold FilePath.segments toFilePath
  rw [String.toList_append, FilePath.toList_intercalate_slash]
  split
  · simpa [FilePath.splitSlashes] using hsplit
  · simpa using hsplit

/-- A written path starts with a separator exactly when it starts at the root. -/
theorem isAbsolute_toFilePath (hn : n.IsPlain) : n.toFilePath.isAbsolute = n.absolute := by
  unfold FilePath.isAbsolute toFilePath
  rw [String.toList_append, FilePath.toList_intercalate_slash]
  cases habs : n.absolute with
  | true => simp
  | false =>
    cases hnames : n.names with
    | nil => simp [FilePath.joinSlashes]
    | cons s names =>
      have hs := hn s (by simp [hnames])
      cases hl : s.toList with
      | nil => simp [IsPlainName, FilePath.isIdle, hl] at hs
      | cons c cs =>
        have hc : c ≠ '/' := by
          intro hc
          subst hc
          simp [IsPlainName, hl] at hs
        cases names <;> simp [FilePath.joinSlashes, hl, hc]

theorem filter_not_idle (hn : n.IsPlain) :
    ((n.names.map String.toList).filter (!FilePath.isIdle ·)).map FilePath.componentOf
      = n.names.map Component.name := by
  rw [List.filter_eq_self.2, List.map_map]
  · refine List.map_congr_left fun s hs => ?_
    simp [FilePath.componentOf, (hn s hs).2.1]
  · intro s hs
    obtain ⟨t, ht, rfl⟩ := List.mem_map.1 hs
    simp [(hn t ht).1]

/-- The steps of a written path: the root, if it starts there, and its names. -/
theorem components_toFilePath (hn : n.IsPlain) :
    n.toFilePath.components =
      (if n.absolute then [Component.root] else []) ++ n.names.map Component.name := by
  simp only [FilePath.components]
  rw [isAbsolute_toFilePath hn]
  by_cases hne : n.names = []
  · obtain ⟨absolute, names⟩ := n
    subst hne
    cases absolute <;> decide
  · have hhead : (n.names.map String.toList).head? ≠ some ['.'] := by
      intro h
      obtain ⟨s, hs, hdot⟩ := List.mem_map.1 (List.mem_of_head? h)
      have := (hn s hs).1
      simp [hdot, FilePath.isIdle] at this
    rw [segments_toFilePath hn hne, List.filter_append, List.map_append, filter_not_idle hn]
    cases habs : n.absolute with
    | true => simp [FilePath.isIdle]
    | false =>
      rw [List.head?_map] at hhead
      simpa using hhead

/-- Plain paths with the same steps are the same. -/
theorem eq_of_components_eq {m : NormalPath} (hn : n.IsPlain) (hm : m.IsPlain)
    (h : n.toFilePath.components = m.toFilePath.components) : n = m := by
  rw [components_toFilePath hn, components_toFilePath hm] at h
  have hinj : ∀ {as bs : List String}, as.map Component.name = bs.map Component.name → as = bs :=
    fun h => (List.map_inj_right fun _ _ => Component.name.inj).1 h
  obtain ⟨a, ns⟩ := n
  obtain ⟨b, ms⟩ := m
  cases a <;> cases b
  · simpa using hinj (by simpa using h)
  · cases ns <;> simp at h
  · cases ms <;> simp at h
  · simpa using hinj (by simpa using h)

end NormalPath

namespace FilePath

/-- Normalised paths that name the same file are the same text. -/
theorem normalize_eq_of_beq {p q base : FilePath} (h : (p.normalize base == q.normalize base) = true) :
    p.normalize base = q.normalize base := by
  unfold normalize at h ⊢
  rw [NormalPath.eq_of_components_eq (isPlain_normal p base) (isPlain_normal q base) (beq_iff.1 h)]

/-! ## Displayed paths -/

/-- Only a slash is displayed that is not in the text. -/
theorem not_mem_display {p : FilePath} {c : Char} (hslash : c ≠ '/') (h : c ∉ p.text.toList) :
    c ∉ p.display.toList := by
  unfold display
  rw [String.toList_ofList, List.mem_map]
  rintro ⟨d, hd, hshown⟩
  split at hshown
  · exact hslash hshown.symm
  · exact h (hshown ▸ hd)

/-- A path without backslashes is displayed as it is written. -/
theorem display_eq_text {p : FilePath} (h : '\\' ∉ p.text.toList) : p.display = p.text := by
  have hsame : (p.text.toList.map fun c => if c = '\\' then '/' else c) = p.text.toList.map id := by
    refine List.map_congr_left fun c hc => if_neg ?_
    rintro rfl
    exact h hc
  rw [display, hsame, List.map_id, String.ofList_toList]

end FilePath
end SketchSense
