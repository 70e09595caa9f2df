import SketchSense.Text.Lines

/-!
# Lines of joined texts

A line feed ends a line and does nothing else, so cutting a joined text cuts each part.

* `splitLines_append_newline` and `splitLines_joinLines`, the lines of texts that are put together;
* `length_splitLines`, the number of lines by line feeds;
* `wholeLines`, lines with their line feeds, and `joinLines_append`.
-/

namespace SketchSense.Text

theorem splitLines_cons_of_ne {c : Char} (h : c ≠ '\n') (s : List Char) :
    ∃ l ls, splitLines s = l :: ls ∧ splitLines (c :: s) = (c :: l) :: ls := by
  cases hs : splitLines s with
  | nil => exact absurd hs (splitLines_ne_nil s)
  | cons l ls => exact ⟨l, ls, rfl, by simp [splitLines, h, hs]⟩

theorem splitLines_append_newline (s t : List Char) :
    splitLines (s ++ '\n' :: t) = splitLines s ++ splitLines t := by
  induction s with
  | nil => simp [splitLines]
  | cons c s ih =>
    by_cases hc : c = '\n'
    · simp [splitLines, hc, ih]
    · obtain ⟨l, ls, hs, hcs⟩ := splitLines_cons_of_ne hc s
      obtain ⟨l', ls', hs', hcs'⟩ := splitLines_cons_of_ne hc (s ++ '\n' :: t)
      rw [List.cons_append, hcs, hcs']
      rw [ih, hs, List.cons_append] at hs'
      obtain ⟨rfl, rfl⟩ := List.cons.inj hs'
      rfl

theorem joinLines_cons_cons (l m : List Char) (ls : List (List Char)) :
    joinLines (l :: m :: ls) = l ++ '\n' :: joinLines (m :: ls) := rfl

/-- A joined text has the lines of each of its parts. -/
theorem splitLines_joinLines {ls : List (List Char)} (h : ls ≠ []) :
    splitLines (joinLines ls) = ls.flatMap splitLines := by
  induction ls with
  | nil => exact absurd rfl h
  | cons l ls ih =>
    cases ls with
    | nil => simp [joinLines]
    | cons m ms =>
      rw [joinLines_cons_cons, splitLines_append_newline, ih (List.cons_ne_nil m ms)]
      rfl

theorem splitLines_of_not_mem {s : List Char} (h : '\n' ∉ s) : splitLines s = [s] := by
  induction s with
  | nil => rfl
  | cons c s ih =>
    simp only [List.mem_cons, not_or] at h
    simp [splitLines, Ne.symm h.1, ih h.2]

/-- No line holds a line feed. -/
theorem not_mem_of_mem_splitLines {s l : List Char} (h : l ∈ splitLines s) : '\n' ∉ l := by
  induction s generalizing l with
  | nil => simp_all [splitLines]
  | cons c s ih =>
    by_cases hc : c = '\n'
    · rw [splitLines, if_pos hc] at h
      rcases List.mem_cons.1 h with rfl | h
      · exact List.not_mem_nil
      · exact ih h
    · obtain ⟨m, ms, hs, hcs⟩ := splitLines_cons_of_ne hc s
      rw [hcs] at h
      rcases List.mem_cons.1 h with rfl | h
      · have hm : '\n' ∉ m := ih (by rw [hs]; exact List.mem_cons_self)
        simp [Ne.symm hc, hm]
      · exact ih (by rw [hs]; exact List.mem_cons_of_mem _ h)

/-- The characters of a line are those of the text. -/
theorem mem_of_mem_splitLines {c : Char} {s l : List Char} (h : l ∈ splitLines s) (hc : c ∈ l) :
    c ∈ s := by
  induction s generalizing l with
  | nil => simp_all [splitLines]
  | cons d s ih =>
    by_cases hd : d = '\n'
    · rw [splitLines, if_pos hd] at h
      rcases List.mem_cons.1 h with rfl | h
      · cases hc
      · exact List.mem_cons_of_mem _ (ih h hc)
    · obtain ⟨m, ms, hs, hds⟩ := splitLines_cons_of_ne hd s
      rw [hds] at h
      rcases List.mem_cons.1 h with rfl | h
      · rcases List.mem_cons.1 hc with rfl | hc
        · exact List.mem_cons_self
        · exact List.mem_cons_of_mem _ (ih (by rw [hs]; exact List.mem_cons_self) hc)
      · exact List.mem_cons_of_mem _ (ih (by rw [hs]; exact List.mem_cons_of_mem _ h) hc)

theorem flatMap_splitLines {ls : List (List Char)} (h : ∀ l ∈ ls, '\n' ∉ l) :
    ls.flatMap splitLines = ls := by
  induction ls with
  | nil => rfl
  | cons l ls ih =>
    rw [List.flatMap_cons, splitLines_of_not_mem (h l List.mem_cons_self),
      ih fun l' hl' => h l' (List.mem_cons_of_mem _ hl')]
    rfl

theorem length_splitLines (s : List Char) : (splitLines s).length = s.count '\n' + 1 := by
  induction s with
  | nil => rfl
  | cons c s ih =>
    by_cases hc : c = '\n'
    · simp [splitLines, hc, ih]
    · obtain ⟨l, ls, hs, hcs⟩ := splitLines_cons_of_ne hc s
      rw [hs] at ih
      simpa [hcs, List.count_cons, hc] using ih

/-! ## Whole lines -/

/-- Lines with their line feeds. -/
def wholeLines (ls : List (List Char)) : List Char := ls.flatMap (· ++ ['\n'])

theorem joinLines_append (ls : List (List Char)) {ms : List (List Char)} (h : ms ≠ []) :
    joinLines (ls ++ ms) = wholeLines ls ++ joinLines ms := by
  induction ls with
  | nil => rfl
  | cons l ls ih =>
    obtain ⟨m, ns, hne⟩ := List.exists_cons_of_ne_nil (List.append_ne_nil_of_right_ne_nil ls h)
    rw [List.cons_append, hne, joinLines_cons_cons, ← hne, ih]
    simp [wholeLines]

theorem getLast?_wholeLines (ls : List (List Char)) :
    wholeLines ls = [] ∨ (wholeLines ls).getLast? = some '\n' := by
  rcases List.eq_nil_or_concat ls with rfl | ⟨ms, l, rfl⟩
  · exact .inl rfl
  · refine .inr ?_
    simp [wholeLines, List.flatMap_append, ← List.append_assoc]

/-- Every line has one line feed. -/
theorem count_wholeLines {ls : List (List Char)} (h : ∀ l ∈ ls, '\n' ∉ l) :
    (wholeLines ls).count '\n' = ls.length := by
  induction ls with
  | nil => rfl
  | cons l ls ih =>
    have hl : l.count '\n' = 0 := List.count_eq_zero.2 (h l List.mem_cons_self)
    have hls := ih fun m hm => h m (List.mem_cons_of_mem _ hm)
    unfold wholeLines at hls ⊢
    rw [List.flatMap_cons, List.count_append, hls, List.count_append, hl]
    simp [Nat.add_comm]

end SketchSense.Text
