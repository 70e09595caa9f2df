import SketchSense.Proofs.Text.Lines
import SketchSense.Proofs.Text.Search
import SketchSense.Text.Snippet

/-!
# Snippets that show something

* `ShowsAt`, a line on which something stands, with `exists_line_of_append`;
* `snippet_ne_empty`, that lines which begin with such a line are not shown empty.
-/

namespace SketchSense.Text

/-- On the line with a number, counted from 1, something stands besides its end. -/
def ShowsAt (code : String) (n : Nat) : Prop :=
  1 ≤ n ∧ ∃ l, (splitLines code.toList)[n - 1]? = some l ∧ ∃ c ∈ l, c ≠ '\r'

/-- A character is on the line that the line feeds before it lead to. -/
theorem exists_line_of_append (before : List Char) {c : Char} (hc : c ≠ '\n') (behind : List Char) :
    ∃ l, (splitLines (before ++ c :: behind))[before.count '\n']? = some l ∧ c ∈ l := by
  induction before with
  | nil =>
    obtain ⟨l, ls, -, hcut⟩ := splitLines_cons_of_ne hc behind
    exact ⟨c :: l, by rw [List.nil_append, hcut]; rfl, List.mem_cons_self⟩
  | cons d before ih =>
    obtain ⟨l, hl, hmem⟩ := ih
    by_cases hd : d = '\n'
    · subst hd
      exact ⟨l, by simpa [splitLines] using hl, hmem⟩
    · obtain ⟨m, ms, hm, hdm⟩ := splitLines_cons_of_ne hd (before ++ c :: behind)
      rw [hm] at hl
      rw [List.cons_append, hdm, List.count_cons_of_ne hd]
      cases hcount : before.count '\n' with
      | zero =>
        rw [hcount] at hl
        obtain rfl := Option.some.inj hl
        exact ⟨d :: m, rfl, List.mem_cons_of_mem _ hmem⟩
      | succ n =>
        rw [hcount] at hl
        exact ⟨l, hl, hmem⟩

theorem mem_dropReturn {l : List Char} {c : Char} (hmem : c ∈ l) (hc : c ≠ '\r') :
    c ∈ dropReturn l := by
  unfold dropReturn
  split
  · next hlast =>
    obtain ⟨front, rfl⟩ := List.getLast?_eq_some_iff.1 hlast
    rw [List.dropLast_concat]
    exact (List.mem_append.1 hmem).resolve_right (by simpa using hc)
  · exact hmem

/-- Trimming leaves what is no line end. -/
theorem trimNewlines_ne_nil {s : List Char} {c : Char} (hmem : c ∈ s) (hc : c ≠ '\n' ∧ c ≠ '\r') :
    trimNewlines s ≠ [] := by
  have hstop : (c == '\n' || c == '\r') = false := by simp [hc.1, hc.2]
  exact List.ne_nil_of_mem (mem_dropEndWhile (mem_dropWhile hmem hstop) hstop)

/-- A cut text still shows something: the dots. -/
theorem exists_mem_truncate {s : List Char} {c : Char} (hmem : c ∈ s) (hc : c ≠ '\n' ∧ c ≠ '\r')
    (limit : Nat) : ∃ d ∈ truncate limit s, d ≠ '\n' ∧ d ≠ '\r' := by
  unfold truncate
  split
  · exact ⟨c, hmem, hc⟩
  · exact ⟨'.', by simp, by decide⟩

theorem mem_joinLines_head {l : List Char} {c : Char} (hmem : c ∈ l) (ls : List (List Char)) :
    c ∈ joinLines (l :: ls) := by
  cases ls with
  | nil => exact hmem
  | cons m ls => exact List.mem_append_left _ hmem

theorem head?_abbreviate {l : List Char} {ls : List (List Char)} (h : ls.head? = some l) :
    (abbreviate ls).head? = some l := by
  obtain ⟨rest, rfl⟩ := List.head?_eq_some_iff.1 h
  unfold abbreviate
  split
  · rfl
  · rfl

/-- Lines from one on which something stands are not shown empty. -/
theorem snippet_ne_empty {code : String} {first last : Nat} (h : ShowsAt code first)
    (hle : first ≤ last) : snippet code first last ≠ "" := by
  obtain ⟨hpos, l, hl, c, hc, hreturn⟩ := h
  obtain ⟨hlt, hget⟩ := List.getElem?_eq_some_iff.1 hl
  have hnewline : c ≠ '\n' := by
    rintro rfl
    exact not_mem_of_mem_splitLines (List.mem_of_getElem? hl) hc
  have hlines : (lines code.toList)[first - 1]? = some (dropReturn l) := by
    rw [lines, List.getElem?_map, hl]
    rfl
  have hlength : (lines code.toList).length = (splitLines code.toList).length := by
    rw [lines, List.length_map]
  have hhead : (((lines code.toList).take last).drop (first - 1)).head? = some (dropReturn l) := by
    rw [List.head?_drop, List.getElem?_take_of_lt (by omega), hlines]
  obtain ⟨rest, hrest⟩ := List.head?_eq_some_iff.1 (head?_abbreviate hhead)
  obtain ⟨d, hd, hdark⟩ := exists_mem_truncate
    (mem_joinLines_head (mem_dropReturn hc hreturn) rest) ⟨hnewline, hreturn⟩ snippetLimit
  unfold snippet
  rw [if_neg (by rw [hlength]; omega), hrest]
  intro hempty
  exact trimNewlines_ne_nil hd hdark (String.ofList_eq_empty_iff.1 hempty)

end SketchSense.Text
