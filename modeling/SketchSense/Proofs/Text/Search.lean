import SketchSense.Text.Blank
import SketchSense.Text.Search

/-!
# What a search finds

* `isSome_cutFirst?` and `contains_iff`, a mark that stands in a text is found;
* `mem_dropEndWhile`, what is not to be dropped stays;
* `exists_eq_trim`, a text is what is left of it by trimming, between blank characters;
* `contains_trim`, trimming takes nothing off a mark without blank characters.
-/

namespace SketchSense.Text

/-- A mark that stands somewhere in a text is found. -/
theorem isSome_cutFirst? (mark before rest : List Char) :
    (cutFirst? mark (before ++ mark ++ rest)).isSome = true := by
  have hhere (s : List Char) (h : (after? mark s).isSome = true) :
      (cutFirst? mark s).isSome = true := by
    obtain ⟨behind, hbehind⟩ := Option.isSome_iff_exists.1 h
    cases s with
    | nil =>
      cases mark with
      | nil => rfl
      | cons m mark => cases hbehind
    | cons c s => simp [cutFirst?, hbehind]
  induction before with
  | nil =>
    refine hhere _ ?_
    rw [List.nil_append, after?_eq_some_iff.2 rfl]
    rfl
  | cons c before ih =>
    rw [List.cons_append, List.cons_append, cutFirst?]
    split
    · rfl
    · rw [Option.isSome_map, ih]

/-- A text contains a mark exactly if it is something before the mark, the mark and a rest. -/
theorem contains_iff {mark s : List Char} :
    contains mark s = true ↔ ∃ before rest, s = before ++ mark ++ rest := by
  constructor
  · intro h
    obtain ⟨⟨before, rest⟩, hcut⟩ := Option.isSome_iff_exists.1 h
    exact ⟨before, rest, eq_of_cutFirst? hcut⟩
  · rintro ⟨before, rest, rfl⟩
    exact isSome_cutFirst? mark before rest

theorem contains_iff_isInfix {mark s : List Char} : contains mark s = true ↔ mark <:+: s := by
  rw [contains_iff]
  exact exists_congr fun before => exists_congr fun rest => eq_comm

theorem startsWith_iff {mark s : List Char} : startsWith mark s = true ↔ mark <+: s := by
  rw [startsWith, Option.isSome_iff_exists]
  exact exists_congr fun rest => after?_eq_some_iff.trans eq_comm

/-! ## Trimming -/

/-- A character that is not dropped stops the dropping, and stays. -/
theorem mem_dropWhile {p : Char → Bool} {s : List Char} {c : Char} (hmem : c ∈ s)
    (hc : p c = false) : c ∈ s.dropWhile p := by
  have hsplit := List.takeWhile_append_dropWhile (p := p) (l := s)
  rw [← hsplit] at hmem
  refine (List.mem_append.1 hmem).resolve_left ?_
  intro htake
  rw [List.all_eq_true.1 List.all_takeWhile c htake] at hc
  cases hc

theorem mem_dropEndWhile {p : Char → Bool} {s : List Char} {c : Char} (hmem : c ∈ s)
    (hc : p c = false) : c ∈ dropEndWhile p s :=
  List.mem_reverse.2 (mem_dropWhile (List.mem_reverse.2 hmem) hc)

/-- A text without the blanks at its start is what trimming leaves, and blank characters. -/
theorem exists_trimStart_eq (s : List Char) :
    ∃ after, trimStart s = trim s ++ after ∧ ∀ c ∈ after, isBlank c = true := by
  refine ⟨((trimStart s).reverse.takeWhile isBlank).reverse, ?_, fun c hc => ?_⟩
  · unfold trim trimEnd dropEndWhile
    rw [← List.reverse_append, List.takeWhile_append_dropWhile, List.reverse_reverse]
  · exact List.all_eq_true.1 List.all_takeWhile c (List.mem_reverse.1 hc)

/-- A text is what trimming leaves, with blank characters on both sides. -/
theorem exists_eq_trim (s : List Char) :
    ∃ before after, s = before ++ (trim s ++ after) ∧
      (∀ c ∈ before, isBlank c = true) ∧ (∀ c ∈ after, isBlank c = true) := by
  obtain ⟨after, hafter, hblank⟩ := exists_trimStart_eq s
  refine ⟨s.takeWhile isBlank, after, ?_, fun c hc => List.all_eq_true.1 List.all_takeWhile c hc,
    hblank⟩
  rw [← hafter]
  exact List.takeWhile_append_dropWhile.symm

/-- Trimming leaves a part of a text. -/
theorem trim_isInfix (s : List Char) : trim s <:+: s := by
  obtain ⟨before, after, hs, -, -⟩ := exists_eq_trim s
  exact ⟨before, after, by rw [List.append_assoc, ← hs]⟩

/-- What is left by trimming starts with a character that is not blank. -/
theorem isBlank_of_trim_eq_cons {s rest : List Char} {c : Char} (h : trim s = c :: rest) :
    isBlank c = false := by
  obtain ⟨after, hafter, -⟩ := exists_trimStart_eq s
  rw [h, trimStart] at hafter
  have hhead := List.head?_dropWhile_not isBlank s
  rw [hafter] at hhead
  simpa using hhead

/-- A mark without blank characters does not reach into the blanks before a text. -/
theorem isInfix_of_blank_append {mark before s : List Char} (hmark : mark ≠ [])
    (hdark : ∀ c ∈ mark, isBlank c = false) (hbefore : ∀ c ∈ before, isBlank c = true)
    (h : mark <:+: before ++ s) : mark <:+: s := by
  induction before with
  | nil => exact h
  | cons c before ih =>
    rcases List.infix_cons_iff.1 h with hhere | hbehind
    · obtain ⟨m, mark, rfl⟩ := List.exists_cons_of_ne_nil hmark
      obtain rfl := (List.cons_prefix_cons.1 hhere).1
      exact absurd (hbefore m List.mem_cons_self) (by simp [hdark m List.mem_cons_self])
    · exact ih (fun c hc => hbefore c (List.mem_cons_of_mem _ hc)) hbehind

/-- A mark without blank characters does not reach into the blanks behind a text. -/
theorem isPrefix_of_append_blank {mark s after : List Char}
    (hdark : ∀ c ∈ mark, isBlank c = false) (hafter : ∀ c ∈ after, isBlank c = true)
    (h : mark <+: s ++ after) : mark <+: s := by
  induction s generalizing mark with
  | nil =>
    cases mark with
    | nil => exact List.nil_prefix
    | cons m mark =>
      have hm : m ∈ after := h.subset List.mem_cons_self
      exact absurd (hafter m hm) (by simp [hdark m List.mem_cons_self])
  | cons c s ih =>
    cases mark with
    | nil => exact List.nil_prefix
    | cons m mark =>
      obtain ⟨rfl, hrest⟩ := List.cons_prefix_cons.1 h
      exact List.cons_prefix_cons.2
        ⟨rfl, ih (fun d hd => hdark d (List.mem_cons_of_mem _ hd)) hrest⟩

/-- Trimming leaves every mark without blank characters. -/
theorem contains_trim {mark : List Char} (hmark : mark ≠ [])
    (hdark : ∀ c ∈ mark, isBlank c = false) (s : List Char) :
    contains mark (trim s) = contains mark s := by
  rw [Bool.eq_iff_iff, contains_iff_isInfix, contains_iff_isInfix]
  refine ⟨fun h => h.trans (trim_isInfix s), fun h => ?_⟩
  obtain ⟨before, after, hs, hbefore, hafter⟩ := exists_eq_trim s
  rw [hs] at h
  have hfront := isInfix_of_blank_append hmark hdark hbefore h
  -- the blanks behind a text are before it when it is read backwards
  rw [← List.reverse_infix, List.reverse_append] at hfront
  refine List.reverse_infix.1 (isInfix_of_blank_append ?_ ?_ ?_ hfront)
  · simpa using hmark
  · exact fun c hc => hdark c (List.mem_reverse.1 hc)
  · exact fun c hc => hafter c (List.mem_reverse.1 hc)

end SketchSense.Text
