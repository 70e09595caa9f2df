import SketchSense.Proofs.FilePath.Composition

/-!
# Inside, read off the text

Names are compared one by one to tell whether a path is inside a directory. The normal texts say the
same: names hold no separator, so the text of a directory with a separator behind it comes first in
the text of a path only if it ends where a name ends. A directory whose name is the beginning of
another name does not hold what is in the other one.

* `prefix_joinSlashes_iff`, the first of some segments by their texts;
* `placed`, the segments that a path leads to, with `toList_normalize_slash`, how they are written;
* `isInside_iff_text`, inside as a comparison of texts.
-/

namespace SketchSense.FilePath

variable {p root : FilePath}

/-! ## Segments -/

theorem joinSlashes_ne_nil {segs : List (List Char)} (hne : segs ≠ []) (h : ∀ s ∈ segs, s ≠ []) :
    joinSlashes segs ≠ [] := by
  obtain ⟨s, segs, rfl⟩ := List.exists_cons_of_ne_nil hne
  have hs : s ≠ [] := h s List.mem_cons_self
  cases segs with
  | nil => exact hs
  | cons t ts =>
    rw [joinSlashes_cons_cons]
    exact List.append_ne_nil_of_left_ne_nil hs _

/-- Some segments are the first of others, and not all of them, exactly if their text is written
first, with a separator and something more behind it. -/
theorem prefix_joinSlashes_iff {first all : List (List Char)} (hne : first ≠ [])
    (hfirst : ∀ s ∈ first, '/' ∉ s) (hall : ∀ s ∈ all, '/' ∉ s) (hfull : ∀ s ∈ all, s ≠ []) :
    (first <+: all ∧ first ≠ all) ↔
      ∃ rest, rest ≠ [] ∧ joinSlashes all = joinSlashes first ++ '/' :: rest := by
  constructor
  · intro h
    obtain ⟨⟨more, rfl⟩, hdiffer⟩ := h
    have hmore : more ≠ [] := by
      intro hnil
      rw [hnil, List.append_nil] at hdiffer
      exact hdiffer rfl
    have hwritten : joinSlashes more ≠ [] :=
      joinSlashes_ne_nil hmore fun s hs => hfull s (List.mem_append_right _ hs)
    exact ⟨joinSlashes more, hwritten, joinSlashes_append hne hmore⟩
  · intro h
    obtain ⟨rest, -, htext⟩ := h
    have hsome : all ≠ [] := by
      intro hnil
      rw [hnil] at htext
      exact List.append_ne_nil_of_right_ne_nil _ (List.cons_ne_nil '/' rest) htext.symm
    -- the texts are cut at the same separators, so the segments are read back from them
    have hcut : all = first ++ splitSlashes rest := by
      calc all = splitSlashes (joinSlashes all) := (splitSlashes_joinSlashes hsome hall).symm
        _ = splitSlashes (joinSlashes first ++ '/' :: rest) := by rw [htext]
        _ = splitSlashes (joinSlashes first) ++ splitSlashes rest := splitSlashes_append_slash _ _
        _ = first ++ splitSlashes rest := by rw [splitSlashes_joinSlashes hne hfirst]
    refine ⟨⟨_, hcut.symm⟩, ?_⟩
    intro heq
    rw [heq] at hcut
    exact splitSlashes_ne_nil rest (List.self_eq_append_right.1 hcut)

/-! ## Paths -/

/-- The segments of the names that a path leads to from the root. -/
def placed (p : FilePath) : List (List Char) := (walkDown p.named).names.map String.toList

theorem toList_normalize_slash (p : FilePath) :
    (p.normalize ⟨"/"⟩).text.toList = '/' :: joinSlashes p.placed := by
  unfold normalize placed
  rw [toList_toFilePath, normal_slash, if_pos (absolute_walkDown _)]
  rfl

theorem isPlainName_of_mem_placed {s : List Char} (h : s ∈ p.placed) : IsPlainName s := by
  unfold placed at h
  obtain ⟨name, hname, rfl⟩ := List.mem_map.1 h
  rw [← normal_slash] at hname
  exact isPlain_normal p ⟨"/"⟩ name hname

theorem ne_nil_of_mem_placed {s : List Char} (h : s ∈ p.placed) : s ≠ [] := by
  rintro rfl
  exact absurd (isPlainName_of_mem_placed h).1 (by decide)

theorem placed_eq_nil_iff : p.placed = [] ↔ p.normalize ⟨"/"⟩ = ⟨"/"⟩ := by
  constructor
  · intro hnil
    apply eq_of_toList_eq
    rw [toList_normalize_slash, hnil]
    rfl
  · intro heq
    by_contra hne
    have htext := toList_normalize_slash p
    rw [heq] at htext
    have hnil : joinSlashes p.placed = [] := (List.cons.inj htext).2.symm
    exact joinSlashes_ne_nil hne (fun _ hs => ne_nil_of_mem_placed hs) hnil

/-- A path is inside a directory if the directory's segments are the first of its own, and it has
more. -/
theorem isInside_iff_placed :
    p.isInside root = true ↔
      root.isEmpty = false ∧ root.placed <+: p.placed ∧ root.placed ≠ p.placed := by
  have hinj : Function.Injective String.toList := fun _ _ => String.toList_inj.1
  have hsame : root.placed = p.placed ↔ (walkDown root.named).names = (walkDown p.named).names :=
    List.map_inj_right fun _ _ => (hinj ·)
  have hfirst : root.placed <+: p.placed ↔
      (walkDown root.named).names <+: (walkDown p.named).names :=
    List.prefix_map_iff_of_injective hinj
  rw [isInside_iff, hfirst, ne_eq, ne_eq, hsame]

/-- A normal text goes on behind a directory's exactly if the segments are written so. -/
theorem text_normalize_eq_iff {rest : String} :
    (p.normalize ⟨"/"⟩).text = (root.normalize ⟨"/"⟩).text ++ "/" ++ rest ↔
      joinSlashes p.placed = joinSlashes root.placed ++ '/' :: rest.toList := by
  rw [← String.toList_inj, String.toList_append, String.toList_append, toList_normalize_slash,
    toList_normalize_slash]
  simp

/-- A path is inside a directory below the root exactly if its normal text is that of the directory,
a separator and at least one more character. The empty path and the empty directory both lead to the
root: the one is inside no directory, and the other is none below the root. -/
theorem isInside_iff_text (hbelow : root.normalize ⟨"/"⟩ ≠ ⟨"/"⟩) :
    p.isInside root = true ↔
      ∃ rest : String, rest ≠ "" ∧
        (p.normalize ⟨"/"⟩).text = (root.normalize ⟨"/"⟩).text ++ "/" ++ rest := by
  have hplaced : root.placed ≠ [] := fun hnil => hbelow (placed_eq_nil_iff.1 hnil)
  have hroot : root.isEmpty = false := by
    rw [Bool.eq_false_iff]
    intro hempty
    apply hplaced
    unfold placed
    rw [named_of_isEmpty hempty]
    rfl
  have hsegments := prefix_joinSlashes_iff hplaced
    (fun _ hs => (isPlainName_of_mem_placed hs).2.2)
    (fun _ hs => (isPlainName_of_mem_placed (p := p) hs).2.2)
    (fun _ hs => ne_nil_of_mem_placed hs)
  rw [isInside_iff_placed, hsegments]
  constructor
  · intro h
    obtain ⟨-, rest, hrest, hwritten⟩ := h
    refine ⟨String.ofList rest, by simpa using hrest, ?_⟩
    rw [text_normalize_eq_iff, String.toList_ofList]
    exact hwritten
  · intro h
    obtain ⟨rest, hrest, htext⟩ := h
    exact ⟨hroot, rest.toList, by simpa using hrest, text_normalize_eq_iff.1 htext⟩

/-- A path that leaves a directory and comes back is inside it, and a neighbour whose name goes on
behind the directory's name is not. -/
theorem isInside_iff_text_beside_blink :
    (⟨"/home/./u//Blink/"⟩ : FilePath).normalize ⟨"/"⟩ ≠ ⟨"/"⟩ ∧
      FilePath.isInside ⟨"home/u/BlinkOther/../Blink/x.h"⟩ ⟨"/home/./u//Blink/"⟩ = true ∧
      FilePath.isInside ⟨"/home/u/BlinkOther/x.h"⟩ ⟨"/home/./u//Blink/"⟩ = false := by
  have hbelow : (⟨"/home/./u//Blink/"⟩ : FilePath).normalize ⟨"/"⟩ ≠ ⟨"/"⟩ := by
    intro h
    exact absurd (congrArg FilePath.text h) (by decide)
  exact ⟨hbelow, (isInside_iff_text hbelow).2 ⟨"x.h", by decide, by decide⟩, by cbv⟩

end SketchSense.FilePath
