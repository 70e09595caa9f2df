import Mathlib.Data.List.Basic
import SketchSense.Completion.Ranking
import SketchSense.Proofs.Text.Offsets

/-!
# What stands before a position

The part of a name that was typed is the longest end of what stands on the line before the position.
A position is first made an offset into the text, and an offset past the end of its line is one on a
later line; there the name of that line is taken for what was typed.

* `IsNameEnd` and `isNameEnd_nameTail`, the longest end of a text that is part of a name;
* `IsBefore` and `StaysOnLine`, what stands before a position on its line, and that this line alone
  decides about what was typed;
* `typedBefore_eq`, what is looked at instead, and `ReachesOver`, positions where that makes a
  difference;
* `staysOnLine_iff`, that these are all.
-/

namespace SketchSense

open Text

/-! ## Names at the end of a text -/

/-- The longest end of a text that is part of a name: ASCII letters, digits and underscores. -/
structure IsNameEnd (text run : List Char) : Prop where
  suffix : run <:+ text
  parts : ∀ c ∈ run, isNamePart c
  longest : ∀ other, other <:+ text → (∀ c ∈ other, isNamePart c) → other.length ≤ run.length

theorem suffix_nameTail {text other : List Char} (h : other <:+ text)
    (hparts : ∀ c ∈ other, isNamePart c) : other <:+ nameTail text := by
  obtain ⟨front, rfl⟩ := h
  unfold nameTail
  rw [List.reverse_append,
    List.takeWhile_append_of_pos fun c hc => hparts c (List.mem_reverse.1 hc), List.reverse_append,
    List.reverse_reverse]
  exact List.suffix_append _ _

theorem isNameEnd_nameTail (text : List Char) : IsNameEnd text (nameTail text) where
  suffix := by
    have hstarts := List.takeWhile_prefix isNamePart (l := text.reverse)
    unfold nameTail
    rwa [← List.reverse_prefix, List.reverse_reverse]
  parts c hc := by
    have hall := List.all_eq_true.1 (List.all_takeWhile (p := isNamePart) (l := text.reverse))
    exact hall c (List.mem_reverse.1 hc)
  longest _ h hparts := (suffix_nameTail h hparts).length_le

theorem nameTail_eq_nil_iff {text : List Char} :
    nameTail text = [] ↔ ∀ c, text.getLast? = some c → isNamePart c = false := by
  constructor
  · intro hnil c hlast
    by_contra hpart
    obtain ⟨front, rfl⟩ := List.getLast?_eq_some_iff.1 hlast
    have hsuffix := suffix_nameTail (List.suffix_append front [c])
      (List.forall_mem_singleton.2 (by simpa using hpart))
    rw [hnil] at hsuffix
    exact List.cons_ne_nil c [] (List.suffix_nil.1 hsuffix)
  · intro hlast
    have htail := isNameEnd_nameTail text
    rcases List.eq_nil_or_concat (nameTail text) with hnil | ⟨front, c, hc⟩
    · exact hnil
    · obtain ⟨rest, hrest⟩ := htail.suffix
      have hpart := htail.parts c (by rw [hc]; simp)
      rw [hlast c (by rw [← hrest, hc]; simp)] at hpart
      cases hpart

/-! ## Positions on a line -/

variable {s : List Char} {line column : Nat}

/-- The position is on the line, on a character boundary, and this stands before it there. -/
def IsBefore (s : List Char) (line column : Nat) (before : List Char) : Prop :=
  1 ≤ line ∧ ∃ l, (splitLines s)[line - 1]? = some l ∧ before <+: l ∧ column = utf8Length before + 1

/-- What was typed is read off the line of the position: it is the longest end of what stands there
before the position that is part of a name, and nothing if the position is not on the line. -/
structure StaysOnLine (code : String) (line column : Nat) : Prop where
  onLine : ∀ before, IsBefore code.toList line column before →
    IsNameEnd before (typedBefore code line column).toList
  offLine : (∀ before, ¬ IsBefore code.toList line column before) → typedBefore code line column = ""

/-- The position is past the end of its line, and on the later line where its offset lies it stands
behind a part of a name. -/
def ReachesOver (s : List Char) (line column : Nat) : Prop :=
  1 ≤ line ∧ ∃ l before c, (splitLines s)[line - 1]? = some l ∧ before ++ [c] <+: onward s line ∧
    column = utf8Length (before ++ [c]) + 1 ∧ utf8Length l + 1 < column ∧ isNamePart c

/-! ## What is looked at -/

/-- What is looked at is the text from the start of the line on, however many lines that takes. -/
theorem typedBefore_eq (code : String) (line column : Nat) :
    typedBefore code line column =
      if 1 ≤ line ∧ line ≤ lineCount code.toList ∧ 1 ≤ column then
        String.ofList (nameTail ((takeBytes? (column - 1) (onward code.toList line)).getD []))
      else "" := by
  unfold typedBefore
  dsimp only
  split
  · next start stop hstart hstop =>
    obtain ⟨hpos, hline, -, rfl, -⟩ := offset?_eq_some_iff.1 hstart
    obtain ⟨-, -, hcolumn, rfl, -⟩ := offset?_eq_some_iff.1 hstop
    rw [if_pos ⟨hpos, hline, hcolumn⟩, Nat.sub_self, Nat.add_zero, sliceBytes?_above hline hpos]
  · next hnone =>
    split
    · next hin =>
      obtain ⟨hpos, hline, hcolumn⟩ := hin
      -- the line has an offset, so the position lies past the end of the text
      have hbytes := utf8Length_above_add hline hpos
      have hstart : offset? code.toList line 1 = some (utf8Length (above code.toList line)) :=
        offset?_eq_some_iff.2 ⟨hpos, hline, Nat.le_refl 1, rfl, by omega⟩
      have hpast : takeBytes? (column - 1) (onward code.toList line) = none := by
        rw [Option.eq_none_iff_forall_ne_some]
        intro before hbefore
        have hle := le_of_takeBytes? hbefore
        exact hnone _ _ hstart (offset?_eq_some_iff.2 ⟨hpos, hline, hcolumn, rfl, by omega⟩)
      rw [hpast]
      rfl
    · rfl

/-! ## The line of a position -/

/-- A position on a line is one of the text. -/
theorem IsBefore.inText {before : List Char} (h : IsBefore s line column before) :
    (1 ≤ line ∧ line ≤ lineCount s ∧ 1 ≤ column) ∧
      takeBytes? (column - 1) (onward s line) = some before := by
  obtain ⟨hpos, l, hl, hstarts, rfl⟩ := h
  have hlt := (List.getElem?_eq_some_iff.1 hl).1
  refine ⟨⟨hpos, ?_, Nat.le_add_left 1 _⟩,
    takeBytes?_eq_some.2 ⟨hstarts.trans (prefix_onward hl), rfl⟩⟩
  unfold lineCount
  omega

theorem ReachesOver.inText (h : ReachesOver s line column) :
    (1 ≤ line ∧ line ≤ lineCount s ∧ 1 ≤ column) ∧ ∃ before c,
      takeBytes? (column - 1) (onward s line) = some (before ++ [c]) ∧ isNamePart c := by
  obtain ⟨hpos, l, before, c, hl, hstarts, rfl, -, hpart⟩ := h
  have hlt := (List.getElem?_eq_some_iff.1 hl).1
  refine ⟨⟨hpos, ?_, Nat.le_add_left 1 _⟩, before, c, takeBytes?_eq_some.2 ⟨hstarts, rfl⟩, hpart⟩
  unfold lineCount
  omega

/-- What goes past the end of a line goes past its line feed. -/
theorem line_lt_of_not_prefix {l before : List Char} (hl : (splitLines s)[line - 1]? = some l)
    (hbefore : before <+: onward s line) (hpast : ¬ before <+: l) :
    utf8Length l + 1 ≤ utf8Length before := by
  rcases onward_cases hl with heq | ⟨rest, heq⟩
  · exact absurd (heq ▸ hbefore) hpast
  have hfeed : l ++ ['\n'] <+: onward s line := ⟨rest, by rw [heq]; simp⟩
  have hover : l ++ ['\n'] <+: before := by
    rcases List.prefix_or_prefix_of_prefix hbefore hfeed with hshort | hlong
    · rcases List.prefix_concat_iff.1 hshort with rfl | hinside
      · exact List.prefix_rfl
      · exact absurd hinside hpast
    · exact hlong
  have hfeeds : utf8Length (l ++ ['\n']) = utf8Length l + 1 := utf8Length_append l ['\n']
  rw [← hfeeds]
  exact utf8Length_le_of_prefix hover

/-- A position on its line does not reach over to a later one. -/
theorem IsBefore.not_reachesOver {before : List Char} (h : IsBefore s line column before) :
    ¬ ReachesOver s line column := by
  obtain ⟨-, l, hl, hinside, hcolumn⟩ := h
  rintro ⟨-, l', -, -, hl', -, -, hpast, -⟩
  obtain rfl := Option.some.inj (hl.symm.trans hl')
  have hle := utf8Length_le_of_prefix hinside
  omega

/-- A position on its line has only one text before it, and what was typed is read off that. -/
theorem IsBefore.staysOnLine {code : String} {before : List Char}
    (h : IsBefore code.toList line column before) : StaysOnLine code line column where
  onLine other hother := by
    have hsame : other = before := Option.some.inj (hother.inText.2.symm.trans h.inText.2)
    rw [hsame, typedBefore_eq, if_pos h.inText.1, h.inText.2, Option.getD_some,
      String.toList_ofList]
    exact isNameEnd_nameTail before
  offLine hoff := absurd h (hoff before)

/-- Where nothing stands before a position on its line, something was typed exactly if the position
reaches over. -/
theorem reachesOver_iff_of_offLine {code : String}
    (hoff : ∀ before, ¬ IsBefore code.toList line column before) :
    ReachesOver code.toList line column ↔ typedBefore code line column ≠ "" := by
  have htyped := typedBefore_eq code line column
  constructor
  · intro hover hempty
    obtain ⟨hin, before, c, hcut, hpart⟩ := hover.inText
    rw [hempty, if_pos hin, hcut, Option.getD_some, eq_comm, String.ofList_eq_empty_iff] at htyped
    rw [nameTail_eq_nil_iff.1 htyped c (by simp)] at hpart
    cases hpart
  · intro hne
    rw [htyped] at hne
    split at hne
    · next hin =>
      obtain ⟨hpos, hline, hcolumn⟩ := hin
      cases hcut : takeBytes? (column - 1) (onward code.toList line) with
      | none =>
        rw [hcut] at hne
        exact absurd rfl hne
      | some before =>
        obtain ⟨hstarts, hbytes⟩ := takeBytes?_eq_some.1 hcut
        have hlt : line - 1 < (splitLines code.toList).length := by
          unfold lineCount at hline
          omega
        have hl := List.getElem?_eq_getElem hlt
        have hpast := line_lt_of_not_prefix hl hstarts fun hinside =>
          hoff before ⟨hpos, _, hl, hinside, by omega⟩
        rw [hcut, Option.getD_some, Ne, String.ofList_eq_empty_iff, nameTail_eq_nil_iff] at hne
        push Not at hne
        obtain ⟨c, hlast, hpart⟩ := hne
        obtain ⟨front, rfl⟩ := List.getLast?_eq_some_iff.1 hlast
        exact ⟨hpos, _, front, c, hl, hstarts, by omega, by omega, by simpa using hpart⟩
    · exact absurd rfl hne

/-- What was typed is read off the line of the position unless the position reaches over to a name on
a later line. -/
theorem staysOnLine_iff (code : String) (line column : Nat) :
    StaysOnLine code line column ↔ ¬ ReachesOver code.toList line column := by
  by_cases hon : ∃ before, IsBefore code.toList line column before
  · obtain ⟨before, hbefore⟩ := hon
    exact iff_of_true hbefore.staysOnLine hbefore.not_reachesOver
  · have hoff := not_exists.1 hon
    have hreach := reachesOver_iff_of_offLine hoff
    constructor
    · exact fun hstays hover => hreach.1 hover (hstays.offLine hoff)
    · exact fun hover => ⟨fun before h => absurd h (hoff before),
        fun _ => of_not_not (mt hreach.2 hover)⟩

/-- A position past the end of a line takes the name on the next line for what was typed. -/
theorem takes_name_of_next_line :
    typedBefore "int a;\nled\n" 1 11 = "led" ∧ ¬ StaysOnLine "int a;\nled\n" 1 11 := by
  refine ⟨by decide +kernel, fun h => ?_⟩
  have hempty := h.offLine fun before hbefore => by
    obtain ⟨-, l, hl, hstarts, hcolumn⟩ := hbefore
    obtain rfl : "int a;".toList = l := Option.some.inj hl
    have hle := utf8Length_le_of_prefix hstarts
    have hsix : utf8Length "int a;".toList = 6 := rfl
    omega
  revert hempty
  decide +kernel

end SketchSense
