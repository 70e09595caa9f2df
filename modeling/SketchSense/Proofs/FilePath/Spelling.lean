import SketchSense.FilePath.Octets
import SketchSense.Proofs.FilePath.Names
import SketchSense.Proofs.Text.Lossy

/-!
# Paths that are texts, octet by octet

A path that is a text has the octets of its UTF-8 form. An ASCII character is one octet there and no
other character has an ASCII octet, so separators and dots are where they are in the text: taking such
a path apart octet by octet gives what taking the text apart gives.

* `respell`, a text with a character for each octet, with `respell_injective`;
* `splitSlashes_respell` and `splitExtension_respell`, that a respelled text is cut where the text is;
* `components_spelled` and `splitLast?_spelled`, the steps of a path that is a text.
-/

namespace SketchSense.OctetPath

open ContentHash (textBytes)
open Text (IsAsciiText)

/-! ## Octets as characters -/

@[simp] theorem toUInt8_ofUInt8 (b : UInt8) : (Char.ofUInt8 b).toUInt8 = b := UInt8.toUInt8_toUInt32 b

theorem ofUInt8_injective : Function.Injective Char.ofUInt8 := by
  intro b c h
  rw [← toUInt8_ofUInt8 b, h, toUInt8_ofUInt8]

@[simp] theorem map_toUInt8_ofUInt8 (bs : List UInt8) :
    (bs.map Char.ofUInt8).map Char.toUInt8 = bs := by
  rw [List.map_map]
  exact List.map_id'' toUInt8_ofUInt8 bs

/-- Nothing is lost when a path is spelled. -/
theorem ofSpelled_spelled (p : OctetPath) : ofSpelled p.spelled = p := by
  unfold ofSpelled spelled
  rw [String.toList_ofList, map_toUInt8_ofUInt8]

theorem spelled_injective : Function.Injective spelled := by
  intro p q h
  rw [← ofSpelled_spelled p, h, ofSpelled_spelled]

/-! ## Respelled texts -/

/-- The octets of a text, a character for each. -/
def respell (s : List Char) : List Char := (s.flatMap String.utf8EncodeChar).map Char.ofUInt8

theorem respell_eq (s : List Char) :
    respell s = (textBytes (String.ofList s)).map Char.ofUInt8 := by
  rw [ContentHash.textBytes_eq, String.toList_ofList, respell]

theorem respell_toList (s : String) : respell s.toList = (textBytes s).map Char.ofUInt8 := by
  rw [respell_eq, String.ofList_toList]

theorem respell_append (s t : List Char) : respell (s ++ t) = respell s ++ respell t := by
  unfold respell
  rw [List.flatMap_append, List.map_append]

theorem respell_cons (c : Char) (s : List Char) : respell (c :: s) = respell [c] ++ respell s :=
  respell_append [c] s

theorem respell_injective : Function.Injective respell := by
  intro s t h
  rw [respell_eq, respell_eq] at h
  have hbytes := List.map_injective_iff.2 ofUInt8_injective h
  exact String.ofList_injective (ContentHash.textBytes_injective hbytes)

theorem respell_singleton {c : Char} (h : c.toNat < 128) : respell [c] = [c] := by
  unfold respell
  rw [List.flatMap_singleton, Text.utf8EncodeChar_of_ascii h, List.map_singleton]
  refine congrArg (· :: []) (Char.ext (UInt32.toNat_inj.1 ?_))
  exact Text.toNat_toUInt8 h

/-- What a character that is not of ASCII is respelled with is not of ASCII. -/
theorem le_of_mem_respell_singleton {c d : Char} (h : 128 ≤ c.toNat) (hd : d ∈ respell [c]) :
    128 ≤ d.toNat := by
  unfold respell at hd
  rw [List.flatMap_singleton] at hd
  obtain ⟨b, hb, rfl⟩ := List.mem_map.1 hd
  exact Text.le_of_mem_utf8EncodeChar h hb

/-- An ASCII text is its own octets. -/
theorem respell_of_ascii {s : List Char} (h : IsAsciiText s) : respell s = s := by
  induction s with
  | nil => rfl
  | cons c s ih =>
    obtain ⟨hc, hs⟩ := List.forall_mem_cons.1 h
    rw [respell_cons, respell_singleton hc, ih hs, List.singleton_append]

theorem respell_eq_iff {s t : List Char} (h : IsAsciiText t) : respell s = t ↔ s = t := by
  rw [← respell_injective.eq_iff (a := s), respell_of_ascii h]

/-- An ASCII character is where it was. -/
theorem mem_respell_iff {c : Char} (h : c.toNat < 128) {s : List Char} :
    c ∈ respell s ↔ c ∈ s := by
  induction s with
  | nil => exact Iff.rfl
  | cons d s ih =>
    rw [respell_cons, List.mem_append, List.mem_cons, ih]
    refine or_congr_left ?_
    by_cases hd : d.toNat < 128
    · rw [respell_singleton hd, List.mem_singleton]
    · refine ⟨fun hmem => ?_, ?_⟩
      · exact absurd (le_of_mem_respell_singleton (Nat.le_of_not_lt hd) hmem) (Nat.not_le_of_lt h)
      · rintro rfl
        exact absurd h hd

/-! ## Capitals -/

theorem toLower_of_le {c : Char} (h : 128 ≤ c.toNat) : c.toLower = c := by
  unfold Char.toLower
  refine dif_neg ?_
  rintro ⟨-, hle⟩
  have hle : c.toNat ≤ 90 := hle
  omega

/-! ## Where texts are cut -/

open FilePath

theorem respell_joinSlashes (segs : List (List Char)) :
    respell (joinSlashes segs) = joinSlashes (segs.map respell) := by
  induction segs with
  | nil => rfl
  | cons s segs ih =>
    cases segs with
    | nil => rfl
    | cons t ts =>
      rw [joinSlashes_cons_cons, respell_append, respell_cons, respell_singleton (by decide), ih]
      rfl

theorem joinSlashes_splitSlashes (s : List Char) : joinSlashes (splitSlashes s) = s := by
  induction s with
  | nil => rfl
  | cons c s ih =>
    unfold splitSlashes
    cases hs : splitSlashes s with
    | nil => exact absurd hs (splitSlashes_ne_nil s)
    | cons t ts =>
      rw [hs] at ih
      split
      · next hc =>
        rw [joinSlashes_cons_cons, ih, hc, List.nil_append]
      · cases ts with
        | nil => exact congrArg (c :: ·) ih
        | cons u us => exact congrArg (c :: ·) ih

/-- A respelled text has its separators where the text has them. -/
theorem splitSlashes_respell (s : List Char) :
    splitSlashes (respell s) = (splitSlashes s).map respell := by
  have hparts : respell s = joinSlashes ((splitSlashes s).map respell) := by
    rw [← respell_joinSlashes, joinSlashes_splitSlashes]
  rw [hparts]
  refine splitSlashes_joinSlashes ?_ ?_
  · exact mt List.map_eq_nil_iff.1 (splitSlashes_ne_nil s)
  · intro t ht
    obtain ⟨u, hu, rfl⟩ := List.mem_map.1 ht
    exact mt (mem_respell_iff (by decide)).1 (not_mem_of_mem_splitSlashes hu)

@[simp] theorem isIdle_respell (s : List Char) : isIdle (respell s) = isIdle s := by
  have hempty : respell s = [] ↔ s = [] := respell_eq_iff (by decide)
  have hcurrent : respell s = ['.'] ↔ s = ['.'] := respell_eq_iff (by decide)
  simp only [isIdle, hempty, hcurrent]

/-- A respelled name has its extension where the name has it. -/
theorem splitExtension_respell (name : List Char) :
    splitExtension (respell name) =
      (respell (splitExtension name).1, (splitExtension name).2.map respell) := by
  by_cases hdot : '.' ∈ name
  · obtain ⟨before, after, hname, hlast⟩ := List.eq_append_cons_of_mem (List.mem_reverse.2 hdot)
    have hsplit : name = after.reverse ++ '.' :: before.reverse := by
      simpa using congrArg List.reverse hname
    have hext : '.' ∉ before.reverse := mt List.mem_reverse.1 hlast
    have hext' : '.' ∉ respell before.reverse := mt (mem_respell_iff (by decide)).1 hext
    have hrespelled : respell name = respell after.reverse ++ '.' :: respell before.reverse := by
      rw [hsplit, respell_append, respell_cons, respell_singleton (by decide),
        List.singleton_append]
    rw [hrespelled, splitExtension_append _ hext', hsplit, splitExtension_append _ hext]
    have hstem : respell after.reverse = [] ↔ after.reverse = [] := respell_eq_iff (by decide)
    by_cases hnil : after.reverse = []
    · rw [if_pos (hstem.2 hnil), if_pos hnil]
      dsimp only [Option.map_none]
      rw [respell_cons, respell_singleton (by decide), List.singleton_append]
    · rw [if_neg (mt hstem.1 hnil), if_neg hnil]
      rfl
  · rw [splitExtension_of_not_mem hdot,
      splitExtension_of_not_mem (mt (mem_respell_iff (by decide)).1 hdot)]
    rfl

/-! ## Paths that are texts -/

/-- A name with a character for each of its octets. -/
def respellName (name : String) : String := String.ofList (respell name.toList)

/-- A step with a character for each octet of its name. -/
def respellStep : Component → Component
  | .name s => .name (respellName s)
  | step => step

theorem toList_respellName (name : String) : (respellName name).toList = respell name.toList :=
  String.toList_ofList

section

variable (p : FilePath)

theorem toList_spelled_ofText : (ofText p).spelled.text.toList = respell p.text.toList := by
  rw [respell_toList]
  exact String.toList_ofList

theorem segments_spelled_ofText : (ofText p).spelled.segments = p.segments.map respell := by
  unfold segments
  rw [toList_spelled_ofText, splitSlashes_respell]

theorem isAbsolute_spelled_ofText : (ofText p).spelled.isAbsolute = p.isAbsolute := by
  unfold isAbsolute
  rw [toList_spelled_ofText]
  cases p.text.toList with
  | nil => rfl
  | cons c s =>
    rw [respell_cons]
    by_cases hc : c.toNat < 128
    · rw [respell_singleton hc]
      rfl
    · -- neither the character nor the first of its octets is a separator
      have hle := Nat.le_of_not_lt hc
      have hother {d : Char} (h : 128 ≤ d.toNat) : (some d == some '/') = false := by
        rw [beq_eq_false_iff_ne, ne_eq, Option.some.injEq]
        rintro rfl
        exact absurd h (by decide)
      cases hoctets : respell [c] with
      | nil => exact absurd ((respell_eq_iff (by decide)).1 hoctets) (List.cons_ne_nil c [])
      | cons d ds =>
        have hd := le_of_mem_respell_singleton hle (hoctets ▸ List.mem_cons_self)
        exact (hother hd).trans (hother hle).symm

/-- The steps of a path that is a text are those of the text. -/
theorem components_spelled_ofText :
    (ofText p).spelled.components = p.components.map respellStep := by
  have hstep (s : List Char) : componentOf (respell s) = respellStep (componentOf s) := by
    have hup : respell s = ['.', '.'] ↔ s = ['.', '.'] := respell_eq_iff (by decide)
    unfold componentOf
    simp only [hup]
    split
    · rfl
    · show _ = Component.name (respellName (String.ofList s))
      rw [respellName, String.toList_ofList]
  have hcurrent : (p.segments.map respell).head? = some ['.'] ↔ p.segments.head? = some ['.'] := by
    cases p.segments with
    | nil => exact Iff.rfl
    | cons s segs =>
      rw [List.map_cons, List.head?_cons, List.head?_cons, Option.some.injEq, Option.some.injEq]
      exact respell_eq_iff (by decide)
  unfold components
  dsimp only
  rw [segments_spelled_ofText, isAbsolute_spelled_ofText, List.map_append]
  refine congrArg₂ (· ++ ·) ?_ ?_
  · simp only [hcurrent]
    split
    · rfl
    · split <;> rfl
  · rw [List.filter_map, List.map_map, List.map_map]
    have hidle : (!isIdle ·) ∘ respell = (!isIdle ·) := funext fun s => by simp
    rw [hidle]
    exact List.map_congr_left fun s _ => hstep s

/-- The last step is the respelled one, and what is in front of it is respelled. -/
theorem splitLast?_spelled_ofText :
    (ofText p).spelled.splitLast? = p.splitLast?.map fun l => (l.1.map respell, respell l.2) := by
  have hidle : isIdle ∘ respell = isIdle := funext isIdle_respell
  unfold splitLast?
  rw [segments_spelled_ofText, ← List.map_reverse, List.dropWhile_map, hidle]
  cases p.segments.reverse.dropWhile isIdle with
  | nil => rfl
  | cons s before => simp

theorem fileName?_spelled_ofText :
    (ofText p).spelled.fileName? = p.fileName?.map respellName := by
  unfold fileName?
  rw [splitLast?_spelled_ofText]
  rcases p.splitLast? with _ | ⟨before, s⟩
  · rfl
  · have hup : respell s = ['.', '.'] ↔ s = ['.', '.'] := respell_eq_iff (by decide)
    dsimp only [Option.map_some]
    simp only [hup]
    split
    · rfl
    · rw [Option.map_some, respellName, String.toList_ofList]

theorem extension?_spelled_ofText :
    (ofText p).spelled.extension? = p.extension?.map respellName := by
  unfold extension?
  rw [fileName?_spelled_ofText]
  cases p.fileName? with
  | none => rfl
  | some name =>
    dsimp only [Option.map_some, Option.bind_some]
    rw [toList_respellName, splitExtension_respell]
    cases (splitExtension name.toList).2 with
    | none => rfl
    | some ext => simp [respellName]

end

end SketchSense.OctetPath
