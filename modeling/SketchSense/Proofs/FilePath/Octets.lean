import SketchSense.Proofs.FilePath.Composition
import SketchSense.Proofs.FilePath.Spelling

/-!
# Paths of octets and paths that are texts

What is asked of a path of octets has the answer that it has for the text, if the path is a text. The
kind of a path is decided by an ASCII extension, so it does not matter whether the rest is a text.

* `readName?_eq_some_iff`, the names that are read;
* `kind_eq`, the kind of a path octet by octet;
* `OctetPath.IsNormal`, and `agrees_ofText`, that a path that is a text is treated as the text.
-/

namespace SketchSense.OctetPath

open FilePath
open Text (IsAsciiText)

variable {p : OctetPath}

/-! ## Names that are read -/

/-- Every character of the text stands for an octet. -/
def StandsForOctets (s : List Char) : Prop := ∀ c ∈ s, c.toNat < 256

theorem map_ofUInt8_toUInt8 {s : List Char} (h : StandsForOctets s) :
    (s.map Char.toUInt8).map Char.ofUInt8 = s := by
  rw [List.map_map]
  have hback (c : Char) (hc : c ∈ s) : (Char.ofUInt8 ∘ Char.toUInt8) c = id c :=
    Char.ext (UInt32.toNat_inj.1 (Nat.mod_eq_of_lt (h c hc)))
  rw [List.map_congr_left hback, List.map_id]

/-- A name is read as the text that it respells. -/
theorem readName?_eq_some_iff {name text : String} (h : StandsForOctets name.toList) :
    readName? name = some text ↔ respellName text = name := by
  unfold readName?
  rw [Text.textOf?_eq_some_iff, ← String.toList_inj, toList_respellName, respell_toList]
  constructor
  · intro hbytes
    rw [hbytes, map_ofUInt8_toUInt8 h]
  · intro hname
    rw [← hname, map_toUInt8_ofUInt8]

theorem readName?_respellName (text : String) : readName? (respellName text) = some text := by
  unfold readName?
  rw [toList_respellName, respell_toList, map_toUInt8_ofUInt8, Text.textOf?_textBytes]

theorem standsForOctets_spelled (p : OctetPath) : StandsForOctets p.spelled.text.toList := by
  intro c hc
  unfold spelled at hc
  rw [String.toList_ofList] at hc
  obtain ⟨b, -, rfl⟩ := List.mem_map.1 hc
  exact b.toNat_lt

theorem standsForOctets_fileName {name : String} (h : p.spelled.fileName? = some name) :
    StandsForOctets name.toList := by
  unfold fileName? at h
  split at h
  · next before s hsplit =>
    split at h
    · cases h
    · obtain ⟨idle, hsegments, -⟩ := segments_of_splitLast? hsplit
      have hmem : s ∈ p.spelled.segments := by simp [hsegments]
      rw [← Option.some.inj h, String.toList_ofList]
      exact fun c hc => standsForOctets_spelled p c (mem_of_mem_splitSlashes hmem hc)
  · cases h

theorem standsForOctets_extension {ext : String} (h : p.spelled.extension? = some ext) :
    StandsForOctets ext.toList := by
  unfold extension? at h
  obtain ⟨name, hname, hext⟩ := Option.bind_eq_some_iff.1 h
  obtain ⟨last, hlast, rfl⟩ := Option.map_eq_some_iff.1 hext
  obtain ⟨hsplit, -⟩ := eq_of_splitExtension (Prod.ext rfl hlast)
  have hoctets := standsForOctets_fileName hname
  rw [hsplit] at hoctets
  rw [String.toList_ofList]
  exact fun c hc => hoctets c (List.mem_append_right _ (List.mem_cons_of_mem _ hc))

/-! ## Kinds -/

/-- Kinds go with extensions that are ASCII texts. -/
theorem ofExtension_eq_other {ext : String} (h : ¬IsAsciiText ext.toList) :
    FileKind.ofExtension (asciiLower ext) = .other := by
  simp only [IsAsciiText, not_forall, Nat.not_lt] at h
  obtain ⟨c, hc, hle⟩ := h
  have hlower : c ∈ (asciiLower ext).toList := by
    unfold asciiLower
    rw [String.toList_ofList, List.mem_map]
    exact ⟨c, hc, toLower_of_le hle⟩
  have hother (words : List String) (hwords : ∀ w ∈ words, IsAsciiText w.toList) :
      asciiLower ext ∉ words := fun hmem =>
    absurd hle (Nat.not_le_of_lt (hwords _ hmem c hlower))
  unfold FileKind.ofExtension
  rw [if_neg fun h => hother ["ino"] (by decide) (by simp [h]), if_neg (hother _ (by decide)),
    if_neg (hother _ (by decide))]

/-- The kind of a path is that of the path with a character for each octet. -/
theorem kind_eq (p : OctetPath) : p.kind = p.spelled.kind := by
  unfold kind FilePath.kind extensionText?
  cases hext : p.spelled.extension? with
  | none => rfl
  | some ext =>
    have hread {text : String} : readName? ext = some text ↔ respellName text = ext :=
      readName?_eq_some_iff (standsForOctets_extension hext)
    rw [Option.bind_some]
    by_cases hascii : IsAsciiText ext.toList
    · have hsame : respellName ext = ext := by
        rw [respellName, respell_of_ascii hascii, String.ofList_toList]
      rw [hread.2 hsame]
    · refine Eq.trans ?_ (ofExtension_eq_other hascii).symm
      cases htext : readName? ext with
      | none => rfl
      | some text =>
        refine ofExtension_eq_other fun h => hascii ?_
        rwa [← hread.1 htext, toList_respellName, respell_of_ascii h]

/-! ## Paths that are texts -/

variable (t : FilePath)

@[simp] theorem fileNameText?_ofText : (ofText t).fileNameText? = t.fileName? := by
  unfold fileNameText?
  rw [fileName?_spelled_ofText]
  cases t.fileName? with
  | none => rfl
  | some name =>
    rw [Option.map_some, Option.bind_some]
    exact readName?_respellName name

@[simp] theorem kind_ofText : (ofText t).kind = t.kind := by
  unfold kind FilePath.kind extensionText?
  rw [extension?_spelled_ofText]
  cases t.extension? with
  | none => rfl
  | some ext =>
    dsimp only [Option.map_some, Option.bind_some]
    rw [readName?_respellName]

theorem nameEndsWith_ofText (tail : String) :
    (ofText t).nameEndsWith tail = t.nameEndsWith tail := by
  unfold nameEndsWith FilePath.nameEndsWith
  cases hname : t.fileName? with
  | none => rw [fileNameText?_ofText, hname]
  | some name => rw [fileNameText?_ofText, hname]

theorem isAnalyzedEntry_ofText : (ofText t).isAnalyzedEntry = t.isAnalyzedEntry :=
  nameEndsWith_ofText t _

theorem isPrototypeHeader_ofText : (ofText t).isPrototypeHeader = t.isPrototypeHeader :=
  nameEndsWith_ofText t _

theorem append_ofText (tail : String) : (ofText t).append tail = ofText (t.append tail) :=
  congrArg OctetPath.mk (Text.textBytes_append t.text tail).symm

theorem prototypeHeader_ofText : (ofText t).prototypeHeader = ofText t.prototypeHeader :=
  append_ofText t _

theorem analyzedName_ofText : (ofText t).analyzedName = ofText t.analyzedName := by
  unfold analyzedName FilePath.analyzedName
  rw [kind_ofText]
  split
  · exact append_ofText t _
  · rfl

/-- The octets of a respelled text are those of the text. -/
theorem ofSpelled_respelled (s : List Char) :
    ofSpelled ⟨String.ofList (respell s)⟩ = ofText ⟨String.ofList s⟩ := by
  unfold ofSpelled ofText
  rw [String.toList_ofList, respell_eq, map_toUInt8_ofUInt8]

theorem withoutExtension_ofText :
    (ofText t).withoutExtension = ofText t.withoutExtension := by
  unfold withoutExtension FilePath.withoutExtension
  rw [splitLast?_spelled_ofText]
  rcases t.splitLast? with _ | ⟨before, s⟩
  · exact ofSpelled_spelled _
  · have hup : respell s = ['.', '.'] ↔ s = ['.', '.'] := respell_eq_iff (by decide)
    dsimp only [Option.map_some]
    simp only [hup]
    split
    · exact ofSpelled_spelled _
    · rw [splitExtension_respell, ← ofSpelled_respelled, respell_joinSlashes, List.map_append]
      rfl

theorem editedName_ofText : (ofText t).editedName = ofText t.editedName := by
  unfold editedName FilePath.editedName
  rw [isAnalyzedEntry_ofText, isPrototypeHeader_ofText]
  split
  · exact withoutExtension_ofText t
  · rfl

theorem parent?_ofText : (ofText t).parent? = t.parent?.map ofText := by
  have htrim (segs : List (List Char)) :
      trimSegments (segs.map respell) = (trimSegments segs).map respell := by
    cases segs with
    | nil => rfl
    | cons first rest =>
      have hidle : isIdle ∘ respell = isIdle := funext isIdle_respell
      rw [List.map_cons, trimSegments, trimSegments, ← List.map_reverse, List.dropWhile_map, hidle,
        ← List.map_reverse, List.map_cons]
  have hwritten (segs : List (List Char)) :
      ofSpelled (ofSegments t.isAbsolute (segs.map respell)) =
        ofText (ofSegments t.isAbsolute segs) := by
    have hroot : segs.map respell = [[]] ↔ segs = [[]] :=
      (List.map_injective_iff.2 respell_injective).eq_iff (b := [[]])
    unfold ofSegments
    simp only [hroot]
    split
    · rfl
    · rw [← respell_joinSlashes, ofSpelled_respelled]
  have hcurrent : t.components.map respellStep = [.current] ↔ t.components = [.current] := by
    rw [List.map_eq_singleton_iff]
    refine ⟨?_, fun h => ⟨_, h, rfl⟩⟩
    rintro ⟨step, hstep, hcurrent⟩
    cases step <;> cases hcurrent
    exact hstep
  unfold parent? FilePath.parent?
  rw [splitLast?_spelled_ofText]
  rcases t.splitLast? with _ | ⟨before, s⟩
  · dsimp only [Option.map_none]
    rw [components_spelled_ofText]
    simp only [hcurrent]
    split <;> rfl
  · dsimp only [Option.map_some]
    rw [isAbsolute_spelled_ofText, htrim, hwritten]

theorem display_ofText : (ofText t).display = t.display := by
  unfold display ofText
  rw [Text.lossyText_textBytes]

/-- A path that is written as a normal path. -/
def IsNormal (p : OctetPath) : Prop := p.spelled.IsNormal

/-- The octets of a normal path that is a text are those of a normal path. -/
theorem isNormal_ofText (h : t.IsNormal) : (ofText t).IsNormal := by
  obtain ⟨n, hplain, rfl⟩ := h
  refine ⟨⟨n.absolute, n.names.map respellName⟩, ?_, eq_of_toList_eq ?_⟩
  · intro name hname
    obtain ⟨s, hs, rfl⟩ := List.mem_map.1 hname
    obtain ⟨hidle, hup, hslash⟩ := hplain s hs
    rw [toList_respellName]
    refine ⟨(isIdle_respell _).trans hidle, ?_, mt (mem_respell_iff (by decide)).1 hslash⟩
    rwa [ne_eq, respell_eq_iff (by decide)]
  · have hlead : respell (if n.absolute then ['/'] else []) = if n.absolute then ['/'] else [] := by
      refine respell_of_ascii ?_
      split <;> decide
    have hnames : (n.names.map respellName).map String.toList =
        (n.names.map String.toList).map respell := by
      rw [List.map_map, List.map_map]
      exact List.map_congr_left fun name _ => toList_respellName name
    rw [toList_toFilePath, toList_spelled_ofText, toList_toFilePath, respell_append, hlead,
      respell_joinSlashes, hnames]

/-- A path that is a text is treated as the text is. -/
theorem agrees_ofText :
    (t.IsNormal → (ofText t).IsNormal) ∧ (ofText t).kind = t.kind ∧
      (ofText t).parent? = t.parent?.map ofText ∧ (ofText t).display = t.display ∧
      (ofText t).analyzedName = ofText t.analyzedName ∧
      (ofText t).prototypeHeader = ofText t.prototypeHeader ∧
      (ofText t).isAnalyzedEntry = t.isAnalyzedEntry ∧
      (ofText t).isPrototypeHeader = t.isPrototypeHeader ∧
      (ofText t).editedName = ofText t.editedName :=
  ⟨isNormal_ofText t, kind_ofText t, parent?_ofText t, display_ofText t, analyzedName_ofText t,
    prototypeHeader_ofText t, isAnalyzedEntry_ofText t, isPrototypeHeader_ofText t,
    editedName_ofText t⟩

end SketchSense.OctetPath
