import SketchSense.Proofs.FilePath.Faithful
import SketchSense.Proofs.FilePath.Octets

/-!
# Names made for sketches whose names are octets

The names made for a sketch stand beside it and are its own whatever its octets are. But a name is
known as a made one by the text that it is, so the names made for a sketch whose name is not a text are
taken for files of their own.

* `readName?_append`, that a name with text behind it is read exactly if the name is;
* `nameEndsWith_append_of_sketch`, when a name made for a sketch is known;
* `OctetPath.syntheticNames_of_octets`, what holds of the names made for any sketch.
-/

namespace SketchSense.OctetPath

open FilePath
open Text (IsAsciiText)

variable {p q f g : OctetPath}

/-! ## Text behind a name -/

/-- ASCII text behind the octets of a text is the end of the text. -/
theorem exists_of_respell_eq_append {s octets tail : List Char} (htail : IsAsciiText tail)
    (h : respell s = octets ++ tail) : ∃ front, s = front ++ tail ∧ respell front = octets := by
  induction s generalizing octets with
  | nil =>
    obtain ⟨rfl, rfl⟩ := List.append_eq_nil_iff.1 h.symm
    exact ⟨[], rfl, rfl⟩
  | cons c s ih =>
    rw [respell_cons] at h
    rcases List.append_eq_append_iff.1 h with ⟨more, rfl, hmore⟩ | ⟨more, hfirst, htext⟩
    · obtain ⟨front, rfl, rfl⟩ := ih hmore
      exact ⟨c :: front, rfl, respell_cons c front⟩
    · -- the octets end within those of the first character, and all others are the text behind
      obtain ⟨hmore, hrest⟩ := List.forall_mem_append.1 (htext ▸ htail)
      have hs : respell s = s := respell_injective (respell_of_ascii hrest)
      rw [hs] at htext
      cases more with
      | nil =>
        rw [List.append_nil] at hfirst
        exact ⟨[c], congrArg (c :: ·) htext.symm, hfirst⟩
      | cons d more =>
        have hc : c.toNat < 128 := by
          by_contra hnot
          have hd : d ∈ respell [c] := hfirst ▸ List.mem_append_right _ List.mem_cons_self
          have hle := le_of_mem_respell_singleton (Nat.le_of_not_lt hnot) hd
          exact absurd (hmore d List.mem_cons_self) (Nat.not_lt_of_le hle)
        rw [respell_singleton hc] at hfirst
        obtain ⟨rfl, hone⟩ | ⟨-, hnone⟩ := List.singleton_eq_append_iff.1 hfirst
        · refine ⟨[], ?_, rfl⟩
          rw [htext, hone]
          rfl
        · cases hnone

/-- A name with ASCII text behind it is read exactly if the name is. -/
theorem readName?_append {name tail : String} (hname : StandsForOctets name.toList)
    (htail : IsAsciiText tail.toList) :
    readName? (name ++ tail) = (readName? name).map (· ++ tail) := by
  have hboth : StandsForOctets (name ++ tail).toList := by
    rw [String.toList_append]
    refine List.forall_mem_append.2 ⟨hname, fun c hc => ?_⟩
    exact Nat.lt_trans (htail c hc) (by decide)
  refine Option.ext fun text => ?_
  rw [Option.map_eq_some_iff, readName?_eq_some_iff hboth]
  constructor
  · intro htext
    have hchars := congrArg String.toList htext
    rw [toList_respellName, String.toList_append] at hchars
    obtain ⟨front, hfront, hoctets⟩ := exists_of_respell_eq_append htail hchars
    refine ⟨String.ofList front, (readName?_eq_some_iff hname).2 ?_, ?_⟩
    · rw [respellName, String.toList_ofList, hoctets, String.ofList_toList]
    · rw [← String.toList_inj, String.toList_append, String.toList_ofList, hfront]
  · rintro ⟨front, hfront, rfl⟩
    rw [← (readName?_eq_some_iff hname).1 hfront, ← String.toList_inj, String.toList_append,
      toList_respellName, toList_respellName, String.toList_append, respell_append,
      respell_of_ascii htail]

/-! ## Names made for a sketch -/

/-- The names made for a sketch: the one that it is analysed under, and that of its header. -/
def syntheticNames (p : OctetPath) : List OctetPath := [p.analyzedName, p.prototypeHeader]

theorem spelled_append {tail : String} (htail : IsAsciiText tail.toList) :
    (p.append tail).spelled = p.spelled.append tail := by
  refine eq_of_toList_eq ?_
  unfold append spelled FilePath.append
  rw [String.toList_append, String.toList_ofList, String.toList_ofList, List.map_append,
    ← respell_toList, respell_of_ascii htail]

/-- What is ASCII in small letters is ASCII. -/
theorem toNat_lt_of_map_toLower {s t : List Char} (h : s.map Char.toLower = t)
    (ht : IsAsciiText t) : IsAsciiText s := by
  intro c hc
  by_contra hnot
  have hmem : c ∈ t := by
    rw [← h, ← toLower_of_le (Nat.le_of_not_lt hnot)]
    exact List.mem_map_of_mem hc
  exact hnot (ht c hmem)

section

variable (hkind : p.kind = .sketchEntry)

include hkind

theorem spelled_analyzedName : p.analyzedName.spelled = p.spelled.analyzedName := by
  rw [analyzedName, if_pos hkind, FilePath.analyzedName, if_pos (kind_eq p ▸ hkind)]
  exact spelled_append (by decide)

/-- The names made for a sketch, octet by octet, are those made for what it spells. -/
theorem map_spelled_syntheticNames :
    p.syntheticNames.map spelled = p.spelled.syntheticNames := by
  have hheader : p.prototypeHeader.spelled = p.spelled.prototypeHeader :=
    spelled_append (by decide)
  show [_, _] = [_, _]
  rw [spelled_analyzedName hkind, hheader]

variable (hnormal : p.IsNormal)

include hnormal

section

variable {ext : List Char} (hascii : IsAsciiText ('.' :: ext)) (hslash : '/' ∉ ext)
  (hlong : 1 < ext.length)

include hascii hslash hlong

/-- With an extension behind it the name of a sketch is a text if it was one. -/
theorem fileNameText?_append :
    (p.append (String.ofList ('.' :: ext))).fileNameText? =
      p.fileNameText?.map (· ++ String.ofList ('.' :: ext)) := by
  have htail : IsAsciiText (String.ofList ('.' :: ext)).toList := by
    rwa [String.toList_ofList]
  have hname := hnormal.fileName?_eq (kind_eq p ▸ hkind)
  unfold fileNameText?
  rw [spelled_append htail, fileName?_append_extension _ hslash hlong, hname, Option.bind_some,
    Option.bind_some, String.ofList_append, readName?_append (standsForOctets_fileName hname) htail]

/-- A name that is made for a sketch is known exactly if that of the sketch is a text. -/
theorem nameEndsWith_append_of_sketch (hlower : ext.map Char.toLower = ext) :
    (p.append (String.ofList ('.' :: ext))).nameEndsWith
      (String.ofList ('.' :: 'i' :: 'n' :: 'o' :: '.' :: ext)) = p.fileNameText?.isSome := by
  have hspelled : p.spelled.kind = .sketchEntry := kind_eq p ▸ hkind
  have hname := hnormal.fileName?_eq hspelled
  obtain ⟨stem, ino, hsegment, hstem, hino⟩ := exists_extension_of_sketch hname hspelled
  unfold nameEndsWith
  rw [fileNameText?_append hkind hnormal hascii hslash hlong]
  cases htext : p.fileNameText? with
  | none => rfl
  | some text =>
    -- the text ends with the extension that its octets end with
    have hrespelled : respell text.toList = stem ++ '.' :: ino := by
      rw [fileNameText?, hname, Option.bind_some,
        readName?_eq_some_iff (standsForOctets_fileName hname)] at htext
      rw [← toList_respellName, htext, String.toList_ofList, hsegment]
    have hsmall : IsAsciiText ('.' :: ino) :=
      List.forall_mem_cons.2 ⟨by decide, toNat_lt_of_map_toLower hino (by decide)⟩
    obtain ⟨front, hfront, hoctets⟩ := exists_of_respell_eq_append hsmall hrespelled
    have hne : front ≠ [] := by
      rintro rfl
      exact hstem hoctets.symm
    obtain ⟨hsize, hends⟩ := endsWith_of_sketch hlower hne hino
    have hwritten : text ++ String.ofList ('.' :: ext) =
        String.ofList (front ++ '.' :: ino ++ '.' :: ext) := by
      rw [String.ofList_append, ← hfront, String.ofList_toList]
    dsimp only [Option.map_some, Option.isSome_some]
    rw [hwritten, hends, decide_eq_true hsize, Bool.true_and]

end

theorem isAnalyzedEntry_analyzedName_eq :
    p.analyzedName.isAnalyzedEntry = p.fileNameText?.isSome := by
  rw [analyzedName, if_pos hkind]
  exact nameEndsWith_append_of_sketch hkind hnormal (by decide) (by decide) (by decide) (by decide)

theorem isPrototypeHeader_prototypeHeader_eq :
    p.prototypeHeader.isPrototypeHeader = p.fileNameText?.isSome :=
  nameEndsWith_append_of_sketch hkind hnormal (by decide) (by decide) (by decide) (by decide)

/-- Each name made for a sketch whose name is a text leads back to it, and the others to none. -/
theorem editedName_of_mem_octetNames (hf : f ∈ p.syntheticNames) :
    f.editedName = if p.fileNameText?.isSome then p else f := by
  have hmade := hf
  unfold syntheticNames at hmade
  rw [List.mem_cons, List.mem_singleton] at hmade
  cases htext : p.fileNameText? with
  | none =>
    have hnone : f.fileNameText? = none := by
      rcases hmade with rfl | rfl
      · rw [analyzedName, if_pos hkind]
        exact (fileNameText?_append hkind hnormal (by decide) (by decide) (by decide)).trans
          (congrArg _ htext)
      · exact (fileNameText?_append hkind hnormal (by decide) (by decide) (by decide)).trans
          (congrArg _ htext)
    have hunknown (tail : String) : f.nameEndsWith tail = false := by
      unfold nameEndsWith
      rw [hnone]
    unfold editedName isAnalyzedEntry isPrototypeHeader
    rw [hunknown, hunknown]
    rfl
  | some text =>
    have hknown : (f.isAnalyzedEntry || f.isPrototypeHeader) = true := by
      rcases hmade with rfl | rfl
      · rw [isAnalyzedEntry_analyzedName_eq hkind hnormal, htext]
        rfl
      · rw [isPrototypeHeader_prototypeHeader_eq hkind hnormal, htext]
        exact Bool.or_true _
    have hspelled : f.spelled ∈ p.spelled.syntheticNames :=
      map_spelled_syntheticNames hkind ▸ List.mem_map_of_mem hf
    have hback := (hasExtension_of_mem_syntheticNames (kind_eq p ▸ hkind) hnormal hspelled).back
    unfold editedName
    rw [if_pos hknown, withoutExtension, hback, ofSpelled_spelled]
    rfl

end

/-- The names made for a sketch with a normal path are of the kinds that they are made for, are files
of its directory, no two of the three are the same, and no other sketch has one of them. If the name
of the sketch is a text, they are known as what they are and lead back to it; else they are taken for
files of their own. -/
theorem syntheticNames_of_octets (hkind : p.kind = .sketchEntry) (hnormal : p.IsNormal) :
    (p.analyzedName.isAnalyzedEntry = p.fileNameText?.isSome ∧ p.analyzedName.kind = .source) ∧
      (p.prototypeHeader.isPrototypeHeader = p.fileNameText?.isSome ∧
        p.prototypeHeader.kind = .header) ∧
      (∀ f ∈ p.syntheticNames, f.editedName = if p.fileNameText?.isSome then p else f) ∧
      (∃ dir, ∀ f ∈ p :: p.syntheticNames, f.parent? = some dir) ∧
      ((p :: p.syntheticNames).Pairwise fun f g => (f == g) = false) ∧
      ∀ q : OctetPath, q.kind = .sketchEntry → q.IsNormal → q ≠ p →
        ∀ f ∈ p.syntheticNames, ∀ g ∈ q.syntheticNames, (f == g) = false := by
  -- kinds, directories and equality are a matter of the octets, and so of what they spell
  have hspelled (q : OctetPath) (hq : q.kind = .sketchEntry) : q.spelled.kind = .sketchEntry :=
    kind_eq q ▸ hq
  have hmem {q f : OctetPath} (hq : q.kind = .sketchEntry) (hf : f ∈ q.syntheticNames) :
      f.spelled ∈ q.spelled.syntheticNames :=
    map_spelled_syntheticNames hq ▸ List.mem_map_of_mem hf
  obtain ⟨⟨-, hsource⟩, ⟨-, hheader⟩, -, ⟨dir, hdir⟩, hapart, hothers⟩ :=
    FilePath.syntheticNames_faithful (hspelled p hkind) hnormal
  refine ⟨⟨isAnalyzedEntry_analyzedName_eq hkind hnormal, ?_⟩,
    ⟨isPrototypeHeader_prototypeHeader_eq hkind hnormal, ?_⟩,
    fun f => editedName_of_mem_octetNames hkind hnormal, ?_, ?_, ?_⟩
  · rw [kind_eq, spelled_analyzedName hkind, hsource]
  · rw [kind_eq, prototypeHeader, spelled_append (by decide)]
    exact hheader
  · refine ⟨ofSpelled dir, ?_⟩
    intro f hf
    unfold parent?
    rw [hdir f.spelled ?_]
    · rfl
    · rcases List.mem_cons.1 hf with rfl | hf
      · exact List.mem_cons_self
      · exact List.mem_cons_of_mem _ (hmem hkind hf)
  · rw [← map_spelled_syntheticNames hkind, ← List.map_cons] at hapart
    exact List.pairwise_map.1 hapart
  · intro q hkind' hnormal' hne f hf g hg
    exact hothers q.spelled (hspelled q hkind') hnormal' (spelled_injective.ne hne) f.spelled
      (hmem hkind hf) g.spelled (hmem hkind' hg)

/-- Two sketches whose names are texts, in a directory whose name is not, and which differ only in the
case of their extensions. -/
theorem syntheticNames_of_octets_in_directory :
    (OctetPath.append ⟨[47, 255, 47]⟩ ".hid.den.INO").kind = .sketchEntry ∧
      (OctetPath.append ⟨[47, 255, 47]⟩ ".hid.den.INO").IsNormal ∧
      (OctetPath.append ⟨[47, 255, 47]⟩ ".hid.den.INO.cpp").isAnalyzedEntry = true ∧
      (OctetPath.append ⟨[47, 255, 47]⟩ ".hid.den.INO.hpp").editedName =
        .append ⟨[47, 255, 47]⟩ ".hid.den.INO" ∧
      (OctetPath.append ⟨[47, 255, 47]⟩ ".hid.den.INO.cpp" ==
        .append ⟨[47, 255, 47]⟩ ".hid.den.ino.cpp") = false := by
  have hkind : (OctetPath.append ⟨[47, 255, 47]⟩ ".hid.den.INO").kind = .sketchEntry := by
    decide +kernel
  have hnormal : (OctetPath.append ⟨[47, 255, 47]⟩ ".hid.den.INO").IsNormal :=
    isNormal_normalize ⟨"./.hid.den.INO"⟩ ⟨"/ÿ"⟩
  have hnormal' : (OctetPath.append ⟨[47, 255, 47]⟩ ".hid.den.ino").IsNormal :=
    isNormal_normalize ⟨"./.hid.den.ino"⟩ ⟨"/ÿ"⟩
  have htext : (OctetPath.append ⟨[47, 255, 47]⟩ ".hid.den.INO").fileNameText?.isSome = true := by
    decide +kernel
  obtain ⟨⟨hentry, -⟩, -, hback, -, -, hothers⟩ := syntheticNames_of_octets hkind hnormal
  rw [htext] at hentry hback
  have hdistinct : OctetPath.append ⟨[47, 255, 47]⟩ ".hid.den.ino" ≠
      .append ⟨[47, 255, 47]⟩ ".hid.den.INO" := fun h =>
    absurd (congrArg OctetPath.octets h) (by decide +kernel)
  have hother := hothers (.append ⟨[47, 255, 47]⟩ ".hid.den.ino") (by decide +kernel) hnormal'
    hdistinct _ List.mem_cons_self _ List.mem_cons_self
  exact ⟨hkind, hnormal, hentry, hback _ (List.mem_cons_of_mem _ List.mem_cons_self), hother⟩

/-- A sketch whose name starts with an octet that no text has there: its names are not known, and are
not led back to it. -/
theorem syntheticNames_unknown_of_octet :
    (⟨[47, 115, 47, 255, 46, 105, 110, 111]⟩ : OctetPath).kind = .sketchEntry ∧
      (⟨[47, 115, 47, 255, 46, 105, 110, 111]⟩ : OctetPath).IsNormal ∧
      (⟨[47, 115, 47, 255, 46, 105, 110, 111]⟩ : OctetPath).analyzedName.isAnalyzedEntry = false ∧
      (⟨[47, 115, 47, 255, 46, 105, 110, 111]⟩ : OctetPath).prototypeHeader.isPrototypeHeader =
        false ∧
      ∀ f ∈ (⟨[47, 115, 47, 255, 46, 105, 110, 111]⟩ : OctetPath).syntheticNames,
        f.editedName.octets ≠ [47, 115, 47, 255, 46, 105, 110, 111] :=
  ⟨by decide +kernel, isNormal_normalize ⟨"/s/ÿ.ino"⟩ ⟨"/"⟩, by decide +kernel, by decide +kernel,
    by decide +kernel⟩

end SketchSense.OctetPath
