import Mathlib.Data.List.TakeWhile
import SketchSense.FilePath.Sketch
import SketchSense.Proofs.FilePath.Normal

/-!
# Names of synthetic files

Text written after a path changes the path's last segment only, so the name under which a sketch is
analysed is neither the sketch nor its generated header, whatever the path looks like.

* `fileName?_eq`, the file name by the last step, with `kind_eq_of_beq`;
* `lastSegment` and `fileName?_append`, the file name of a path with text written after it;
* the names around a sketch: `analyzedName_ne`, `prototypeHeader_ne_analyzedName` and
  `not_isPrototypeHeader_analyzedName`;
* `IsNormal`, a path that is written as a normal path;
* `nameEndsWith_append`, that names made for sketches are known, with
  `isPrototypeHeader_prototypeHeader` and `isAnalyzedEntry_analyzedName`.
-/

namespace SketchSense.FilePath

variable {p q : FilePath} {tail : String}

/-! ## File names and steps -/

theorem head?_dropWhile_reverse (segs : List (List Char)) :
    (segs.reverse.dropWhile isIdle).head? = (segs.filter (!isIdle ·)).getLast? := by
  rw [List.getLast?_eq_head?_reverse, ← List.filter_reverse, List.head?_filter,
    List.find?_not_eq_head?_dropWhile]

/-- The name in a step. -/
def stepName? : Component → Option String
  | .name s => some s
  | _ => none

/-- The file name is the last step, if that is a name. -/
theorem fileName?_eq (p : FilePath) : p.fileName? = p.components.getLast?.bind stepName? := by
  have hlast : p.components.getLast? =
      ((p.segments.filter (!isIdle ·)).getLast?.map componentOf).or
        (if p.isAbsolute then [Component.root]
          else if p.segments.head? = some ['.'] then [Component.current] else []).getLast? := by
    simp only [components, List.getLast?_append, List.getLast?_map]
  rw [hlast, ← head?_dropWhile_reverse]
  unfold fileName? splitLast?
  cases p.segments.reverse.dropWhile isIdle with
  | nil =>
    dsimp only [List.head?_nil, Option.map_none, Option.none_or]
    by_cases habs : p.isAbsolute = true
    · simp [habs, stepName?]
    · by_cases hcur : p.segments.head? = some ['.'] <;> simp [habs, hcur, stepName?]
  | cons s before =>
    dsimp only [List.head?_cons, Option.map_some, Option.some_or, Option.bind_some, componentOf]
    split <;> rfl

theorem fileName?_eq_of_beq (h : (p == q) = true) : p.fileName? = q.fileName? := by
  rw [fileName?_eq, fileName?_eq, beq_iff.1 h]

/-- Equal paths are of the same kind. -/
theorem kind_eq_of_beq (h : (p == q) = true) : p.kind = q.kind := by
  unfold kind extension?
  rw [fileName?_eq_of_beq h]

/-- A file that takes part in analysis has a name. -/
theorem exists_fileName?_of_kind (h : p.kind ≠ .other) : ∃ name, p.fileName? = some name := by
  cases hname : p.fileName? with
  | some name => exact ⟨name, rfl⟩
  | none =>
    unfold kind extension? at h
    rw [hname] at h
    exact absurd rfl h

/-! ## Text written after a path -/

/-- What stands behind the last separator. -/
def lastSegment (p : FilePath) : List Char := p.segments.getLast?.getD []

theorem splitSlashes_append (s : List Char) {t : List Char} (h : '/' ∉ t) :
    splitSlashes (s ++ t) =
      (splitSlashes s).dropLast ++ [(splitSlashes s).getLast?.getD [] ++ t] := by
  induction s with
  | nil => simp [splitSlashes, splitSlashes_of_not_mem h]
  | cons c s ih =>
    have hne := splitSlashes_ne_nil s
    rw [List.cons_append]
    unfold splitSlashes
    split
    · rw [ih, List.dropLast_cons_of_ne_nil hne, List.getLast?_cons_of_ne_nil hne,
        List.cons_append]
    · rw [ih]
      cases hs : splitSlashes s with
      | nil => exact absurd hs hne
      | cons l ls => cases ls <;> simp

theorem segments_append (h : '/' ∉ tail.toList) :
    (p.append tail).segments = p.segments.dropLast ++ [p.lastSegment ++ tail.toList] := by
  unfold append segments lastSegment
  rw [String.toList_append, splitSlashes_append _ h]
  rfl

/-- The file name ends with the text that was written after the path. -/
theorem fileName?_append (h : '/' ∉ tail.toList) (hidle : ¬ isIdle (p.lastSegment ++ tail.toList))
    (hup : p.lastSegment ++ tail.toList ≠ ['.', '.']) :
    (p.append tail).fileName? = some (String.ofList (p.lastSegment ++ tail.toList)) := by
  unfold fileName? splitLast?
  rw [segments_append h, List.reverse_append, List.reverse_singleton, List.singleton_append,
    List.dropWhile_cons_of_neg hidle]
  simp [hup]

/-- A long segment says something and is no step up. -/
theorem isIdle_of_length {s : List Char} (h : 2 < s.length) :
    isIdle s = false ∧ s ≠ ['.', '.'] := by
  constructor
  · rw [Bool.eq_false_iff]
    intro hidle
    rcases Bool.or_eq_true_iff.1 hidle with heq | heq
    all_goals
      rw [of_decide_eq_true heq] at h
      exact absurd h (by decide)
  · rintro rfl
    exact absurd h (by decide)

/-- An extension that is written behind a path is in its file name. -/
theorem fileName?_append_extension (p : FilePath) {ext : List Char} (hslash : '/' ∉ ext)
    (hlong : 1 < ext.length) :
    (p.append (String.ofList ('.' :: ext))).fileName? =
      some (String.ofList (p.lastSegment ++ '.' :: ext)) := by
  have hlength : 2 < (p.lastSegment ++ '.' :: ext).length := by
    rw [List.length_append, List.length_cons]
    omega
  obtain ⟨hidle, hup⟩ := isIdle_of_length hlength
  rw [fileName?_append, String.toList_ofList]
  · simpa using hslash
  · rwa [String.toList_ofList, Bool.not_eq_true]
  · rwa [String.toList_ofList]

/-! ## Around a sketch -/

theorem fileName?_append_cpp (p : FilePath) :
    (p.append ".cpp").fileName? = some (String.ofList (p.lastSegment ++ ['.', 'c', 'p', 'p'])) :=
  fileName?_append_extension p (by decide) (by decide)

theorem fileName?_append_hpp (p : FilePath) :
    (p.append ".hpp").fileName? = some (String.ofList (p.lastSegment ++ ['.', 'h', 'p', 'p'])) :=
  fileName?_append_extension p (by decide) (by decide)

/-- The last dot of a name starts its extension, unless the name starts with it. -/
theorem splitExtension_append (stem : List Char) {ext : List Char} (hext : '.' ∉ ext) :
    splitExtension (stem ++ '.' :: ext) =
      if stem = [] then ('.' :: ext, none) else (stem, some ext) := by
  have htake : (stem ++ '.' :: ext).reverse.takeWhile (· ≠ '.') = ext.reverse := by
    rw [List.reverse_append, List.reverse_cons, List.append_assoc, List.takeWhile_append_of_pos]
    · simp
    · intro c hc
      simp only [decide_eq_true_eq]
      rintro rfl
      exact hext (List.mem_reverse.1 hc)
  have hdrop : ((stem ++ '.' :: ext).reverse.drop (ext.length + 1)).reverse = stem := by
    have hlen : ext.length + 1 = (ext.reverse ++ ['.']).length := by simp
    rw [List.reverse_append, List.reverse_cons, hlen, List.drop_left, List.reverse_reverse]
  unfold splitExtension
  simp only [htake, List.length_reverse, hdrop, List.reverse_reverse]
  by_cases hstem : stem = []
  · simp [hstem]
  · rw [if_neg hstem, if_neg]
    rintro (hlen | hnil)
    · simp only [List.length_append, List.length_cons] at hlen
      omega
    · exact hstem hnil

theorem splitExtension_of_not_mem {name : List Char} (h : '.' ∉ name) :
    splitExtension name = (name, none) := by
  have htake : name.reverse.takeWhile (· ≠ '.') = name.reverse := by
    rw [List.takeWhile_eq_self_iff]
    intro c hc
    rw [decide_eq_true_eq]
    rintro rfl
    exact h (List.mem_reverse.1 hc)
  unfold splitExtension
  rw [htake]
  exact if_pos (.inl (List.length_reverse))

/-- The analysed sketch counts as a source, unless the path ends with a separator. -/
theorem kind_analyzedName (h : p.kind = .sketchEntry) :
    p.analyzedName.kind = if p.lastSegment = [] then .other else .source := by
  have hext : '.' ∉ ['c', 'p', 'p'] := by decide
  have hsplit := splitExtension_append p.lastSegment hext
  unfold kind extension?
  rw [analyzedName, if_pos h, fileName?_append_cpp, Option.bind_some, String.toList_ofList, hsplit]
  by_cases hempty : p.lastSegment = []
  · simp [hempty]
  · rw [if_neg hempty, if_neg hempty]
    rfl

/-- The generated header is not the analysed sketch. -/
theorem prototypeHeader_ne_analyzedName (h : p.kind = .sketchEntry) :
    (p.prototypeHeader == p.analyzedName) = false := by
  rw [Bool.eq_false_iff]
  intro heq
  have hname := fileName?_eq_of_beq heq
  rw [analyzedName, if_pos h, prototypeHeader, fileName?_append_hpp, fileName?_append_cpp] at hname
  simp at hname

/-- No sketch keeps its name. -/
theorem analyzedName_ne (h : p.kind = .sketchEntry) : (p.analyzedName == p) = false := by
  rw [Bool.eq_false_iff]
  intro heq
  have hkind := kind_eq_of_beq heq
  rw [kind_analyzedName h, h] at hkind
  split at hkind <;> cases hkind

theorem not_isPrototypeHeader_analyzedName (h : p.kind = .sketchEntry) :
    p.analyzedName.isPrototypeHeader = false := by
  unfold isPrototypeHeader nameEndsWith
  rw [analyzedName, if_pos h, fileName?_append_cpp]
  simp [asciiLower, Text.endsWith, Text.startsWith, Text.after?]

/-! ## Around a normal sketch path -/

/-- A name has an extension only behind a dot that does not come first. -/
theorem eq_of_splitExtension {name stem ext : List Char}
    (h : splitExtension name = (stem, some ext)) : name = stem ++ '.' :: ext ∧ stem ≠ [] := by
  unfold splitExtension at h
  dsimp only at h
  split at h
  · cases h
  · next hnot =>
    rw [not_or] at hnot
    cases h
    refine ⟨?_, hnot.2⟩
    have hsplit := List.takeWhile_append_dropWhile (p := fun c => decide (c ≠ '.')) (l := name.reverse)
    cases hdrop : name.reverse.dropWhile (fun c => decide (c ≠ '.')) with
    | nil =>
      rw [hdrop, List.append_nil] at hsplit
      exact absurd (by rw [hsplit, List.length_reverse]) hnot.1
    | cons d rest =>
      have hd := List.head?_dropWhile_not (fun c => decide (c ≠ '.')) name.reverse
      rw [hdrop] at hd hsplit
      obtain rfl : d = '.' := by simpa using hd
      generalize name.reverse.takeWhile (fun c => decide (c ≠ '.')) = ext at hsplit ⊢
      have hrest : name.reverse.drop (ext.length + 1) = rest := by
        rw [← hsplit, ← List.drop_drop, List.drop_left, List.drop_one, List.tail_cons]
      rw [hrest]
      calc name = name.reverse.reverse := (List.reverse_reverse name).symm
        _ = (ext ++ '.' :: rest).reverse := by rw [hsplit]
        _ = rest.reverse ++ '.' :: ext.reverse := by simp

theorem length_le_utf8ByteSize (s : List Char) : s.length ≤ (String.ofList s).utf8ByteSize := by
  induction s with
  | nil => exact Nat.zero_le _
  | cons c s ih =>
    rw [String.ofList_cons, String.utf8ByteSize_append, String.utf8ByteSize_singleton,
      List.length_cons]
    have hpos := c.utf8Size_pos
    omega

/-- The path is written as a normal path. -/
def IsNormal (p : FilePath) : Prop := ∃ n : NormalPath, n.IsPlain ∧ n.toFilePath = p

theorem isNormal_normalize (p base : FilePath) : (p.normalize base).IsNormal :=
  ⟨p.normal base, isPlain_normal p base, rfl⟩

/-- A normal path that has a file name ends with it. -/
theorem IsNormal.isPlainName_lastSegment (hnormal : p.IsNormal) (hname : p.fileName?.isSome) :
    IsPlainName p.lastSegment := by
  obtain ⟨n, hplain, rfl⟩ := hnormal
  cases hlast : n.names.getLast? with
  | none =>
    obtain ⟨absolute, names⟩ := n
    obtain rfl := List.getLast?_eq_none_iff.1 hlast
    cases absolute <;> exact absurd hname (by decide)
  | some s =>
    have hne : n.names ≠ [] := by
      intro hnil
      rw [hnil] at hlast
      cases hlast
    unfold lastSegment
    rw [NormalPath.segments_toFilePath hplain hne, List.getLast?_append, List.getLast?_map, hlast]
    exact hplain s (List.mem_of_getLast? hlast)

/-- The file name of a sketch with a normal path stands at its end. -/
theorem IsNormal.fileName?_eq (hnormal : p.IsNormal) (hkind : p.kind = .sketchEntry) :
    p.fileName? = some (String.ofList p.lastSegment) := by
  obtain ⟨name, hname⟩ := exists_fileName?_of_kind (by rw [hkind]; decide)
  obtain ⟨hidle, hup, -⟩ := hnormal.isPlainName_lastSegment (by rw [hname]; rfl)
  have happend : (p.append "").fileName? = _ :=
    fileName?_append (by decide) (by simpa using hidle) (by simpa using hup)
  simpa [append] using happend

/-- The extension of a sketch reads `ino`. -/
theorem exists_extension_of_sketch {name : List Char}
    (hname : p.fileName? = some (String.ofList name)) (hkind : p.kind = .sketchEntry) :
    ∃ stem ino, name = stem ++ '.' :: ino ∧ stem ≠ [] ∧ ino.map Char.toLower = ['i', 'n', 'o'] := by
  unfold kind extension? at hkind
  rw [hname, Option.bind_some, String.toList_ofList] at hkind
  rcases hsplit : splitExtension name with ⟨stem, _ | ino⟩
  all_goals rw [hsplit] at hkind
  · cases hkind
  · obtain ⟨hlast, hstem⟩ := eq_of_splitExtension hsplit
    refine ⟨stem, ino, hlast, hstem, ?_⟩
    simp only [Option.map_some, asciiLower, String.toList_ofList, FileKind.ofExtension] at hkind
    split at hkind
    · next hino => simpa using congrArg String.toList hino
    · split at hkind
      · cases hkind
      · split at hkind <;> cases hkind

section

variable {ext : List Char} (hlower : ext.map Char.toLower = ext)

include hlower

/-- A name with an extension behind that of a sketch is known by both. -/
theorem endsWith_of_sketch {stem ino : List Char} (hstem : stem ≠ [])
    (hino : ino.map Char.toLower = ['i', 'n', 'o']) :
    (String.ofList ('.' :: 'i' :: 'n' :: 'o' :: '.' :: ext)).utf8ByteSize <
        (String.ofList (stem ++ '.' :: ino ++ '.' :: ext)).utf8ByteSize ∧
      Text.endsWith (String.ofList ('.' :: 'i' :: 'n' :: 'o' :: '.' :: ext)).toList
        (asciiLower (String.ofList (stem ++ '.' :: ino ++ '.' :: ext))).toList = true := by
  have hpos := List.length_pos_iff.2 hstem
  have hthree : ino.length = 3 := by simpa using congrArg List.length hino
  constructor
  · have hsize : (String.ofList ['.', 'i', 'n', 'o']).utf8ByteSize = 4 := by decide
    have hle := length_le_utf8ByteSize (stem ++ '.' :: ino)
    show (String.ofList (['.', 'i', 'n', 'o'] ++ '.' :: ext)).utf8ByteSize < _
    rw [String.ofList_append, String.utf8ByteSize_append, hsize, String.ofList_append,
      String.utf8ByteSize_append]
    simp only [List.length_append, List.length_cons] at hle
    omega
  · unfold Text.endsWith Text.startsWith
    rw [Option.isSome_iff_exists]
    refine ⟨(stem.map Char.toLower).reverse, Text.after?_eq_some_iff.2 ?_⟩
    simp [asciiLower, hino, hlower]

/-- A name that is made for a sketch with a normal path is known by its extension. -/
theorem nameEndsWith_append (hkind : p.kind = .sketchEntry) (hnormal : p.IsNormal)
    (hslash : '/' ∉ ext) (hlong : 1 < ext.length) :
    (p.append (String.ofList ('.' :: ext))).nameEndsWith
      (String.ofList ('.' :: 'i' :: 'n' :: 'o' :: '.' :: ext)) = true := by
  obtain ⟨stem, ino, hsegment, hstem, hino⟩ :=
    exists_extension_of_sketch (hnormal.fileName?_eq hkind) hkind
  obtain ⟨hsize, hends⟩ := endsWith_of_sketch hlower hstem hino
  unfold nameEndsWith
  rw [fileName?_append_extension p hslash hlong, hsegment]
  dsimp only
  rw [hends, decide_eq_true hsize, Bool.true_and]

end

/-- A sketch with a normal path is analysed as a sketch entry. -/
theorem isAnalyzedEntry_analyzedName (hkind : p.kind = .sketchEntry) (hnormal : p.IsNormal) :
    p.analyzedName.isAnalyzedEntry = true := by
  unfold analyzedName
  rw [if_pos hkind]
  exact nameEndsWith_append (by decide) hkind hnormal (by decide) (by decide)

end SketchSense.FilePath
