import Mathlib.Data.List.Infix
import SketchSense.Proofs.FilePath.Kinds

/-!
# Paths inside a directory

Whether a path is inside a directory is decided by the directory of its last name. So a sketch, the
name it is analysed under and its generated header are inside the same directories.

* `named`, the segments of a path that say something, with `normal_slash`;
* `isInside_iff`, with `isInside_eq_of_beq` and `isInside_eq_of_named`, that the last name does not
  count;
* `isSynthetic`, the names made for sketches, with `isSynthetic_normalize` and
  `exists_named_of_isSynthetic`;
* `isInside_analyzedName`, `isInside_editedName` and `isSynthetic_editedName`.
-/

namespace SketchSense.FilePath

variable {p q root : FilePath}

/-! ## Segments that say something -/

/-- The segments of a path that are no separators written twice and no `.`. -/
def named (p : FilePath) : List (List Char) := p.segments.filter (!isIdle ·)

theorem fileName?_eq_named (p : FilePath) :
    p.fileName? = p.named.getLast?.bind fun s =>
      if s = ['.', '.'] then none else some (String.ofList s) :=
  fileName?_eq_getLast? p

theorem named_of_isEmpty (h : p.isEmpty = true) : p.named = [] := by
  have hnil : p.text.toList = [] := by simpa [isEmpty] using h
  unfold named segments
  rw [hnil]
  rfl

/-- The directory that a sequence of segments leads to from the root. -/
def walkDown (segs : List (List Char)) : NormalPath :=
  (segs.map componentOf).foldl NormalPath.step ⟨true, []⟩

theorem absolute_walkDown (segs : List (List Char)) : (walkDown segs).absolute = true := by
  unfold walkDown
  induction segs using List.reverseRecOn with
  | nil => rfl
  | append_singleton segs s ih =>
    rw [List.map_append, List.foldl_append]
    show (NormalPath.step _ (componentOf s)).absolute = true
    unfold componentOf
    split <;> exact ih

theorem walkDown_concat {s : List Char} (hs : s ≠ ['.', '.']) (segs : List (List Char)) :
    (walkDown (segs ++ [s])).names = (walkDown segs).names ++ [String.ofList s] := by
  unfold walkDown
  rw [List.map_append, List.foldl_append]
  show (NormalPath.step _ (componentOf s)).names = _
  rw [componentOf, if_neg hs]
  rfl

/-- An absolute path is walked down along its segments. -/
theorem ofComponents_of_isAbsolute (h : p.isAbsolute = true) :
    NormalPath.ofComponents p.components = walkDown p.named := by
  unfold NormalPath.ofComponents components walkDown named
  dsimp only
  rw [if_pos h, List.singleton_append, List.foldl_cons]
  rfl

/-- A path taken from another one is absolute if one of them is. -/
theorem isAbsolute_join (p q : FilePath) :
    (p.join q).isAbsolute = (q.isAbsolute || p.isAbsolute) := by
  unfold join
  cases hq : q.isAbsolute with
  | true => simp [hq]
  | false =>
    rw [if_neg (by simp), Bool.false_or]
    unfold isAbsolute at hq ⊢
    unfold isEmpty
    cases hp : p.text.toList with
    | nil => simp [hp, hq]
    | cons c cs => split <;> simp [hp]

theorem named_join (p : FilePath) (hq : q.isAbsolute = false) :
    (p.join q).named = p.named ++ q.named := by
  obtain ⟨before, hsegments, hbefore⟩ := exists_segments_join p hq
  unfold named
  rw [hsegments, List.filter_append, hbefore]

/-- A relative path taken from an absolute one is walked down behind it. -/
theorem normal_of_relative (hroot : root.isAbsolute = true) (hp : p.isAbsolute = false) :
    p.normal root = walkDown (root.named ++ p.named) := by
  unfold normal
  rw [ofComponents_of_isAbsolute (by rw [isAbsolute_join, hroot, Bool.or_true]), named_join root hp]

theorem normal_of_absolute (hp : p.isAbsolute = true) (root : FilePath) :
    p.normal root = walkDown p.named := by
  unfold normal join
  rw [if_pos hp, ofComponents_of_isAbsolute hp]

/-- A path taken from the root is walked down along its segments. -/
theorem normal_slash (p : FilePath) : p.normal ⟨"/"⟩ = walkDown p.named := by
  cases hp : p.isAbsolute with
  | true => exact normal_of_absolute hp ⟨"/"⟩
  | false => exact normal_of_relative (by decide) hp

/-! ## Inside -/

/-- A path is inside a directory if the directory's names are the first of its own, and it has
more. -/
theorem isInside_iff :
    p.isInside root = true ↔ root.isEmpty = false ∧
      (walkDown root.named).names <+: (walkDown p.named).names ∧
      (walkDown root.named).names ≠ (walkDown p.named).names := by
  have hcomponents (q : FilePath) :
      (q.normalize ⟨"/"⟩).components = .root :: (walkDown q.named).names.map Component.name := by
    unfold normalize
    rw [NormalPath.components_toFilePath (isPlain_normal q _), normal_slash,
      if_pos (absolute_walkDown _)]
    rfl
  have hinj : Function.Injective Component.name := fun _ _ => Component.name.inj
  have hprefix : (root.normalize ⟨"/"⟩).components.isPrefixOf (p.normalize ⟨"/"⟩).components = true ↔
      (walkDown root.named).names <+: (walkDown p.named).names := by
    rw [List.isPrefixOf_iff_prefix, hcomponents, hcomponents, List.cons_prefix_cons,
      List.prefix_map_iff_of_injective hinj]
    exact ⟨And.right, fun h => ⟨rfl, h⟩⟩
  have hequal : (p.normalize ⟨"/"⟩ == root.normalize ⟨"/"⟩) = true ↔
      (walkDown root.named).names = (walkDown p.named).names := by
    rw [beq_iff, hcomponents, hcomponents, List.cons.injEq, List.map_inj_right fun _ _ => (hinj ·)]
    exact ⟨fun h => h.2.symm, fun h => ⟨rfl, h.symm⟩⟩
  unfold isInside startsWith
  simp only [Bool.and_eq_true, Bool.not_eq_true', hprefix, ← hequal, ne_eq, Bool.not_eq_true,
    and_assoc]
  constructor
  · rintro ⟨hroot, -, hne, hfirst⟩
    exact ⟨hroot, hfirst, hne⟩
  · rintro ⟨hroot, hfirst, hne⟩
    refine ⟨hroot, ?_, hne, hfirst⟩
    -- the empty path has no names, so it has no more than the directory
    rw [Bool.eq_false_iff]
    intro hempty
    rw [named_of_isEmpty hempty] at hfirst hequal
    have hnil : (walkDown root.named).names = [] := List.prefix_nil.1 hfirst
    rw [hequal.2 hnil] at hne
    cases hne

/-- Paths that name the same file are inside the same directories. -/
theorem isInside_eq_of_beq (h : (p == q) = true) (root : FilePath) :
    p.isInside root = q.isInside root := by
  -- a step that leads does not matter to a path that is taken from the root
  have hwalk (r : FilePath) :
      walkDown r.named = r.components.foldl NormalPath.step ⟨true, []⟩ := by
    unfold walkDown named components
    dsimp only
    rw [List.foldl_append]
    congr 1
    split
    · rfl
    · split <;> rfl
  rw [Bool.eq_iff_iff, isInside_iff, isInside_iff, hwalk p, hwalk q, beq_iff.1 h]

/-- A path with a last name is inside the directories that its own directory is in or is. -/
theorem isInside_iff_of_named {front : List (List Char)} {s : List Char}
    (hp : p.named = front ++ [s]) (hs : s ≠ ['.', '.']) :
    p.isInside root = true ↔
      root.isEmpty = false ∧ (walkDown root.named).names <+: (walkDown front).names := by
  rw [isInside_iff, hp, walkDown_concat hs, List.prefix_concat_iff]
  constructor
  · rintro ⟨hroot, hprefix, hne⟩
    exact ⟨hroot, hprefix.resolve_left hne⟩
  · rintro ⟨hroot, hprefix⟩
    refine ⟨hroot, .inr hprefix, ?_⟩
    intro heq
    have hle := hprefix.length_le
    rw [heq, List.length_append, List.length_singleton] at hle
    omega

/-- Paths that only differ in their last names are inside the same directories. -/
theorem isInside_eq_of_named {front : List (List Char)} {s t : List Char}
    (hp : p.named = front ++ [s]) (hs : s ≠ ['.', '.'])
    (hq : q.named = front ++ [t]) (ht : t ≠ ['.', '.']) (root : FilePath) :
    p.isInside root = q.isInside root := by
  rw [Bool.eq_iff_iff, isInside_iff_of_named hp hs, isInside_iff_of_named hq ht]

/-! ## Names made for sketches -/

/-- The name under which a sketch is analysed, or that of a generated header. -/
def isSynthetic (p : FilePath) : Bool := p.isAnalyzedEntry || p.isPrototypeHeader

theorem editedName_eq (p : FilePath) :
    p.editedName = if p.isSynthetic then p.withoutExtension else p := rfl

theorem isSynthetic_eq_of_fileName? (h : p.fileName? = q.fileName?) :
    p.isSynthetic = q.isSynthetic := by
  unfold isSynthetic isAnalyzedEntry isPrototypeHeader nameEndsWith
  rw [h]

theorem isSynthetic_eq_of_beq (h : (p == q) = true) : p.isSynthetic = q.isSynthetic :=
  isSynthetic_eq_of_fileName? (fileName?_eq_of_beq h)

/-- A path without a file name has no name that was made for a sketch. -/
theorem not_isSynthetic_of_fileName? (h : p.fileName? = none) : p.isSynthetic = false := by
  unfold isSynthetic isAnalyzedEntry isPrototypeHeader nameEndsWith
  rw [h]
  rfl

theorem not_isSynthetic_of_isEmpty (h : p.isEmpty = true) : p.isSynthetic = false := by
  refine not_isSynthetic_of_fileName? ?_
  rw [fileName?_eq_named, named_of_isEmpty h]
  rfl

/-- A path with a file name keeps being one made for a sketch, or not, when it is normalised. -/
theorem isSynthetic_normalize (base : FilePath) (h : p.fileName?.isSome) :
    (p.normalize base).isSynthetic = p.isSynthetic := by
  obtain ⟨name, hname⟩ := Option.isSome_iff_exists.1 h
  exact isSynthetic_eq_of_fileName? ((fileName?_normalize base hname).trans hname.symm)

/-- What a path names after normalising decides about the path as it is written. -/
theorem not_isSynthetic_of_normalize {base : FilePath}
    (h : (p.normalize base).isSynthetic = false) : p.isSynthetic = false := by
  cases hname : p.fileName? with
  | none => exact not_isSynthetic_of_fileName? hname
  | some name => rwa [isSynthetic_normalize base (by rw [hname]; rfl)] at h

/-- A name made for a sketch is the name of the sketch with another extension behind it. -/
theorem exists_fileName?_of_isSynthetic (h : p.isSynthetic = true) :
    ∃ stem ext front, p.fileName? = some (String.ofList (stem ++ '.' :: ext)) ∧
      stem.map Char.toLower = front ++ ['.', 'i', 'n', 'o'] ∧
      (ext.map Char.toLower = ['c', 'p', 'p'] ∨ ext.map Char.toLower = ['h', 'p', 'p']) ∧
      '.' ∉ ext := by
  rcases Bool.or_eq_true_iff.1 h with h | h
  · have hends : p.nameEndsWith (String.ofList ['.', 'i', 'n', 'o', '.', 'c', 'p', 'p']) = true := h
    obtain ⟨stem, ext, front, hname, hstem, hext, hdot⟩ :=
      exists_of_nameEndsWith (by decide) hends
    exact ⟨stem, ext, front, hname, hstem, .inl hext, hdot⟩
  · have hends : p.nameEndsWith (String.ofList ['.', 'i', 'n', 'o', '.', 'h', 'p', 'p']) = true := h
    obtain ⟨stem, ext, front, hname, hstem, hext, hdot⟩ :=
      exists_of_nameEndsWith (by decide) hends
    exact ⟨stem, ext, front, hname, hstem, .inr hext, hdot⟩

/-- The name of a sketch is not made for a sketch: it ends in another letter. -/
theorem not_isSynthetic_of_ino {stem front : List Char} (hname : p.fileName? = some (String.ofList stem))
    (hstem : stem.map Char.toLower = front ++ ['.', 'i', 'n', 'o']) : p.isSynthetic = false := by
  rw [Bool.eq_false_iff]
  intro h
  obtain ⟨stem', ext, -, hname', -, hext, -⟩ := exists_fileName?_of_isSynthetic h
  rw [hname] at hname'
  have hlists : stem = stem' ++ '.' :: ext := by
    have htexts := congrArg String.toList (Option.some.inj hname')
    simpa using htexts
  have hlast : (stem.map Char.toLower).getLast? = some 'o' := by rw [hstem]; simp
  rw [hlists, List.map_append, List.map_cons] at hlast
  rcases hext with hext | hext
  all_goals
    rw [hext] at hlast
    simp at hlast

/-- Only idle segments follow the last one that says something. -/
theorem segments_of_splitLast? {before : List (List Char)} {s : List Char}
    (h : p.splitLast? = some (before, s)) :
    ∃ idle, p.segments = before ++ s :: idle ∧ (∀ t ∈ idle, isIdle t = true) ∧ isIdle s = false := by
  unfold splitLast? at h
  split at h
  · cases h
  · next s' before' hdrop =>
    obtain ⟨rfl, rfl⟩ := Prod.mk.inj (Option.some.inj h)
    have hall := List.takeWhile_append_dropWhile (p := isIdle) (l := p.segments.reverse)
    rw [hdrop] at hall
    refine ⟨(p.segments.reverse.takeWhile isIdle).reverse, ?_, ?_, ?_⟩
    · have hback := congrArg List.reverse hall
      simpa using hback.symm
    · intro t ht
      exact List.mem_takeWhile_imp (List.mem_reverse.1 ht)
    · have hhead := List.head?_dropWhile_not isIdle p.segments.reverse
      rw [hdrop] at hhead
      simpa using hhead

/-- The path without its last extension has the stem for its last name. -/
theorem named_withoutExtension {stem ext : List Char} (hdot : '.' ∉ ext)
    (hlong : 2 < stem.length) (h : p.fileName? = some (String.ofList (stem ++ '.' :: ext))) :
    ∃ front, p.named = front ++ [stem ++ '.' :: ext] ∧
      p.withoutExtension.named = front ++ [stem] := by
  unfold fileName? at h
  split at h
  · next before s hsplit =>
    split at h
    · cases h
    · next hup =>
      obtain rfl : s = stem ++ '.' :: ext := by
        have htexts := congrArg String.toList (Option.some.inj h)
        simpa using htexts
      obtain ⟨idle, hsegments, hidle, hspoken⟩ := segments_of_splitLast? hsplit
      have hne : stem ≠ [] := by
        rintro rfl
        cases hlong
      have hwithout : p.withoutExtension = ⟨String.ofList (joinSlashes (before ++ [stem]))⟩ := by
        unfold withoutExtension
        rw [hsplit]
        dsimp only
        rw [if_neg hup, splitExtension_append stem hdot, if_neg hne]
      have hslash : ∀ t ∈ before ++ [stem], '/' ∉ t := by
        intro t ht
        rcases List.mem_append.1 ht with ht | ht
        · have hmem : t ∈ p.segments := by
            rw [hsegments]
            exact List.mem_append_left _ ht
          exact not_mem_of_mem_splitSlashes hmem
        · rw [List.mem_singleton.1 ht]
          have hmem : stem ++ '.' :: ext ∈ p.segments := by
            rw [hsegments]
            exact List.mem_append_right _ List.mem_cons_self
          intro h
          exact not_mem_of_mem_splitSlashes hmem (List.mem_append_left _ h)
      refine ⟨before.filter (!isIdle ·), ?_, ?_⟩
      · have hnone : idle.filter (!isIdle ·) = [] := by
          rw [List.filter_eq_nil_iff]
          intro t ht
          simp [hidle t ht]
        unfold named
        rw [hsegments, List.filter_append, List.filter_cons_of_pos (by simp [hspoken]), hnone]
      · unfold named segments
        rw [hwithout, String.toList_ofList, splitSlashes_joinSlashes (by simp) hslash,
          List.filter_append,
          List.filter_cons_of_pos (by simp [(isIdle_of_length hlong).1])]
        rfl
  · cases h

/-- The sketch that a name was made for stands in the same directory. -/
theorem exists_named_of_isSynthetic (h : p.isSynthetic = true) :
    ∃ front s stem ends, p.named = front ++ [s] ∧ s ≠ ['.', '.'] ∧
      p.editedName.named = front ++ [stem] ∧ stem ≠ ['.', '.'] ∧
      stem.map Char.toLower = ends ++ ['.', 'i', 'n', 'o'] := by
  obtain ⟨stem, ext, ends, hname, hstem, -, hdot⟩ := exists_fileName?_of_isSynthetic h
  have hlength : 2 < stem.length := by
    have hlengths := congrArg List.length hstem
    simp only [List.length_map, List.length_append, List.length_cons, List.length_nil] at hlengths
    omega
  obtain ⟨front, hp, hedited⟩ := named_withoutExtension hdot hlength hname
  have hlong : 2 < (stem ++ '.' :: ext).length := by
    rw [List.length_append]
    omega
  exact ⟨front, _, stem, ends, hp, (isIdle_of_length hlong).2,
    by rw [editedName_eq, if_pos h, hedited], (isIdle_of_length hlength).2, hstem⟩

/-- No name leads back to a name that was made for a sketch. -/
@[simp] theorem isSynthetic_editedName (p : FilePath) : p.editedName.isSynthetic = false := by
  cases h : p.isSynthetic with
  | true =>
    obtain ⟨front, s, stem, ends, -, -, hedited, hup, hstem⟩ := exists_named_of_isSynthetic h
    have hname : p.editedName.fileName? = some (String.ofList stem) := by
      rw [fileName?_eq_named, hedited, List.getLast?_concat, Option.bind_some, if_neg hup]
    exact not_isSynthetic_of_ino hname hstem
  | false => rw [editedName_eq, h, if_neg Bool.false_ne_true, h]

/-- A name made for a sketch is inside the directories that the sketch is in. -/
theorem isInside_editedName (p root : FilePath) : p.editedName.isInside root = p.isInside root := by
  cases h : p.isSynthetic with
  | true =>
    obtain ⟨front, s, stem, ends, hp, hs, hedited, hup, -⟩ := exists_named_of_isSynthetic h
    exact isInside_eq_of_named hedited hup hp hs root
  | false => rw [editedName_eq, h, if_neg Bool.false_ne_true]

/-- A sketch with a normal path is inside the directories that its analysed name is in. -/
theorem isInside_analyzedName (hnormal : p.IsNormal) (root : FilePath) :
    p.analyzedName.isInside root = p.isInside root := by
  unfold analyzedName
  split
  · next hkind =>
    obtain ⟨name, hname⟩ : ∃ name, p.fileName? = some name := by
      cases hname : p.fileName? with
      | some name => exact ⟨name, rfl⟩
      | none =>
        unfold kind extension? at hkind
        rw [hname] at hkind
        cases hkind
    obtain ⟨n, hn, rfl⟩ := hnormal
    obtain ⟨names, hnames⟩ := NormalPath.exists_names_of_fileName? hn hname
    obtain ⟨hidle, hup, -⟩ := hn name (by simp [hnames])
    have hsegments : n.toFilePath.segments =
        ((if n.absolute then [[]] else []) ++ names.map String.toList) ++ [name.toList] := by
      rw [NormalPath.segments_toFilePath hn (by simp [hnames]), hnames, List.map_append,
        ← List.append_assoc]
      rfl
    have hlast : n.toFilePath.lastSegment = name.toList := by
      unfold lastSegment
      rw [hsegments, List.getLast?_concat]
      rfl
    have hlong : 2 < (name.toList ++ ".cpp".toList).length := by
      rw [List.length_append]
      exact Nat.lt_of_lt_of_le (by decide) (Nat.le_add_left _ _)
    obtain ⟨hidle', hup'⟩ := isIdle_of_length hlong
    have hnamed : n.toFilePath.named = List.filter (!isIdle ·)
        ((if n.absolute then [[]] else []) ++ names.map String.toList) ++ [name.toList] := by
      unfold named
      rw [hsegments, List.filter_append, List.filter_cons_of_pos (by simp [hidle])]
      rfl
    refine isInside_eq_of_named ?_ hup' hnamed hup root
    unfold named
    rw [segments_append (by decide), hlast, hsegments, List.dropLast_concat, List.filter_append,
      List.filter_cons_of_pos (by rw [hidle']; rfl)]
    rfl
  · rfl

end SketchSense.FilePath
