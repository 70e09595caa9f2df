import SketchSense.Proofs.FilePath.Names

/-!
# Kinds of normal paths

A path ends with its file name, and normalising leaves that as it is. So a file is of the kind of
its key, and what is no header cannot be taken for a generated one.

* `fileName?_normalize` and `kind_normalize`, that the last name stays;
* `kind_of_isPrototypeHeader` and `kind_of_isAnalyzedEntry`, that generated headers are headers and
  analysed sketches are sources;
* `IsNormal.editedName`, that the sketch of a normal name has a normal path.
-/

namespace SketchSense.FilePath

variable {p : FilePath} {name : String}

/-! ## The last name -/

/-- The file name is the last segment that is not idle. -/
theorem fileName?_eq_getLast? (p : FilePath) :
    p.fileName? = (p.segments.filter (!isIdle ·)).getLast?.bind fun s =>
      if s = ['.', '.'] then none else some (String.ofList s) := by
  unfold fileName? splitLast?
  rw [← head?_dropWhile_reverse]
  cases p.segments.reverse.dropWhile isIdle <;> rfl

theorem splitSlashes_append_slash (s t : List Char) :
    splitSlashes (s ++ '/' :: t) = splitSlashes s ++ splitSlashes t := by
  induction s with
  | nil => simp [splitSlashes]
  | cons c s ih =>
    rw [List.cons_append, splitSlashes, splitSlashes]
    split
    · rw [ih, List.cons_append]
    · rw [ih]
      cases hs : splitSlashes s with
      | nil => exact absurd hs (splitSlashes_ne_nil s)
      | cons l ls => rfl

/-- Segments that a path is written behind do not change its file name. -/
theorem fileName?_of_segments {q : FilePath} (before : List (List Char))
    (hq : q.segments = before ++ p.segments) (h : p.fileName? = some name) :
    q.fileName? = some name := by
  rw [fileName?_eq_getLast?] at h ⊢
  obtain ⟨s, hs, hname⟩ := Option.bind_eq_some_iff.1 h
  rw [hq, List.filter_append, List.getLast?_append, hs]
  exact hname

/-- A relative path taken from a directory is written behind its segments. -/
theorem exists_segments_join (base : FilePath) (h : p.isAbsolute = false) :
    ∃ before, (base.join p).segments = before ++ p.segments ∧
      before.filter (!isIdle ·) = base.segments.filter (!isIdle ·) := by
  unfold join
  rw [if_neg (by simp [h])]
  split
  · next hbase =>
    rcases hbase with hempty | hslash
    · have hnil : base.text.toList = [] := by simpa [isEmpty] using hempty
      exact ⟨[], by simp [segments, hnil], by simp [segments, hnil, splitSlashes, isIdle]⟩
    · -- the separator at the end opens one more segment, which says nothing
      obtain ⟨dir, hdir⟩ := List.getLast?_eq_some_iff.1 hslash
      refine ⟨splitSlashes dir, by simp [segments, hdir, splitSlashes_append_slash], ?_⟩
      simp [segments, hdir, splitSlashes_append_slash, splitSlashes, isIdle]
  · exact ⟨base.segments, by simp [segments, splitSlashes_append_slash], rfl⟩

/-- The file name of a path is that of the path taken from a directory. -/
theorem fileName?_join (base : FilePath) (h : p.fileName? = some name) :
    (base.join p).fileName? = some name := by
  cases habsolute : p.isAbsolute with
  | true =>
    unfold join
    rwa [if_pos habsolute]
  | false =>
    obtain ⟨before, hsegments, -⟩ := exists_segments_join base habsolute
    exact fileName?_of_segments before hsegments h

/-- Normalising keeps the file name. -/
theorem fileName?_normalize (base : FilePath) (h : p.fileName? = some name) :
    (p.normalize base).fileName? = some name := by
  have hjoin := fileName?_join base h
  rw [fileName?_eq] at hjoin
  obtain ⟨c, hlast, hc⟩ := Option.bind_eq_some_iff.1 hjoin
  obtain ⟨before, hsteps⟩ := List.getLast?_eq_some_iff.1 hlast
  obtain ⟨s, rfl⟩ : ∃ s, c = .name s := by
    cases c with
    | name s => exact ⟨s, rfl⟩
    | _ => cases hc
  obtain rfl : s = name := Option.some.inj hc
  have hnames : (p.normal base).names.getLast? = some s := by
    unfold normal NormalPath.ofComponents
    rw [hsteps, List.foldl_append]
    simp [NormalPath.step]
  unfold normalize
  rw [fileName?_eq, NormalPath.components_toFilePath (isPlain_normal p base), List.getLast?_append,
    List.getLast?_map, hnames]
  rfl

/-- A file that takes part in analysis is of the kind of its key. -/
theorem kind_normalize (base : FilePath) (h : p.kind ≠ .other) :
    (p.normalize base).kind = p.kind := by
  obtain ⟨name, hname⟩ := exists_fileName?_of_kind h
  unfold kind extension?
  rw [fileName?_normalize base hname, hname]

/-- The empty path takes no part in analysis. -/
theorem isEmpty_of_kind (h : p.kind ≠ .other) : p.isEmpty = false := by
  rw [Bool.eq_false_iff]
  intro hempty
  have hnil : p.text.toList = [] := by simpa [isEmpty] using hempty
  obtain ⟨name, hname⟩ := exists_fileName?_of_kind h
  rw [fileName?_eq_getLast?, segments, hnil] at hname
  cases hname

/-- No file is analysed under the empty path. -/
theorem isEmpty_analyzedName (h : p.kind ≠ .other) : p.analyzedName.isEmpty = false := by
  unfold analyzedName
  split
  · simp [isEmpty, append]
  · exact isEmpty_of_kind h

/-! ## Names made for sketches -/

theorem eq_of_toLower_eq_dot {c : Char} (h : c.toLower = '.') : c = '.' := by
  unfold Char.toLower at h
  split at h
  · next hupper =>
    have hval : (c.val + ('a'.val - 'A'.val)).toNat = 46 := congrArg Char.toNat h
    simp only [UInt32.le_iff_toNat_le, ge_iff_le, UInt32.toNat_add] at hupper hval
    simp at hupper hval
    omega
  · exact h

/-- In a name made for a sketch an extension follows the name of the sketch. -/
theorem exists_of_nameEndsWith {ext : List Char} (hext : '.' ∉ ext)
    (h : p.nameEndsWith (String.ofList ('.' :: 'i' :: 'n' :: 'o' :: '.' :: ext)) = true) :
    ∃ stem last front, p.fileName? = some (String.ofList (stem ++ '.' :: last)) ∧
      stem.map Char.toLower = front ++ ['.', 'i', 'n', 'o'] ∧ last.map Char.toLower = ext ∧
      '.' ∉ last := by
  unfold nameEndsWith at h
  split at h
  · next n hn =>
    rw [Bool.and_eq_true] at h
    obtain ⟨front, hfront⟩ := Option.isSome_iff_exists.1 h.2
    have hlower : n.toList.map Char.toLower =
        front.reverse ++ ['.', 'i', 'n', 'o'] ++ '.' :: ext := by
      have hrev := congrArg List.reverse (Text.after?_eq_some_iff.1 hfront)
      simpa [asciiLower] using hrev
    obtain ⟨stem, behind, hname, hstem, hbehind⟩ := List.map_eq_append_iff.1 hlower
    obtain ⟨dot, last, rfl, hdot, hlast⟩ := List.map_eq_cons_iff.1 hbehind
    obtain rfl := eq_of_toLower_eq_dot hdot
    refine ⟨stem, last, front.reverse, ?_, hstem, hlast, ?_⟩
    · rw [hn, ← hname, String.ofList_toList]
    · intro hmem
      have hmapped : '.' ∈ last.map Char.toLower := List.mem_map.2 ⟨'.', hmem, by decide⟩
      rw [hlast] at hmapped
      exact hext hmapped
  · cases h

/-- The extension behind the name of a sketch decides the kind. -/
theorem kind_of_nameEndsWith {ext : List Char} (hext : '.' ∉ ext)
    (h : p.nameEndsWith (String.ofList ('.' :: 'i' :: 'n' :: 'o' :: '.' :: ext)) = true) :
    p.kind = .ofExtension (String.ofList ext) := by
  obtain ⟨stem, last, front, hname, hstem, hlast, hdot⟩ := exists_of_nameEndsWith hext h
  have hne : stem ≠ [] := by
    rintro rfl
    simp at hstem
  unfold kind extension?
  rw [hname, Option.bind_some, String.toList_ofList, splitExtension_append stem hdot, if_neg hne]
  show FileKind.ofExtension (asciiLower (String.ofList last)) = _
  rw [asciiLower, String.toList_ofList, hlast]

/-- Only a header is taken for a generated one. -/
theorem kind_of_isPrototypeHeader (h : p.isPrototypeHeader = true) : p.kind = .header :=
  kind_of_nameEndsWith (by decide) h

/-- Only a source is taken for an analysed sketch. -/
theorem kind_of_isAnalyzedEntry (h : p.isAnalyzedEntry = true) : p.kind = .source :=
  kind_of_nameEndsWith (by decide) h

/-! ## Normal spelling -/

/-- Normal paths that name the same file are the same text. -/
theorem IsNormal.eq_of_components_eq {q : FilePath} (hp : p.IsNormal) (hq : q.IsNormal)
    (h : p.components = q.components) : p = q := by
  obtain ⟨n, hn, rfl⟩ := hp
  obtain ⟨m, hm, rfl⟩ := hq
  rw [NormalPath.eq_of_components_eq hn hm h]

/-- The file name of a normal path is the last of its names. -/
theorem NormalPath.exists_names_of_fileName? {n : NormalPath} (hn : n.IsPlain) {name : String}
    (h : n.toFilePath.fileName? = some name) : ∃ names, n.names = names ++ [name] := by
  rw [fileName?_eq, NormalPath.components_toFilePath hn] at h
  obtain ⟨step, hlast, hstep⟩ := Option.bind_eq_some_iff.1 h
  cases hnames : n.names.getLast? with
  | none =>
    rw [List.getLast?_append, List.getLast?_map, hnames] at hlast
    obtain ⟨absolute, names⟩ := n
    cases absolute <;> cases hlast
    cases hstep
  | some s =>
    rw [List.getLast?_append, List.getLast?_map, hnames] at hlast
    cases hlast
    cases hstep
    exact List.getLast?_eq_some_iff.1 hnames

/-- The last name of a normal path stands at its end. -/
theorem NormalPath.splitLast?_toFilePath {n : NormalPath} (hn : n.IsPlain) {names : List String}
    {name : String} (hnames : n.names = names ++ [name]) :
    n.toFilePath.splitLast? =
      some ((if n.absolute then [[]] else []) ++ names.map String.toList, name.toList) := by
  have hplain := hn name (by simp [hnames])
  unfold splitLast?
  rw [NormalPath.segments_toFilePath hn (by simp [hnames]), hnames, List.map_append,
    ← List.append_assoc, List.map_singleton, List.reverse_append, List.reverse_singleton,
    List.singleton_append, List.dropWhile_cons_of_neg (by simp [hplain.1])]
  simp

/-- The name of a normal path stands at its end, and can be replaced there. -/
theorem NormalPath.withoutExtension_toFilePath {n : NormalPath} (hn : n.IsPlain) {names : List String}
    {name : String} (hnames : n.names = names ++ [name]) (stem : String)
    (hstem : (splitExtension name.toList).1 = stem.toList) :
    n.toFilePath.withoutExtension = NormalPath.toFilePath ⟨n.absolute, names ++ [stem]⟩ := by
  have hplain := hn name (by simp [hnames])
  have hsplit := NormalPath.splitLast?_toFilePath hn hnames
  unfold withoutExtension
  rw [hsplit]
  dsimp only
  rw [if_neg hplain.2.1, hstem]
  unfold NormalPath.toFilePath
  congr 1
  rw [← String.toList_inj, String.toList_ofList, String.toList_append, toList_intercalate_slash]
  cases n.absolute with
  | false => simp
  | true =>
    cases names with
    | nil => simp [joinSlashes]
    | cons t ts => simp [joinSlashes]

/-- The sketch that a normal path has the name of has a normal path. -/
theorem IsNormal.editedName (h : p.IsNormal) (hheader : p.isPrototypeHeader = false) :
    p.editedName.IsNormal := by
  unfold FilePath.editedName
  rw [hheader, Bool.or_false]
  split
  · next hentry =>
    have hends : p.nameEndsWith (String.ofList ['.', 'i', 'n', 'o', '.', 'c', 'p', 'p']) = true :=
      hentry
    obtain ⟨stem, last, front, hname, hstem, -, hdot⟩ := exists_of_nameEndsWith (by decide) hends
    obtain ⟨n, hn, rfl⟩ := h
    obtain ⟨names, hnames⟩ := NormalPath.exists_names_of_fileName? hn hname
    have hlength : 4 ≤ stem.length := by
      have heq := congrArg List.length hstem
      simp only [List.length_map, List.length_append, List.length_cons, List.length_nil] at heq
      omega
    have hne : stem ≠ [] := by
      rintro rfl
      cases hlength
    rw [NormalPath.withoutExtension_toFilePath hn hnames (String.ofList stem)
      (by rw [String.toList_ofList, splitExtension_append stem hdot, if_neg hne,
        String.toList_ofList])]
    refine ⟨_, fun t ht => ?_, rfl⟩
    rcases List.mem_append.1 ht with ht | ht
    · exact hn t (by rw [hnames]; exact List.mem_append_left _ ht)
    · rw [List.mem_singleton.1 ht, String.toList_ofList]
      have hslash := (hn _ (by rw [hnames]; exact List.mem_concat_self)).2.2
      rw [String.toList_ofList, List.mem_append, not_or] at hslash
      refine ⟨?_, ?_, hslash.1⟩
      · rw [Bool.eq_false_iff]
        intro hidle
        rcases Bool.or_eq_true_iff.1 hidle with hnil | hcurrent
        · exact hne (of_decide_eq_true hnil)
        · rw [of_decide_eq_true hcurrent] at hlength
          exact absurd hlength (by decide)
      · rintro rfl
        exact absurd hlength (by decide)
  · exact h

end SketchSense.FilePath
