import SketchSense.Proofs.FilePath.Composition

/-!
# Names made for sketches are faithful

The two names made for a sketch are its own name with one more extension. So they stand beside the
sketch, and taking the extension off again leads back to it: no other sketch has either of them.

* `NormalPath.append_toFilePath`, text written behind a normal path;
* `HasExtension`, a path that is another one with an extension behind it;
* `syntheticNames`, the names made for a sketch, with `syntheticNames_faithful`.
-/

namespace SketchSense.FilePath

variable {p q f g : FilePath}

/-! ## One more extension -/

/-- Text behind a normal path is written behind its last name. -/
theorem NormalPath.append_toFilePath (absolute : Bool) (names : List String) (name tail : String) :
    (NormalPath.toFilePath ⟨absolute, names ++ [name]⟩).append tail =
      NormalPath.toFilePath ⟨absolute, names ++ [name ++ tail]⟩ := by
  apply eq_of_toList_eq
  show ((NormalPath.toFilePath _).text ++ tail).toList = _
  rw [String.toList_append, toList_toFilePath, toList_toFilePath]
  dsimp only
  rw [List.map_append, List.map_append, List.map_singleton, List.map_singleton,
    String.toList_append]
  cases names with
  | nil => exact List.append_assoc _ _ _
  | cons t ts =>
    rw [joinSlashes_concat (by simp), joinSlashes_concat (by simp)]
    simp

/-- A normal path that has a file name is written with it behind its other names. -/
theorem IsNormal.exists_names (hnormal : p.IsNormal) {name : String} (hname : p.fileName? = some name) :
    ∃ absolute names, NormalPath.IsPlain ⟨absolute, names ++ [name]⟩ ∧
      NormalPath.toFilePath ⟨absolute, names ++ [name]⟩ = p := by
  obtain ⟨⟨absolute, all⟩, hplain, rfl⟩ := hnormal
  obtain ⟨names, hnames⟩ := NormalPath.exists_names_of_fileName? hplain hname
  obtain rfl : all = names ++ [name] := hnames
  exact ⟨absolute, names, hplain, rfl⟩

/-- The path `f` is `p` with one more extension behind it. -/
structure HasExtension (p f : FilePath) : Prop where
  normal : f.IsNormal
  back : f.withoutExtension = p
  beside : ∃ dir, p.parent? = some dir ∧ f.parent? = some dir

/-- A normal path that has a file name gets one more extension when it is written behind it. -/
theorem hasExtension_append (hnormal : p.IsNormal) {name : String} (hname : p.fileName? = some name)
    {ext : List Char} (hext : ext ≠ []) (hdot : '.' ∉ ext) (hslash : '/' ∉ ext) :
    p.HasExtension (p.append (String.ofList ('.' :: ext))) := by
  obtain ⟨absolute, names, hplain, rfl⟩ := hnormal.exists_names hname
  obtain ⟨hidle, -, hname⟩ := hplain name (by simp)
  have hne : name.toList ≠ [] := by
    intro hnil
    rw [hnil] at hidle
    cases hidle
  -- with the extension the name is too long to say nothing or to lead up
  have hmade : IsPlainName (name ++ String.ofList ('.' :: ext)).toList := by
    rw [String.toList_append, String.toList_ofList]
    have hname' := List.length_pos_iff.2 hne
    have hext' := List.length_pos_iff.2 hext
    have hlong : 2 < (name.toList ++ '.' :: ext).length := by
      rw [List.length_append, List.length_cons]
      omega
    obtain ⟨hidle', hup⟩ := isIdle_of_length hlong
    exact ⟨hidle', hup, by simp [hname, hslash]⟩
  have hplain' : NormalPath.IsPlain ⟨absolute, names ++ [name ++ String.ofList ('.' :: ext)]⟩ := by
    intro s hs
    rcases List.mem_append.1 hs with hs | hs
    · exact hplain s (List.mem_append_left _ hs)
    · rw [List.mem_singleton.1 hs]
      exact hmade
  have hstem : (splitExtension (name ++ String.ofList ('.' :: ext)).toList).1 = name.toList := by
    rw [String.toList_append, String.toList_ofList, splitExtension_append name.toList hdot,
      if_neg hne]
  rw [NormalPath.append_toFilePath]
  constructor
  case normal => exact ⟨_, hplain', rfl⟩
  case back => exact NormalPath.withoutExtension_toFilePath hplain' rfl name hstem
  case beside => exact ⟨_, parent?_of_names hplain rfl, parent?_of_names hplain' rfl⟩

/-! ## Names made for a sketch -/

/-- The names made for a sketch: the one that it is analysed under, and that of its header. -/
def syntheticNames (p : FilePath) : List FilePath := [p.analyzedName, p.prototypeHeader]

section

variable (hkind : p.kind = .sketchEntry) (hnormal : p.IsNormal)

include hkind hnormal

theorem hasExtension_of_mem_syntheticNames (hf : f ∈ p.syntheticNames) : p.HasExtension f := by
  obtain ⟨name, hname⟩ := exists_fileName?_of_kind (by rw [hkind]; decide)
  have hadd (ext : List Char) (hext : ext ≠ []) (hdot : '.' ∉ ext) (hslash : '/' ∉ ext) :=
    hasExtension_append hnormal hname hext hdot hslash
  unfold syntheticNames at hf
  rw [analyzedName, if_pos hkind, List.mem_cons, List.mem_singleton] at hf
  rcases hf with rfl | rfl
  · exact hadd ['c', 'p', 'p'] (by decide) (by decide) (by decide)
  · exact hadd ['h', 'p', 'p'] (by decide) (by decide) (by decide)

/-- The header of a sketch with a normal path is known as a generated one. -/
theorem isPrototypeHeader_of_isNormal : p.prototypeHeader.isPrototypeHeader = true :=
  nameEndsWith_append (by decide) hkind hnormal (by decide) (by decide)

theorem isSynthetic_of_mem_syntheticNames (hf : f ∈ p.syntheticNames) : f.isSynthetic = true := by
  unfold syntheticNames at hf
  rw [List.mem_cons, List.mem_singleton] at hf
  unfold isSynthetic
  rcases hf with rfl | rfl
  · rw [isAnalyzedEntry_analyzedName hkind hnormal, Bool.true_or]
  · rw [isPrototypeHeader_of_isNormal hkind hnormal, Bool.or_true]

/-- Each name made for a sketch leads back to it. -/
theorem editedName_of_mem_syntheticNames (hf : f ∈ p.syntheticNames) : f.editedName = p := by
  rw [editedName_eq, if_pos (isSynthetic_of_mem_syntheticNames hkind hnormal hf)]
  exact (hasExtension_of_mem_syntheticNames hkind hnormal hf).back

/-- Sketches that share a name made for one of them are the same. -/
theorem eq_of_shared_syntheticName (hkind' : q.kind = .sketchEntry) (hnormal' : q.IsNormal)
    (hf : f ∈ p.syntheticNames) (hg : g ∈ q.syntheticNames) (hshared : (f == g) = true) : q = p := by
  have hfnormal := (hasExtension_of_mem_syntheticNames hkind hnormal hf).normal
  have hgnormal := (hasExtension_of_mem_syntheticNames hkind' hnormal' hg).normal
  have heq : f = g := hfnormal.eq_of_components_eq hgnormal (beq_iff.1 hshared)
  calc q = g.editedName := (editedName_of_mem_syntheticNames hkind' hnormal' hg).symm
    _ = f.editedName := by rw [heq]
    _ = p := editedName_of_mem_syntheticNames hkind hnormal hf

/-- A sketch, the name that it is analysed under and its header are different files. -/
theorem pairwise_syntheticNames :
    (p :: p.syntheticNames).Pairwise fun f g => (f == g) = false := by
  -- the two names made are known as such, and the sketch's own name is not
  have hsketch : p.isSynthetic = false := by
    rw [Bool.eq_false_iff]
    intro hsynthetic
    rcases Bool.or_eq_true_iff.1 hsynthetic with h | h
    · exact absurd (hkind.symm.trans (kind_of_isAnalyzedEntry h)) (by decide)
    · exact absurd (hkind.symm.trans (kind_of_isPrototypeHeader h)) (by decide)
  rw [List.pairwise_cons]
  constructor
  · intro f hf
    rw [Bool.eq_false_iff]
    intro heq
    have hmade := isSynthetic_of_mem_syntheticNames hkind hnormal hf
    rw [← isSynthetic_eq_of_beq heq, hsketch] at hmade
    cases hmade
  · have hapart := prototypeHeader_ne_analyzedName hkind
    rw [BEq.comm] at hapart
    exact List.pairwise_pair.2 hapart

end

/-- The names made for a sketch with a normal path are known as what they are and lead back to it.
They are files of its directory, no two of the three are the same, and no other sketch has one of
them. -/
theorem syntheticNames_faithful (hkind : p.kind = .sketchEntry) (hnormal : p.IsNormal) :
    (p.analyzedName.isAnalyzedEntry = true ∧ p.analyzedName.kind = .source) ∧
      (p.prototypeHeader.isPrototypeHeader = true ∧ p.prototypeHeader.kind = .header) ∧
      (∀ f ∈ p.syntheticNames, f.editedName = p) ∧
      (∃ dir, ∀ f ∈ p :: p.syntheticNames, f.parent? = some dir) ∧
      ((p :: p.syntheticNames).Pairwise fun f g => (f == g) = false) ∧
      ∀ q : FilePath, q.kind = .sketchEntry → q.IsNormal → q ≠ p →
        ∀ f ∈ p.syntheticNames, ∀ g ∈ q.syntheticNames, (f == g) = false := by
  have hentry := isAnalyzedEntry_analyzedName hkind hnormal
  have hheader := isPrototypeHeader_of_isNormal hkind hnormal
  refine ⟨⟨hentry, kind_of_isAnalyzedEntry hentry⟩, ⟨hheader, kind_of_isPrototypeHeader hheader⟩,
    fun f => editedName_of_mem_syntheticNames hkind hnormal, ?_,
    pairwise_syntheticNames hkind hnormal, ?_⟩
  · obtain ⟨dir, hdir, -⟩ :=
      (hasExtension_of_mem_syntheticNames hkind hnormal List.mem_cons_self).beside
    refine ⟨dir, ?_⟩
    intro f hf
    rcases List.mem_cons.1 hf with rfl | hf
    · exact hdir
    · obtain ⟨dir', hdir', hbeside⟩ := (hasExtension_of_mem_syntheticNames hkind hnormal hf).beside
      rw [hbeside, ← hdir', hdir]
  · intro q hkind' hnormal' hne f hf g hg
    rw [Bool.eq_false_iff]
    intro hshared
    exact hne (eq_of_shared_syntheticName hkind hnormal hkind' hnormal' hf hg hshared)

end SketchSense.FilePath
