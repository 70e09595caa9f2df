import SketchSense.Proofs.Cache.Headers
import SketchSense.Proofs.Collation

/-!
# What the keys of a project carry

A unit of a project is taken to be up to date by two composite keys, that of its arguments and that of
the open headers. The bytes of a key are fields one after the other, which are read back off the front.
Headers were sorted by their paths before, so that nothing but their order is lost.

* `argumentsBytes_inj`, that the bytes of arguments tell the arguments apart;
* `PlainHeaders`, headers under different paths that are displayed as they are;
* `headersBytes_eq_iff`, that the bytes of headers tell what is hashed of them apart up to the order,
  with `headersBytes_eq_of_perm`, that the order of the headers does not matter.
-/

namespace SketchSense

open ContentHash

/-! ## Arguments -/

/-- Texts without zero characters are read off one after the other. -/
theorem eq_of_textFields_eq {ss ts : List String} (hss : ∀ s ∈ ss, '\x00' ∉ s.toList)
    (hts : ∀ t ∈ ts, '\x00' ∉ t.toList) (h : ss.flatMap textField = ts.flatMap textField) :
    ss = ts := by
  induction ss generalizing ts with
  | nil =>
    cases ts with
    | nil => rfl
    | cons t ts => simp [textField] at h
  | cons s ss ih =>
    cases ts with
    | nil => simp [textField] at h
    | cons t ts =>
      obtain ⟨hs, hrest⟩ := List.forall_mem_cons.1 hss
      obtain ⟨ht, hrest'⟩ := List.forall_mem_cons.1 hts
      obtain ⟨rfl, hbytes⟩ := textField_append_inj hs ht h
      rw [ih hrest hrest' hbytes]

/-- The bytes of arguments without zero characters tell the arguments apart. -/
theorem argumentsBytes_inj {as bs : List String} (has : ∀ a ∈ as, '\x00' ∉ a.toList)
    (hbs : ∀ b ∈ bs, '\x00' ∉ b.toList) : argumentsBytes as = argumentsBytes bs ↔ as = bs := by
  refine ⟨fun h => ?_, congrArg argumentsBytes⟩
  -- the number in front takes eight bytes, whatever it is
  obtain ⟨-, hfields⟩ := List.append_inj h (by simp [numberField])
  exact eq_of_textFields_eq has hbs hfields

/-! ## Headers -/

/-- The order in which headers are hashed. -/
def compareHeaders (k l : FilePath × ContentHash) : Ordering := k.1.compare l.1

instance : Std.TransCmp compareHeaders where
  eq_swap {k l} := show k.1.compare l.1 = (l.1.compare k.1).swap from Std.OrientedCmp.eq_swap
  isLE_trans {k l m} (h : (k.1.compare l.1).isLE) (h' : (l.1.compare m.1).isLE) :=
    show (k.1.compare m.1).isLE from Std.TransCmp.isLE_trans h h'

variable {hs gs : List FileBuffer}

/-- The bytes depend on what is hashed of the headers alone. -/
theorem headersBytes_eq_flatMap (hs : List FileBuffer) :
    headersBytes hs = (sortBy compareHeaders (hs.map (·.headerKey))).flatMap headerField := by
  rw [sortBy_map (r := fun a b : FileBuffer => a.path.compare b.path) FileBuffer.headerKey
    fun _ _ _ _ => rfl, List.flatMap_map]
  rfl

/-- No two paths are the same, and every path is normal and displayed as it is, with a display that
the zero byte ends. -/
structure PlainHeaders (hs : List FileBuffer) : Prop where
  distinct : hs.Pairwise fun g h => g.path ≠ h.path
  normal : ∀ h ∈ hs, h.path.IsNormal
  noZero : ∀ h ∈ hs, '\x00' ∉ h.path.text.toList
  noBackslash : ∀ h ∈ hs, '\\' ∉ h.path.text.toList

theorem PlainHeaders.perm (h : PlainHeaders hs) (hperm : hs.Perm gs) : PlainHeaders gs where
  distinct := h.distinct.perm hperm fun hne => hne.symm
  normal g hg := h.normal g (hperm.mem_iff.2 hg)
  noZero g hg := h.noZero g (hperm.mem_iff.2 hg)
  noBackslash g hg := h.noBackslash g (hperm.mem_iff.2 hg)

theorem PlainHeaders.sublist (h : PlainHeaders hs) (hsub : gs.Sublist hs) : PlainHeaders gs where
  distinct := h.distinct.sublist hsub
  normal g hg := h.normal g (hsub.mem hg)
  noZero g hg := h.noZero g (hsub.mem hg)
  noBackslash g hg := h.noBackslash g (hsub.mem hg)

/-- Paths without backslashes are told apart, since they are displayed as they are. -/
theorem FilePath.toldApart_of_noBackslash {paths : List FilePath}
    (hzero : ∀ p ∈ paths, '\x00' ∉ p.text.toList) (hslash : ∀ p ∈ paths, '\\' ∉ p.text.toList) :
    ToldApart paths := by
  refine ⟨hzero, fun p hp q hq hdisplay => ?_⟩
  rw [display_eq_text (hslash p hp), display_eq_text (hslash q hq)] at hdisplay
  exact congrArg FilePath.mk hdisplay

/-- Of headers with different paths no two are hashed at one place. -/
theorem headerKey_eq_of_compare (hdistinct : hs.Pairwise fun g h => g.path ≠ h.path)
    (hnormal : ∀ h ∈ hs, h.path.IsNormal) :
    ∀ k ∈ hs.map (·.headerKey), ∀ l ∈ hs.map (·.headerKey), compareHeaders k l = .eq → k = l := by
  intro k hk l hl heq
  obtain ⟨g, hg, rfl⟩ := List.mem_map.1 hk
  obtain ⟨h, hh, rfl⟩ := List.mem_map.1 hl
  have hpath : g.path = h.path :=
    (hnormal g hg).eq_of_components_eq (hnormal h hh) (Std.LawfulEqCmp.eq_of_compare heq)
  exact congrArg FileBuffer.headerKey
    (List.inj_on_of_nodup_map (List.pairwise_map.2 hdistinct) hg hh hpath)

/-- The order of the headers does not matter. -/
theorem headersBytes_eq_of_perm (hdistinct : hs.Pairwise fun g h => g.path ≠ h.path)
    (hnormal : ∀ h ∈ hs, h.path.IsNormal)
    (hperm : (hs.map (·.headerKey)).Perm (gs.map (·.headerKey))) :
    headersBytes hs = headersBytes gs := by
  rw [headersBytes_eq_flatMap, headersBytes_eq_flatMap,
    sortBy_eq_of_perm hperm (headerKey_eq_of_compare hdistinct hnormal)]

/-- The bytes of headers are the same exactly if the same is hashed of them, in whatever order. -/
theorem headersBytes_eq_iff (hhs : PlainHeaders hs) (hgs : PlainHeaders gs) :
    headersBytes hs = headersBytes gs ↔ (hs.map (·.headerKey)).Perm (gs.map (·.headerKey)) := by
  refine ⟨fun h => ?_, headersBytes_eq_of_perm hhs.distinct hhs.normal⟩
  have hpaths : FilePath.ToldApart ((hs ++ gs).map (·.path)) :=
    FilePath.toldApart_of_noBackslash
      (List.forall_mem_map.2 (List.forall_mem_append.2 ⟨hhs.noZero, hgs.noZero⟩))
      (List.forall_mem_map.2 (List.forall_mem_append.2 ⟨hhs.noBackslash, hgs.noBackslash⟩))
  have hmem (fs : List FileBuffer) (hfs : ∀ f ∈ fs, f ∈ hs ++ gs) :
      ∀ k ∈ sortBy compareHeaders (fs.map (·.headerKey)), k.1 ∈ (hs ++ gs).map (·.path) := by
    intro k hk
    obtain ⟨f, hf, rfl⟩ := List.mem_map.1 ((sortBy_perm _ _).mem_iff.1 hk)
    exact List.mem_map_of_mem (hfs f hf)
  rw [headersBytes_eq_flatMap, headersBytes_eq_flatMap] at h
  have hsorted := eq_of_headerFields_eq hpaths (hmem hs fun _ => List.mem_append_left _)
    (hmem gs fun _ => List.mem_append_right _) h
  exact (sortBy_perm compareHeaders _).symm.trans (hsorted ▸ sortBy_perm compareHeaders _)

end SketchSense
