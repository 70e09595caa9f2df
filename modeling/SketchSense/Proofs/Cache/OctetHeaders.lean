import SketchSense.Proofs.Cache.Keys
import SketchSense.Proofs.FilePath.OctetNames
import SketchSense.Proofs.FilePath.OctetOrder

/-!
# Keys of headers whose paths are octets

Headers are sorted by the octets of their paths and hashed with what their paths are shown as. Where
two paths are shown alike their headers cannot be told apart by the bytes, but paths that are texts
are shown as they are.

* `OctetPath.headersBytes`, the bytes of headers, with `headersBytes_ofText`, that for texts they are
  those of the texts;
* `eq_of_display_ofText`, that texts are not shown alike;
* `headersBytes_eq_iff_of_apart`, that the bytes tell headers apart whose paths are not shown alike,
  with `headersBytes_eq_of_replaced_octet`, what happens where they are.
-/

namespace SketchSense.OctetPath

open ContentHash

/-- The order in which headers are hashed. -/
def compareKeys (k l : OctetPath × ContentHash) : Ordering := k.1.compare l.1

/-- The hashed bytes of headers: the path and the hash of the text of each, in the order of paths. -/
def headersBytes (ks : List (OctetPath × ContentHash)) : List UInt8 :=
  (sortBy compareKeys ks).flatMap fun k => textField k.1.display ++ hashField k.2

instance : Std.TransCmp compareKeys where
  eq_swap {k l} := show k.1.spelled.compare l.1.spelled = (l.1.spelled.compare k.1.spelled).swap from
    Std.OrientedCmp.eq_swap
  isLE_trans {k l m} (h : (k.1.spelled.compare l.1.spelled).isLE)
    (h' : (l.1.spelled.compare m.1.spelled).isLE) :=
    show (k.1.spelled.compare m.1.spelled).isLE from Std.TransCmp.isLE_trans h h'

/-! ## Paths that are texts -/

/-- The bytes of headers whose paths are texts. -/
theorem headersBytes_ofText (hs : List FileBuffer) :
    headersBytes (hs.map fun h => (ofText h.path, .ofText h.code)) =
      SketchSense.headersBytes hs := by
  have horder (a : FileBuffer) (_ : a ∈ hs) (b : FileBuffer) (_ : b ∈ hs) :
      compareKeys (ofText a.path, .ofText a.code) (ofText b.path, .ofText b.code) =
        a.path.compare b.path := compare_ofText a.path b.path
  unfold headersBytes SketchSense.headersBytes
  rw [sortBy_map (fun h : FileBuffer => (ofText h.path, ContentHash.ofText h.code)) horder,
    List.flatMap_map]
  simp only [display_ofText]

/-- Texts without backslashes are not shown alike. -/
theorem eq_of_display_ofText {s t : FilePath} (hs : '\\' ∉ s.text.toList)
    (ht : '\\' ∉ t.text.toList) (h : (ofText s).display = (ofText t).display) : s = t := by
  rw [display_ofText, display_ofText, FilePath.display_eq_text hs, FilePath.display_eq_text ht] at h
  exact congrArg FilePath.mk h

/-! ## Headers under different paths -/

/-- No two paths are the same, and every path is normal and has no zero octet. -/
structure PlainKeys (ks : List (OctetPath × ContentHash)) : Prop where
  distinct : ks.Pairwise fun k l => k.1 ≠ l.1
  normal : ∀ k ∈ ks, k.1.IsNormal
  noZero : ∀ k ∈ ks, 0 ∉ k.1.octets

theorem PlainKeys.singleton (hash : ContentHash) {p : OctetPath} (hnormal : p.IsNormal)
    (hzero : 0 ∉ p.octets) : PlainKeys [(p, hash)] where
  distinct := List.pairwise_singleton _ _
  normal := List.forall_mem_singleton.2 hnormal
  noZero := List.forall_mem_singleton.2 hzero

variable {ks ls : List (OctetPath × ContentHash)}

/-- What a path is shown as has a zero character only for a zero octet. -/
theorem PlainKeys.zero_not_mem_display (h : PlainKeys ks) :
    ∀ k ∈ ks, '\x00' ∉ k.1.display.toList := by
  intro k hk
  refine FilePath.not_mem_display (by decide) fun hzero => h.noZero k hk ?_
  exact Text.mem_of_mem_lossyText (c := '\x00') (by decide) hzero

/-- The order of the headers does not matter. -/
theorem headersBytes_eq_of_keys_perm (hks : PlainKeys ks) (hperm : ks.Perm ls) :
    headersBytes ks = headersBytes ls := by
  -- no two headers have the same place in the order, so there is one way to sort them
  have hequal : ∀ k ∈ ks, ∀ l ∈ ks, compareKeys k l = .eq → k = l := by
    intro k hk l hl heq
    have hspelled := (hks.normal k hk).eq_of_components_eq (hks.normal l hl)
      (Std.LawfulEqCmp.eq_of_compare heq)
    exact List.inj_on_of_nodup_map (List.pairwise_map.2 hks.distinct) hk hl
      (spelled_injective hspelled)
  unfold headersBytes
  rw [sortBy_eq_of_perm hperm hequal]

/-- The bytes of headers whose paths are not shown alike are the same exactly if the headers are, in
whatever order. -/
theorem headersBytes_eq_iff_of_apart (hks : PlainKeys ks) (hls : PlainKeys ls)
    (hapart : ∀ k ∈ ks, ∀ l ∈ ls, k.1.display = l.1.display → k.1 = l.1) :
    headersBytes ks = headersBytes ls ↔ ks.Perm ls := by
  refine ⟨fun h => ?_, headersBytes_eq_of_keys_perm hks⟩
  have hmem {ks : List (OctetPath × ContentHash)} {k : OctetPath × ContentHash} :
      k ∈ sortBy compareKeys ks → k ∈ ks := (sortBy_perm _ _).mem_iff.1
  have hsorted : sortBy compareKeys ks = sortBy compareKeys ls :=
    eq_of_namedHashes_eq display (fun k hk => hks.zero_not_mem_display k (hmem hk))
      (fun l hl => hls.zero_not_mem_display l (hmem hl))
      (fun k hk l hl => hapart k (hmem hk) l (hmem hl)) h
  exact (sortBy_perm compareKeys ks).symm.trans (hsorted ▸ sortBy_perm compareKeys ls)

/-- Two headers whose names start with octets that are both shown as the replacement character. -/
theorem headersBytes_eq_of_replaced_octet :
    PlainKeys [(⟨[47, 115, 47, 255, 46, 104]⟩, .ofText "int a;\n")] ∧
      PlainKeys [(⟨[47, 115, 47, 254, 46, 104]⟩, .ofText "int a;\n")] ∧
      headersBytes [(⟨[47, 115, 47, 255, 46, 104]⟩, .ofText "int a;\n")] =
        headersBytes [(⟨[47, 115, 47, 254, 46, 104]⟩, .ofText "int a;\n")] ∧
      ¬ [((⟨[47, 115, 47, 255, 46, 104]⟩ : OctetPath), ContentHash.ofText "int a;\n")].Perm
        [(⟨[47, 115, 47, 254, 46, 104]⟩, .ofText "int a;\n")] := by
  have hshown : (⟨[47, 115, 47, 255, 46, 104]⟩ : OctetPath).display =
      (⟨[47, 115, 47, 254, 46, 104]⟩ : OctetPath).display := by decide +kernel
  refine ⟨.singleton _ (FilePath.isNormal_normalize ⟨"/s/ÿ.h"⟩ ⟨"/"⟩) (by decide),
    .singleton _ (FilePath.isNormal_normalize ⟨"/s/þ.h"⟩ ⟨"/"⟩) (by decide), ?_, ?_⟩
  · unfold headersBytes sortBy
    rw [List.mergeSort_singleton, List.mergeSort_singleton, List.flatMap_singleton,
      List.flatMap_singleton, hshown]
  · intro hperm
    have hkey := List.singleton_perm_singleton.1 hperm
    exact absurd (congrArg (fun k : OctetPath × ContentHash => k.1.octets) hkey) (by decide)

end SketchSense.OctetPath
