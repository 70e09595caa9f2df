import Mathlib.Data.List.Pairwise
import SketchSense.Cache.Project
import SketchSense.Proofs.Diagnostic.Merging
import SketchSense.Proofs.Hash.Fields
import SketchSense.Proofs.Model.Scan

/-!
# What the open headers do to a unit

The signature of the open headers is a hash of their displayed paths and of their texts. As long as
no two paths are displayed alike and no two hashed inputs collide, the signature tells the headers
apart up to their order, and their order does not matter for what a unit reports.

* `FilePath.ToldApart`, that no two of some paths are displayed alike;
* `FileBuffer.headerKey`, what is hashed of a header, with `eq_of_headerFields_eq`, and
  `perm_of_headersSignature_eq`, that headers with one signature are the same;
* `Model.messages` and `diagnostics_of_buildUnit`, what a unit reports.
-/

namespace SketchSense

/-! ## The signature of the open headers -/

/-- The paths are told apart by how they are displayed, and a display ends at the first zero
character. -/
structure FilePath.ToldApart (paths : List FilePath) : Prop where
  noZero : ∀ p ∈ paths, '\x00' ∉ p.text.toList
  injective : ∀ p ∈ paths, ∀ q ∈ paths, p.display = q.display → p = q

/-- A path is told apart from itself. -/
theorem FilePath.toldApart_of_forall_eq {paths : List FilePath} {path : FilePath}
    (hzero : '\x00' ∉ path.text.toList) (h : ∀ p ∈ paths, p = path) : ToldApart paths :=
  ⟨fun p hp => h p hp ▸ hzero, fun p hp q hq _ => (h p hp).trans (h q hq).symm⟩

theorem FilePath.toldApart_singleton {p : FilePath} (hzero : '\x00' ∉ p.text.toList) :
    ToldApart [p] :=
  toldApart_of_forall_eq hzero (List.forall_mem_singleton.2 rfl)

/-- Paths without a zero character are told apart if no two of them are displayed alike. -/
theorem FilePath.toldApart_of_pairwise {paths : List FilePath}
    (hzero : ∀ p ∈ paths, '\x00' ∉ p.text.toList)
    (hne : paths.Pairwise fun p q => p.display ≠ q.display) : ToldApart paths := by
  refine ⟨hzero, fun p hp q hq heq => ?_⟩
  have hsymm : Std.Symm fun p q : FilePath => p.display ≠ q.display := ⟨fun _ _ h => h.symm⟩
  by_contra hpq
  exact hne.forall hp hq hpq heq

/-- What is hashed of a header: its path and the hash of its text. -/
def FileBuffer.headerKey (h : FileBuffer) : FilePath × ContentHash := (h.path, .ofText h.code)

/-- The bytes of one header. -/
def headerField (k : FilePath × ContentHash) : List UInt8 :=
  ContentHash.textField k.1.display ++ ContentHash.hashField k.2

theorem headersBytes_singleton (h : FileBuffer) : headersBytes [h] =
    ContentHash.textField h.path.display ++ ContentHash.hashField (.ofText h.code) := by
  rw [headersBytes, sortBy, List.mergeSort_singleton, List.flatMap_singleton]

section Signature

variable {paths : List FilePath} (hpaths : FilePath.ToldApart paths)

include hpaths

/-- What is hashed of headers is read off their bytes, one header after the other. -/
theorem eq_of_headerFields_eq {ks ls : List (FilePath × ContentHash)}
    (hks : ∀ k ∈ ks, k.1 ∈ paths) (hls : ∀ l ∈ ls, l.1 ∈ paths)
    (heq : ks.flatMap headerField = ls.flatMap headerField) : ks = ls := by
  have hzero {ks : List (FilePath × ContentHash)} (hks : ∀ k ∈ ks, k.1 ∈ paths) :
      ∀ k ∈ ks, '\x00' ∉ k.1.display.toList := fun k hk =>
    FilePath.not_mem_display (by decide) (hpaths.noZero _ (hks k hk))
  exact ContentHash.eq_of_namedHashes_eq FilePath.display (hzero hks) (hzero hls)
    (fun k hk l hl => hpaths.injective _ (hks k hk) _ (hls l hl)) heq

variable {inputs : List (List UInt8)} (hfree : ContentHash.CollisionFree inputs)
  {hs gs : List FileBuffer}
  (hhs : ∀ h ∈ hs, h.path ∈ paths ∧ ContentHash.textBytes h.code ∈ inputs)
  (hgs : ∀ g ∈ gs, g.path ∈ paths ∧ ContentHash.textBytes g.code ∈ inputs)

include hfree hhs hgs

/-- The bytes of headers tell the headers apart. -/
theorem eq_of_headerBytes_eq
    (heq : (hs.flatMap fun h => ContentHash.textField h.path.display ++
        ContentHash.hashField (.ofText h.code)) =
      gs.flatMap fun g => ContentHash.textField g.path.display ++
        ContentHash.hashField (.ofText g.code)) : hs = gs := by
  have hfields (fs : List FileBuffer) : (fs.map (·.headerKey)).flatMap headerField =
      fs.flatMap fun f => ContentHash.textField f.path.display ++
        ContentHash.hashField (.ofText f.code) := List.flatMap_map ..
  rw [← hfields, ← hfields] at heq
  have hkeys := eq_of_headerFields_eq hpaths (List.forall_mem_map.2 fun h hh => (hhs h hh).1)
    (List.forall_mem_map.2 fun g hg => (hgs g hg).1) heq
  -- headers with the same hash have the same text
  clear heq
  induction hs generalizing gs with
  | nil => exact (List.map_eq_nil_iff.1 hkeys.symm).symm
  | cons h hs ih =>
    obtain ⟨g, gs, rfl, hkey, hrest⟩ := List.map_eq_cons_iff.1 hkeys.symm
    obtain ⟨⟨-, htext⟩, hhs'⟩ := List.forall_mem_cons.1 hhs
    obtain ⟨⟨-, gtext⟩, hgs'⟩ := List.forall_mem_cons.1 hgs
    obtain ⟨hpath, hhash⟩ := Prod.mk.inj hkey
    obtain ⟨path, code⟩ := h
    obtain ⟨path', code'⟩ := g
    have hcode : code' = code := hfree.text_eq gtext htext hhash
    dsimp only at hpath
    rw [hpath, hcode, ih hhs' hgs' hrest.symm]

/-- Headers with the same signature are the same up to their order. -/
theorem perm_of_headersSignature_eq (hbytes : headersBytes hs ∈ inputs)
    (gbytes : headersBytes gs ∈ inputs) (heq : headersSignature hs = headersSignature gs) :
    hs.Perm gs := by
  -- the bytes are those of the sorted headers, so what they tell apart is the sorted lists
  have hsorted : sortBy (fun a b : FileBuffer => a.path.compare b.path) hs =
      sortBy (fun a b : FileBuffer => a.path.compare b.path) gs := by
    refine eq_of_headerBytes_eq hpaths hfree (fun h hh => ?_) (fun g hg => ?_)
      (hfree _ hbytes _ gbytes heq)
    · exact hhs h ((sortBy_perm _ _).mem_iff.1 hh)
    · exact hgs g ((sortBy_perm _ _).mem_iff.1 hg)
  exact (sortBy_perm _ hs).symm.trans (hsorted ▸ sortBy_perm _ gs)

end Signature

/-! ## What a unit reports -/

namespace Model

/-- The messages of a file; none if it cannot be read. -/
def messages (b : FileBuffer) : List RawDiagnostic :=
  match FileModel.ofBuffer b with
  | .ok m => m.diagnostics
  | .error _ => []

/-- The messages of a file are there and have no notes. -/
theorem isAlone_of_mem_messages {b : FileBuffer} {d : RawDiagnostic} (h : d ∈ messages b) :
    d.IsAlone ∧ d.spelling.file = b.path := by
  unfold messages at h
  split at h
  · next m hm =>
    obtain ⟨lx, declared, -, -, rfl⟩ := ofBuffer_eq_ok.1 hm
    obtain ⟨directive, -, hreport⟩ := List.mem_filterMap.1 h
    unfold Directive.report? at hreport
    split at hreport
    · cases hreport
      exact ⟨⟨_, _, _, rfl, by decide⟩, rfl⟩
    · cases hreport
      exact ⟨⟨_, _, _, rfl, by decide⟩, rfl⟩
    · cases hreport
  · cases h

/-- Every message of some files is one of a file. -/
theorem exists_of_mem_flatMap_messages {bs : List FileBuffer} {d : RawDiagnostic}
    (h : d ∈ bs.flatMap messages) : d.IsAlone ∧ ∃ b ∈ bs, d.spelling.file = b.path := by
  obtain ⟨b, hb, hd⟩ := List.mem_flatMap.1 h
  exact ⟨(isAlone_of_mem_messages hd).1, b, hb, (isAlone_of_mem_messages hd).2⟩

/-- A unit reports the messages of its files. -/
theorem diagnostics_of_buildUnit {main : FilePath} {unsaved : List FileBuffer} {u : CompilationUnit}
    (h : buildUnit main unsaved = .ok u) :
    u.diagnostics = (mainLast main unsaved).flatMap messages := by
  obtain ⟨files, hfiles, rfl⟩ := buildUnit_eq_ok.1 h
  show files.flatMap (·.diagnostics) = _
  clear h
  generalize mainLast main unsaved = bs at hfiles ⊢
  have hall := mapM_eq_ok_iff.1 hfiles
  clear hfiles
  induction hall with
  | nil => rfl
  | cons hread _ ih =>
    rw [List.flatMap_cons, List.flatMap_cons, ih, messages, hread]

end Model

end SketchSense
