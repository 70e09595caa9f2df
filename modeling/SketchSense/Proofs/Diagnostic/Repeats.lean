import Mathlib.Data.List.Pairwise
import SketchSense.Proofs.Diagnostic.Merging
import SketchSense.Proofs.Enumeration
import SketchSense.Proofs.Hash.Fields

/-!
# What a report leaves out

A report is to leave out a diagnostic that repeats another one: that says the same, as seriously, at
the same place. It goes by a text that is put together from the displayed path, the numbers and the
message. Whatever the texts are, a report is sorted and does not change any more. It leaves out the
repetitions and nothing else as far as the texts tell them apart, and they do for normal paths that
hold neither a colon nor a backslash.

* `Diagnostic.Repeats`, and `Diagnostic.Merges`, what a report of some diagnostics is to be;
* `Diagnostic.ReadsLike`, and `KeysTellRepeats`, that diagnostics that read alike repeat each other;
* `keysTellRepeats_of_isLegible`, paths for which they do;
* `sortAndDedup_merges`, what a report is.
-/

namespace SketchSense

/-! ## Keys that are read back -/

/-- A normal path that is displayed as it is written and ends at the first colon. -/
structure FilePath.IsLegible (p : FilePath) : Prop where
  normal : p.IsNormal
  noBackslash : '\\' ∉ p.text.toList
  noColon : ':' ∉ p.text.toList

namespace Diagnostic

/-- `d` says what `e` says, as seriously, at the same place. -/
structure Repeats (d e : Diagnostic) : Prop where
  file : (d.location.file == e.location.file) = true
  line : d.location.line = e.location.line
  column : d.location.column = e.location.column
  severity : d.severity = e.severity
  message : d.message = e.message

/-- `d` and `e` have one key and are as serious. -/
def ReadsLike (d e : Diagnostic) : Prop := d.repeatKey = e.repeatKey ∧ d.severity = e.severity

variable {d e f : Diagnostic} {ds : List Diagnostic}

theorem Repeats.refl (d : Diagnostic) : d.Repeats d := ⟨BEq.rfl, rfl, rfl, rfl, rfl⟩

theorem Repeats.symm (h : d.Repeats e) : e.Repeats d :=
  ⟨BEq.symm h.file, h.line.symm, h.column.symm, h.severity.symm, h.message.symm⟩

theorem Repeats.trans (h : d.Repeats e) (h' : e.Repeats f) : d.Repeats f :=
  ⟨BEq.trans h.file h'.file, h.line.trans h'.line, h.column.trans h'.column,
    h.severity.trans h'.severity, h.message.trans h'.message⟩

theorem ReadsLike.refl (d : Diagnostic) : d.ReadsLike d := ⟨rfl, rfl⟩

theorem ReadsLike.symm (h : d.ReadsLike e) : e.ReadsLike d := ⟨h.1.symm, h.2.symm⟩

theorem ReadsLike.trans (h : d.ReadsLike e) (h' : e.ReadsLike f) : d.ReadsLike f :=
  ⟨h.1.trans h'.1, h.2.trans h'.2⟩

theorem toList_repeatKey (d : Diagnostic) : d.repeatKey.toList =
    d.location.file.display.toList ++ ':' :: (Nat.toDigits 10 d.location.line ++
      ':' :: (Nat.toDigits 10 d.location.column ++ ':' :: d.message.toList)) := by
  have htext (s : String) : toString s = s := rfl
  have hcolon : ":".toList = [':'] := rfl
  simp [repeatKey, htext, hcolon, Nat.toString_eq_repr, Nat.toList_repr]

theorem colon_not_mem_toDigits (n : Nat) : ':' ∉ Nat.toDigits 10 n := fun hmem =>
  absurd (Nat.isDigit_of_mem_toDigits (by decide) (by decide) hmem) (by decide)

theorem toDigits_inj {m n : Nat} (h : Nat.toDigits 10 m = Nat.toDigits 10 n) : m = n := by
  rw [← Nat.ofDigitChars_ten_toDigits (n := m), h, Nat.ofDigitChars_ten_toDigits]

/-- The key of a diagnostic in a legible file is read back. -/
theorem repeatKey_inj (hd : d.location.file.IsLegible) (he : e.location.file.IsLegible)
    (h : d.repeatKey = e.repeatKey) : d.location.file = e.location.file ∧
      d.location.line = e.location.line ∧ d.location.column = e.location.column ∧
      d.message = e.message := by
  have hkeys := congrArg String.toList h
  rw [toList_repeatKey, toList_repeatKey] at hkeys
  have hcolon {p : FilePath} (hp : p.IsLegible) : ':' ∉ p.display.toList :=
    FilePath.not_mem_display (by decide) hp.noColon
  -- neither the path nor a numeral holds a colon, so the key is cut at its first three colons
  obtain ⟨hfile, hkeys⟩ := append_cons_inj (hcolon hd) (hcolon he) hkeys
  obtain ⟨hline, hkeys⟩ :=
    append_cons_inj (colon_not_mem_toDigits _) (colon_not_mem_toDigits _) hkeys
  obtain ⟨hcolumn, hmessage⟩ :=
    append_cons_inj (colon_not_mem_toDigits _) (colon_not_mem_toDigits _) hkeys
  have htext : d.location.file.text = e.location.file.text := by
    rw [← FilePath.display_eq_text hd.noBackslash, ← FilePath.display_eq_text he.noBackslash,
      String.toList_inj.1 hfile]
  exact ⟨congrArg FilePath.mk htext, toDigits_inj hline, toDigits_inj hcolumn,
    String.toList_inj.1 hmessage⟩

/-- In normal files diagnostics that repeat each other read alike. -/
theorem Repeats.readsLike (hd : d.location.file.IsNormal) (he : e.location.file.IsNormal)
    (h : d.Repeats e) : d.ReadsLike e := by
  have hfile := hd.eq_of_components_eq he (FilePath.beq_iff.1 h.file)
  refine ⟨?_, h.severity⟩
  unfold repeatKey
  rw [hfile, h.line, h.column, h.message]

/-- Among `ds`, diagnostics read alike exactly if they repeat each other. -/
def KeysTellRepeats (ds : List Diagnostic) : Prop :=
  ∀ d ∈ ds, ∀ e ∈ ds, d.ReadsLike e ↔ d.Repeats e

/-- In legible files the keys tell what is repeated. -/
theorem keysTellRepeats_of_isLegible (h : ∀ d ∈ ds, d.location.file.IsLegible) :
    KeysTellRepeats ds := by
  intro d hd e he
  constructor
  · rintro ⟨hkey, hseverity⟩
    obtain ⟨hfile, hline, hcolumn, hmessage⟩ := repeatKey_inj (h d hd) (h e he) hkey
    exact ⟨beq_of_eq hfile, hline, hcolumn, hseverity, hmessage⟩
  · exact Repeats.readsLike (h d hd).normal (h e he).normal

/-! ## What a report is -/

/-- `out` is a report of `ds`: some of `ds` in full order, such that what is left out repeats
something in `out` and nothing in `out` repeats something before it. A report of `out` is `out`. -/
structure Merges (ds out : List Diagnostic) : Prop where
  sorted : out.Pairwise fun d e => (compareFull d e).isLE = true
  subperm : out.Subperm ds
  kept : ∀ d ∈ ds, ∃ e ∈ out, e.Repeats d
  once : out.Pairwise fun d e => ¬ d.Repeats e
  steady : sortAndDedup out = out

variable (ds)

theorem pairwise_sortAndDedup :
    (sortAndDedup ds).Pairwise fun d e => (compareFull d e).isLE = true :=
  (pairwise_sortBy compareFull ds).sublist (keepFirst_sublist _)

theorem sortAndDedup_subperm : (sortAndDedup ds).Subperm ds :=
  (keepFirst_sublist _).subperm.trans (sortBy_perm compareFull ds).subperm

/-- No two diagnostics in a report read alike. -/
theorem pairwise_not_readsLike : (sortAndDedup ds).Pairwise fun d e => ¬ d.ReadsLike e := by
  refine (pairwise_keepFirst _ _).imp ?_
  rintro d e hne ⟨hkey, hseverity⟩
  rw [hkey, hseverity, BEq.rfl] at hne
  cases hne

/-- A report of a report is the same. -/
theorem sortAndDedup_sortAndDedup : sortAndDedup (sortAndDedup ds) = sortAndDedup ds := by
  have hsorted : sortBy compareFull (sortAndDedup ds) = sortAndDedup ds :=
    List.mergeSort_of_pairwise (pairwise_sortAndDedup ds)
  have hkept : keepFirst (fun d : Diagnostic => (d.repeatKey, d.severity)) (sortAndDedup ds) =
      sortAndDedup ds := keepFirst_eq_self (pairwise_keepFirst _ _)
  rw [sortAndDedup, hsorted, hkept]

variable {ds}

/-- If the keys tell what is repeated, repetitions are left out and nothing else. -/
theorem KeysTellRepeats.merges (h : KeysTellRepeats ds) : Merges ds (sortAndDedup ds) where
  sorted := pairwise_sortAndDedup ds
  subperm := sortAndDedup_subperm ds
  kept d hd := by
    obtain ⟨e, hreported, he, hkey, hseverity, -⟩ := exists_mem_sortAndDedup hd
    exact ⟨e, hreported, (h e he d hd).1 ⟨hkey, hseverity⟩⟩
  once := by
    refine (pairwise_not_readsLike ds).imp_of_mem fun hd he hne hrepeats => hne ?_
    exact (h _ ((sortAndDedup_subperm ds).subset hd) _ ((sortAndDedup_subperm ds).subset he)).2
      hrepeats
  steady := sortAndDedup_sortAndDedup ds

/-- Related entries of a list are the same, if no entry is related to another one. -/
theorem eq_of_pairwise_not {r : Diagnostic → Diagnostic → Prop} (hr : ∀ d e, r d e → r e d)
    (h : ds.Pairwise fun d e => ¬ r d e) (hd : d ∈ ds) (he : e ∈ ds) (hde : r d e) : d = e := by
  have hsymm : Std.Symm fun d e => ¬ r d e := ⟨fun d e hne hed => hne (hr e d hed)⟩
  by_contra hne
  exact h.forall hd he hne hde

/-- Diagnostics that read alike repeat each other, if what is left out repeats something reported that
reads like it. -/
theorem Repeats.of_readsLike (hkept : ∀ f ∈ ds, ∃ g ∈ sortAndDedup ds, g.Repeats f ∧ g.ReadsLike f)
    (hd : d ∈ ds) (he : e ∈ ds) (h : d.ReadsLike e) : d.Repeats e := by
  obtain ⟨d', hd', hrepeats, halike⟩ := hkept d hd
  obtain ⟨e', he', hrepeats', halike'⟩ := hkept e he
  -- no two in the report read alike, so one and the same repeats both
  obtain rfl := eq_of_pairwise_not (fun _ _ => ReadsLike.symm) (pairwise_not_readsLike ds) hd' he'
    ((halike.trans h).trans halike'.symm)
  exact hrepeats.symm.trans hrepeats'

/-- Of two diagnostics alone repetitions are left out and nothing else only if their keys tell whether
they repeat each other. -/
theorem readsLike_iff_of_merges (h : Merges [d, e] (sortAndDedup [d, e])) :
    d.ReadsLike e ↔ d.Repeats e := by
  have hd : d ∈ [d, e] := List.mem_cons_self
  have he : e ∈ [d, e] := List.mem_cons_of_mem d (List.mem_singleton_self e)
  have hmem {f : Diagnostic} (hf : f ∈ [d, e]) : f = d ∨ f = e := by simpa using hf
  constructor
  · intro halike
    have hall {f : Diagnostic} (hf : f ∈ [d, e]) : f.ReadsLike d := by
      rcases hmem hf with rfl | rfl
      · exact .refl f
      · exact halike.symm
    refine Repeats.of_readsLike (fun f hf => ?_) hd he halike
    obtain ⟨g, hg, hrepeats⟩ := h.kept f hf
    exact ⟨g, hg, hrepeats, (hall (h.subperm.subset hg)).trans (hall hf).symm⟩
  · intro hrepeats
    have hall {f : Diagnostic} (hf : f ∈ sortAndDedup [d, e]) : f.Repeats d := by
      rcases hmem (h.subperm.subset hf) with rfl | rfl
      · exact .refl f
      · exact hrepeats.symm
    obtain ⟨d', hd', -, hkey, hseverity, -⟩ := exists_mem_sortAndDedup hd
    obtain ⟨e', he', -, hkey', hseverity', -⟩ := exists_mem_sortAndDedup he
    -- no two in the report repeat each other, so one and the same reads like both
    obtain rfl := eq_of_pairwise_not (fun _ _ => Repeats.symm) h.once hd' he'
      ((hall hd').trans (hall he').symm)
    exact ⟨hkey.symm.trans hkey', hseverity.symm.trans hseverity'⟩

/-- In normal files repetitions are left out and nothing else exactly if the keys tell what is
repeated. -/
theorem merges_iff_of_isNormal (hnormal : ∀ d ∈ ds, d.location.file.IsNormal) :
    Merges ds (sortAndDedup ds) ↔ KeysTellRepeats ds := by
  refine ⟨fun h d hd e he => ⟨fun halike => ?_, Repeats.readsLike (hnormal d hd) (hnormal e he)⟩,
    KeysTellRepeats.merges⟩
  refine Repeats.of_readsLike (fun f hf => ?_) hd he halike
  obtain ⟨g, hg, hrepeats⟩ := h.kept f hf
  exact ⟨g, hg, hrepeats, hrepeats.readsLike (hnormal g (h.subperm.subset hg)) (hnormal f hf)⟩

/-- A report is some of the diagnostics, sorted, and a report of it is the same. What is left out of
it are the repetitions, whichever of the diagnostics there are, exactly if the keys tell what is
repeated; and so it is for the diagnostics as they are, if their files are normal. -/
theorem sortAndDedup_merges (ds : List Diagnostic) :
    ((sortAndDedup ds).Pairwise (fun d e => (compareFull d e).isLE = true) ∧
      (sortAndDedup ds).Subperm ds ∧ sortAndDedup (sortAndDedup ds) = sortAndDedup ds) ∧
    ((∀ es ⊆ ds, Merges es (sortAndDedup es)) ↔ KeysTellRepeats ds) ∧
    ((∀ d ∈ ds, d.location.file.IsNormal) →
      (Merges ds (sortAndDedup ds) ↔ KeysTellRepeats ds)) := by
  refine ⟨⟨pairwise_sortAndDedup ds, sortAndDedup_subperm ds, sortAndDedup_sortAndDedup ds⟩, ?_,
    merges_iff_of_isNormal⟩
  constructor
  · intro hmerges d hd e he
    exact readsLike_iff_of_merges (hmerges _ (by simp [hd, he]))
  · intro hkeys es hes
    exact KeysTellRepeats.merges fun d hd e he => hkeys d (hes hd) e (hes he)

/-- A warning in a source of a sketch. -/
def warningInA : Diagnostic := ⟨⟨⟨"/s/a.cpp"⟩, 2, 1⟩, .warning, "unused", []⟩

/-- An error in another source. -/
def errorInB : Diagnostic := ⟨⟨⟨"/s/b.cpp"⟩, 1, 1⟩, .error, "boom", []⟩

/-- The report of a warning, an error and the warning again is the error and the warning. -/
theorem merges_of_repeated_warning :
    Merges [warningInA, errorInB, warningInA] [errorInB, warningInA] := by
  have ha : FilePath.IsLegible ⟨"/s/a.cpp"⟩ :=
    ⟨⟨⟨true, ["s", "a.cpp"]⟩, by unfold NormalPath.IsPlain IsPlainName; decide, rfl⟩,
      by decide, by decide⟩
  have hb : FilePath.IsLegible ⟨"/s/b.cpp"⟩ :=
    ⟨⟨⟨true, ["s", "b.cpp"]⟩, by unfold NormalPath.IsPlain IsPlainName; decide, rfl⟩,
      by decide, by decide⟩
  have hmem {d : Diagnostic} (hd : d ∈ [warningInA, errorInB, warningInA]) :
      d = warningInA ∨ d = errorInB := by
    simp only [List.mem_cons, List.not_mem_nil, or_false] at hd
    rcases hd with rfl | rfl | rfl
    · exact .inl rfl
    · exact .inr rfl
    · exact .inl rfl
  have hkeys : KeysTellRepeats [warningInA, errorInB, warningInA] :=
    keysTellRepeats_of_isLegible fun d hd => by
      rcases hmem hd with rfl | rfl
      · exact ha
      · exact hb
  have hmerges := ((sortAndDedup_merges _).2.2 fun d hd => by
    rcases hmem hd with rfl | rfl
    · exact ha.normal
    · exact hb.normal).2 hkeys
  have hsorted : sortAndDedup [warningInA, errorInB, warningInA] =
      sortAndDedup [errorInB, warningInA, warningInA] :=
    sortAndDedup_eq_of_perm (.swap ..) fun d hd => by
      rcases hmem hd with rfl | rfl
      · exact ⟨rfl, ha.normal⟩
      · exact ⟨rfl, hb.normal⟩
  have hreport : sortAndDedup [errorInB, warningInA, warningInA] = [errorInB, warningInA] := by
    rw [sortAndDedup, sortBy, List.mergeSort_of_pairwise (by decide)]
    rfl
  rwa [hsorted, hreport] at hmerges

/-- An error in `/s/a` whose message begins with a number is not told apart from one in `/s/a:1`. -/
theorem not_merges_of_colon :
    ¬ Merges [⟨⟨⟨"/s/a"⟩, 1, 1⟩, .error, "1:x", []⟩, ⟨⟨⟨"/s/a:1"⟩, 1, 1⟩, .error, "x", []⟩]
      (sortAndDedup [⟨⟨⟨"/s/a"⟩, 1, 1⟩, .error, "1:x", []⟩,
        ⟨⟨⟨"/s/a:1"⟩, 1, 1⟩, .error, "x", []⟩]) := by
  intro h
  have hrepeats := (readsLike_iff_of_merges h).1 ⟨by decide, rfl⟩
  exact absurd hrepeats.message (by decide)

end Diagnostic
end SketchSense
