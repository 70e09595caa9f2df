import SketchSense.Proofs.Cache.Reading
import SketchSense.Proofs.Diagnostic.Merging
import SketchSense.Proofs.Model.Linking
import SketchSense.Proofs.Sketch.Placement
import SketchSense.Query.Occurrence

/-!
# The names of an entity

A unit that was read alone finds the entity of a name in every unit by its key, and an entity without
a key in its own unit only. Every place that is found leads back to the entity, as long as it is shown
in the file it was found in.

* `Location.sortUnique_eq_of_mem_iff`, that the list of some places depends on nothing else;
* `CachedUnit.IsNameOf`, the cursors with the entity of a cursor, with `mem_occurrences_iff`;
* `CachedUnit.ReadAlone.toEdited_cases`, what is found at a place that was found.
-/

namespace SketchSense

open Model

/-! ## Lists of places -/

namespace Location

variable {a b : Location} {ls ms : List Location}

theorem beq_iff :
    (a == b) = true ↔ (a.file == b.file) = true ∧ a.line = b.line ∧ a.column = b.column := by
  have hfields : (a == b) = (a.file == b.file && (a.line == b.line && a.column == b.column)) := rfl
  rw [hfields, Bool.and_eq_true, Bool.and_eq_true, Nat.beq_eq_true_eq, Nat.beq_eq_true_eq]

instance : ReflBEq Location where
  rfl := beq_iff.2 ⟨BEq.rfl, rfl, rfl⟩

theorem eq_of_beq (ha : a.file.IsNormal) (hb : b.file.IsNormal) (h : (a == b) = true) : a = b := by
  obtain ⟨hfile, hline, hcolumn⟩ := beq_iff.1 h
  have hfile := ha.eq_of_components_eq hb (FilePath.beq_iff.1 hfile)
  obtain ⟨file, line, column⟩ := a
  obtain ⟨file', line', column'⟩ := b
  simp only at hfile hline hcolumn
  rw [hfile, hline, hcolumn]

/-- Only which places there are counts for a list of places in normal files. -/
theorem sortUnique_eq_of_mem_iff (hnormal : ∀ l ∈ ls, l.file.IsNormal)
    (h : ∀ l, l ∈ ls ↔ l ∈ ms) : sortUnique ls = sortUnique ms :=
  dropRepeats_sortBy_eq (fun a ha b hb => eq_of_beq (hnormal a ha) (hnormal b hb))
    (fun a ha b hb => eq_of_compare (hnormal a ha) (hnormal b hb)) h

theorem mem_sortUnique (hnormal : ∀ l ∈ ls, l.file.IsNormal) : a ∈ sortUnique ls ↔ a ∈ ls := by
  have hsorted {l : Location} : l ∈ sortBy compare ls ↔ l ∈ ls := (sortBy_perm compare ls).mem_iff
  constructor
  · intro h
    exact hsorted.1 (mem_of_mem_dropRepeats h)
  · intro h
    refine mem_dropRepeats (fun a ha b hb => ?_) (hsorted.2 h)
    exact eq_of_beq (hnormal a (hsorted.1 ha)) (hnormal b (hsorted.1 hb))

/-- Places in order, without repeats, increase strictly. -/
theorem pairwise_sortUnique (hnormal : ∀ l ∈ ls, l.file.IsNormal) :
    (sortUnique ls).Pairwise fun a b => a.compare b = .lt := by
  have hsorted {l : Location} (hl : l ∈ sortBy compare ls) : l.file.IsNormal :=
    hnormal l ((sortBy_perm compare ls).mem_iff.1 hl)
  exact pairwise_dropRepeats (pairwise_sortBy compare ls)
    fun a ha b hb => eq_of_compare (hsorted ha) (hsorted hb)

/-- The list of some places is the one that increases strictly and has them. -/
theorem sortUnique_eq (hnormal : ∀ l ∈ ls, l.file.IsNormal)
    (hms : ms.Pairwise fun a b => a.compare b = .lt) (h : ∀ l, l ∈ ls ↔ l ∈ ms) :
    sortUnique ls = ms :=
  eq_of_pairwise_lt (pairwise_sortUnique hnormal) hms fun _ => (mem_sortUnique hnormal).trans (h _)

end Location

/-! ## Names -/

theorem CompilationUnit.exists_of_cursorAt {u : CompilationUnit} {l : Location} {c : Cursor}
    (h : u.cursorAt l = some c) : ∃ n ∈ u.nodes, n.cursor = c ∧ n.isNamedAt l = true := by
  obtain ⟨n, hn, rfl⟩ := Option.map_eq_some_iff.1 h
  have hat := List.find?_some hn
  exact ⟨n, List.mem_of_find?_eq_some hn, rfl, hat⟩

namespace CachedUnit

/-- The cursor is that of a node with a name. -/
def IsNamed (u : CachedUnit) (c : Cursor) : Prop :=
  ∃ n ∈ u.unit.nodes, n.cursor = c ∧ 0 < n.nameLength

/-- In `v` the cursor `d` has the entity that `c` has in `u`: one with the same key, or without a key
itself. -/
def IsNameOf (u : CachedUnit) (c : Cursor) (v : CachedUnit) (d : Cursor) : Prop :=
  if c.usr = "" then v = u ∧ d = c else d.usr = c.usr

/-- Where the name at a position starts, if that is shown. -/
def nameStart? (u : CachedUnit) (line column : Nat) : Option Location := do
  let l ← (u.map.toAnalyzed line column).toOption
  let c ← u.unit.cursorAt l
  u.map.toEdited c.location

variable {u u' v : CachedUnit} {c c' d : Cursor} {line column : Nat} {q : Location}

theorem nameStart?_eq {l : Location} (hl : u.map.toAnalyzed line column = .ok l)
    (hc : u.unit.cursorAt l = some c) : u.nameStart? line column = u.map.toEdited c.location := by
  unfold nameStart?
  rw [hl]
  show (u.unit.cursorAt l).bind _ = _
  rw [hc, Option.bind_some]

theorem IsNamed.mem_cursors (h : u.IsNamed c) : c ∈ u.unit.cursors := by
  obtain ⟨n, hn, rfl, -⟩ := h
  exact List.mem_map_of_mem hn

theorem isNamed_of_cursorAt {l : Location} (h : u.unit.cursorAt l = some c) : u.IsNamed c := by
  obtain ⟨n, hn, hc, hat⟩ := CompilationUnit.exists_of_cursorAt h
  obtain ⟨-, -, hle, hlt⟩ := isNamedAt_iff.1 hat
  exact ⟨n, hn, hc, by omega⟩

theorem isNameOf_self (u : CachedUnit) (c : Cursor) : u.IsNameOf c u c := by
  unfold IsNameOf
  split
  · exact ⟨rfl, rfl⟩
  · rfl

theorem IsNameOf.usr_eq (h : u.IsNameOf c v d) : d.usr = c.usr := by
  unfold IsNameOf at h
  split at h
  · rw [h.2]
  · exact h

/-- Without a key an entity has no name but the one. -/
theorem IsNameOf.eq_of_usr_eq_empty (h : u.IsNameOf c v d) (hempty : c.usr = "") :
    v = u ∧ d = c := by
  unfold IsNameOf at h
  rwa [if_pos hempty] at h

namespace ReadAlone

variable (hu : u.ReadAlone) (hv : v.ReadAlone)

include hu

/-- The texts of a unit have different paths. -/
theorem eq_of_path_beq : ∀ a ∈ u.unsaved, ∀ b ∈ u.unsaved, (a.path == b.path) = true → a = b := by
  obtain ⟨s, hs, -, hunsaved⟩ := hu.sources
  rw [hunsaved]
  exact fun a ha b hb hpath => hs.eq_of_path_beq ha hb hpath

/-- A name is in one of the texts. -/
theorem exists_text (hd : u.IsNamed d) : ∃ t ∈ u.unsaved, d.location.file = t.path := by
  obtain ⟨n, hn, rfl, hlength⟩ := hd
  obtain ⟨files, hfiles, hunit⟩ := buildUnit_eq_ok.1 hu.built
  rw [hunit] at hn
  obtain ⟨d, hd, rfl⟩ := List.mem_map.1 hn
  obtain ⟨t, ht, lx, -, hname⟩ := exists_nameIn hfiles hd (Nat.ne_of_gt hlength)
  exact ⟨t, mem_mainLast.1 ht, hname.file_eq⟩

/-- Where a name stands there is a name of the same entity at the same place. -/
theorem exists_cursorAt (hd : u.IsNamed d) :
    ∃ c, u.unit.cursorAt d.location = some c ∧ c.usr = d.usr ∧ c.location = d.location := by
  obtain ⟨n, hn, rfl, hlength⟩ := hd
  have hat : n.isNamedAt n.cursor.location = true :=
    isNamedAt_iff.2 ⟨BEq.rfl, rfl, Nat.le_refl _, by omega⟩
  have hsome : (u.unit.nodes.find? fun m => m.isNamedAt n.cursor.location).isSome := by
    rw [List.find?_isSome]
    exact ⟨n, hn, hat⟩
  obtain ⟨m, hm⟩ := Option.isSome_iff_exists.1 hsome
  have hmat := List.find?_some hm
  obtain ⟨hlocation, husr⟩ := eq_of_isNamedAt hu.built hu.eq_of_path_beq
    (List.mem_of_find?_eq_some hm) hn hmat hat
  refine ⟨m.cursor, ?_, husr, hlocation⟩
  unfold CompilationUnit.cursorAt
  rw [hm]
  rfl

/-! ## What is looked for -/

theorem entityOf_eq (hc : c ∈ u.unit.cursors) : u.entityOf c = u.unit.primary c := by
  obtain ⟨es, hes⟩ := exists_linkedUnit hu.built
  exact hes.canonical_referenced hc

/-- What is looked for is the first declaration with the key of the name at the position, if there is a
name. -/
theorem target?_eq_ok {target : Option OccurrenceTarget} :
    u.target? line column = .ok target ↔ ∃ l, u.map.toAnalyzed line column = .ok l ∧
      target = (u.unit.cursorAt l).map fun c => ⟨u.unit.primary c, u.key⟩ := by
  obtain ⟨es, hes⟩ := exists_linkedUnit hu.built
  unfold target?
  cases hl : u.map.toAnalyzed line column with
  | error f =>
    constructor
    · intro h
      cases h
    · rintro ⟨_, h, -⟩
      cases h
  | ok l =>
    have htarget : ((u.unit.cursorAt l).map fun c => (⟨u.unit.canonical
        (((u.unit.definition c).or (u.unit.referenced c)).getD c), u.key⟩ : OccurrenceTarget)) =
        (u.unit.cursorAt l).map fun c => ⟨u.unit.primary c, u.key⟩ := by
      refine Option.map_congr fun c hc => ?_
      rw [hes.canonical_target (isNamed_of_cursorAt hc).mem_cursors]
    simp only [bind, Except.bind, pure, Except.pure, htarget, Except.ok.injEq, exists_eq_left']
    exact eq_comm

theorem target?_eq_some {t : OccurrenceTarget} :
    u.target? line column = .ok (some t) ↔ ∃ l c, u.map.toAnalyzed line column = .ok l ∧
      u.unit.cursorAt l = some c ∧ t = ⟨u.unit.primary c, u.key⟩ := by
  rw [hu.target?_eq_ok]
  refine exists_congr fun l => ?_
  rw [exists_and_left, eq_comm (a := some t), Option.map_eq_some_iff]
  simp only [eq_comm]

/-! ## What is found -/

include hv

/-- A cursor belongs to an entity by its key, and without a key in its own unit only. -/
theorem isOccurrence_iff (hc : c ∈ u.unit.cursors) (hd : d ∈ v.unit.cursors)
    (hsame : v.key = u.key → v = u) :
    v.isOccurrence ⟨u.unit.primary c, u.key⟩ d = true ↔ u.IsNameOf c v d := by
  have hbyNode : (v.key == u.key && decide ((v.unit.primary d).id = (u.unit.primary c).id)) = true →
      v = u ∧ v.unit.primary d = u.unit.primary c := by
    intro h
    obtain ⟨hkey, hid⟩ := Bool.and_eq_true_iff.1 h
    obtain rfl := hsame (hv.normal.eq_of_components_eq hu.normal (FilePath.beq_iff.1 hkey))
    obtain ⟨es, hes⟩ := exists_linkedUnit hu.built
    exact ⟨rfl, hes.eq_of_id_eq (v.unit.primary_mem hd) (v.unit.primary_mem hc)
      (of_decide_eq_true hid)⟩
  unfold isOccurrence IsNameOf
  dsimp only
  rw [hv.entityOf_eq hd, CompilationUnit.usr_primary, CompilationUnit.usr_primary,
    Bool.or_eq_true]
  split
  · next hempty =>
    rw [u.unit.primary_of_usr_eq_empty hempty] at hbyNode ⊢
    constructor
    · rintro (h | h)
      · simp [hempty] at h
      · obtain ⟨rfl, hprimary⟩ := hbyNode h
        have husr : d.usr = "" := by
          rw [← v.unit.usr_primary d, hprimary, hempty]
        exact ⟨rfl, by rwa [v.unit.primary_of_usr_eq_empty husr] at hprimary⟩
    · rintro ⟨rfl, rfl⟩
      rw [v.unit.primary_of_usr_eq_empty hempty]
      exact .inr (by simp)
  · next hkey =>
    constructor
    · rintro (h | h)
      · exact of_decide_eq_true (Bool.and_eq_true_iff.1 h).2
      · obtain ⟨rfl, hprimary⟩ := hbyNode h
        rw [← v.unit.usr_primary d, hprimary, CompilationUnit.usr_primary]
    · intro h
      exact .inl (by simp [hkey, h])

/-- The places where a unit uses an entity are those of its names. -/
theorem mem_occurrences_iff (hc : c ∈ u.unit.cursors) (hsame : v.key = u.key → v = u)
    {within : Option FilePath} :
    q ∈ v.occurrences ⟨u.unit.primary c, u.key⟩ within ↔
      ∃ d ∈ v.unit.cursors, u.IsNameOf c v d ∧ d.location.isUnknown = false ∧
        v.map.toEdited d.location = some q ∧ within.all (q.file.isInside ·) = true := by
  unfold occurrences
  rw [List.mem_filterMap]
  constructor
  · rintro ⟨⟨d, parent⟩, hd, h⟩
    have hd := v.unit.mem_cursors_of_mem_preorder hd
    dsimp only at hd h
    split at h
    · next hoccurs =>
      obtain ⟨hq, hinside⟩ := Option.filter_eq_some_iff.1 h
      exact ⟨d, hd, (hu.isOccurrence_iff hv hc hd hsame).1 hoccurs.1,
        Bool.eq_false_iff.2 hoccurs.2, hq, hinside⟩
    · cases h
  · rintro ⟨d, hd, hname, hknown, hq, hinside⟩
    obtain ⟨es, hes⟩ := exists_linkedUnit hv.built
    obtain ⟨parent, hvisited⟩ := hes.mem_preorder hd
    refine ⟨(d, parent), hvisited, ?_⟩
    dsimp only
    rw [if_pos ⟨(hu.isOccurrence_iff hv hc hd hsame).2 hname, by simp [hknown]⟩]
    exact Option.filter_eq_some_iff.2 ⟨hq, hinside⟩

omit hu

/-- A name of a named entity is named. -/
theorem isNamed_of_isNameOf (hc : u.IsNamed c) (hd : d ∈ v.unit.cursors)
    (h : u.IsNameOf c v d) : v.IsNamed d := by
  by_cases hkey : c.usr = ""
  · obtain ⟨rfl, rfl⟩ := h.eq_of_usr_eq_empty hkey
    exact hc
  · obtain ⟨es, hes⟩ := exists_linkedUnit hv.built
    obtain ⟨n, hn, rfl⟩ := List.mem_map.1 hd
    exact ⟨n, hn, rfl, hes.nameLength_pos hn (by rw [h.usr_eq]; exact hkey)⟩

omit hv

/-- Names with one key, or without a key at one place of one unit, are found at the same places. -/
theorem mem_occurrences_congr (hu : u.ReadAlone) (hu' : u'.ReadAlone) (hv : v.ReadAlone)
    (hc : c ∈ u.unit.cursors) (hc' : c' ∈ u'.unit.cursors) (hsame : v.key = u.key → v = u)
    (hsame' : v.key = u'.key → v = u') (husr : c'.usr = c.usr)
    (hlone : c.usr = "" → u' = u ∧ c'.location = c.location) {within : Option FilePath} :
    q ∈ v.occurrences ⟨u'.unit.primary c', u'.key⟩ within ↔
      q ∈ v.occurrences ⟨u.unit.primary c, u.key⟩ within := by
  rw [hu.mem_occurrences_iff hv hc hsame, hu'.mem_occurrences_iff hv hc' hsame']
  unfold IsNameOf
  rw [husr]
  by_cases hempty : c.usr = ""
  · obtain ⟨rfl, hlocation⟩ := hlone hempty
    simp only [if_pos hempty]
    constructor
    · rintro ⟨_, -, ⟨rfl, rfl⟩, hrest⟩
      rw [hlocation] at hrest
      exact ⟨c, hc, ⟨rfl, rfl⟩, hrest⟩
    · rintro ⟨_, -, ⟨rfl, rfl⟩, hrest⟩
      rw [← hlocation] at hrest
      exact ⟨c', hc', ⟨rfl, rfl⟩, hrest⟩
  · simp only [if_neg hempty]

/-! ## The way back -/

include hu

/-- A name that is shown is in the analysed text of the file. -/
theorem file_of_toEdited (hd : u.IsNamed d) (hq : u.map.toEdited d.location = some q) :
    d.location.file = u.key.analyzedName := by
  obtain ⟨t, ht, hfile⟩ := hu.exists_text hd
  obtain ⟨s, hs, hmap, hunsaved⟩ := hu.sources
  rw [hmap] at hq
  rw [hunsaved] at ht
  rw [(hs.toEdited_cases ht hfile hq).1, hs.analyzed_eq.2]

theorem isNormal_of_toEdited (hd : u.IsNamed d) (hq : u.map.toEdited d.location = some q) :
    q.file.IsNormal := by
  obtain ⟨t, ht, hfile⟩ := hu.exists_text hd
  obtain ⟨s, hs, hmap, hunsaved⟩ := hu.sources
  rw [hmap] at hq
  rw [hunsaved] at ht
  exact hs.isNormal_of_toEdited hu.normal ht hfile hq

/-- A name is shown in the file it is in, and there its entity is found again, at the same place. Only
in a file whose name is kept for sketches it is shown in the sketch of that name. -/
theorem toEdited_cases (hd : u.IsNamed d) (hq : u.map.toEdited d.location = some q) :
    q.file = u.key ∧ (q.line + 1 < wordLimit →
        ∃ l c, u.map.toAnalyzed q.line q.column = .ok l ∧ u.unit.cursorAt l = some c ∧
          c.usr = d.usr ∧ c.location = d.location) ∨
      u.key.isAnalyzedEntry = true ∧ q.file = u.key.editedName := by
  obtain ⟨t, ht, hfile⟩ := hu.exists_text hd
  obtain ⟨s, hs, hmap, hunsaved⟩ := hu.sources
  rw [hmap] at hq
  rw [hunsaved] at ht
  obtain ⟨hanalyzed, ⟨hkey, hline, hcolumn⟩ | ⟨hentry, -, hkey⟩⟩ := hs.toEdited_cases ht hfile hq
  · refine .inl ⟨hkey, fun hfits => ?_⟩
    obtain ⟨c, hc, husr, hlocation⟩ := hu.exists_cursorAt hd
    have hshift := hs.lineShift_le
    have hback : u.map.toAnalyzed q.line q.column = .ok d.location := by
      refine toAnalyzed_eq.2 ⟨by rw [hmap]; omega, ?_⟩
      rw [hmap, ← hanalyzed, ← hline, hcolumn]
    exact ⟨d.location, c, hback, hc, husr, hlocation⟩
  · exact .inr ⟨hentry, hkey⟩

end ReadAlone

end CachedUnit

end SketchSense
