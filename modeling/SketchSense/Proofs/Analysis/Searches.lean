import SketchSense.Proofs.Analysis.Held
import SketchSense.Proofs.Query.Occurrence

/-!
# Searches for occurrences

A question for the occurrences of a name searches some files one after the other. It leaves them all
held, and what it finds are the occurrences in the units that are held then. Where they are held
already the question is answered from what is kept.

* `EditPosition.searched` and `OpenFiles`, the files in which occurrences are looked for;
* `AnalysisCore.FindsIn`, an occurrence in the unit that is held for a file;
* `CoreM.of_occurrences`, what is found and what is held then, and `CoreM.exists_occurrences`, that it
  is found wherever the same is held.
-/

namespace SketchSense

open Model

variable {root : FilePath}

/-! ## What is searched -/

/-- The sources and headers of a project besides the file of a position. -/
def EditPosition.others (root : FilePath) (p : EditPosition) (files : List FileBuffer) :
    List FileBuffer :=
  files.filter fun f => f.kind ≠ .other && !(f.path.normalize root == p.file.path.normalize root)

/-- The files in which occurrences are looked for, that of the position first. -/
def EditPosition.searched (root : FilePath) (p : EditPosition) (files : List FileBuffer) :
    OccurrenceScope → List FileBuffer
  | .currentFile => [p.file]
  | .project => p.file :: p.others root files

/-- The directory in which occurrences count. -/
def OccurrenceScope.within (root : FilePath) : OccurrenceScope → Option FilePath
  | .currentFile => none
  | .project => some root

/-- Paths of different files. -/
def FileBuffer.Apart (root : FilePath) (f g : FileBuffer) : Prop :=
  (f.path.normalize root == g.path.normalize root) = false

theorem FileBuffer.Apart.symm {f g : FileBuffer} (h : f.Apart root g) : g.Apart root f := by
  unfold Apart at h ⊢
  rw [BEq.comm, h]

/-- The open files of a sketch: sources and headers inside it, each once, and `file` is one of them. -/
structure OpenFiles (root : FilePath) (file : FileBuffer) (files : List FileBuffer) : Prop where
  kinds : ∀ f ∈ files, f.kind ≠ .other
  inside : ∀ f ∈ files, (f.path.normalize root).isInside root = true
  apart : files.Pairwise (FileBuffer.Apart root)
  active : ∃ f ∈ files, file.Respells root f

theorem FileBuffer.Respells.symm {f g : FileBuffer} (h : f.Respells root g) : g.Respells root f :=
  ⟨h.key.symm, h.code.symm⟩

theorem FileBuffer.Respells.trans {f g h : FileBuffer} (hfg : f.Respells root g)
    (hgh : g.Respells root h) : f.Respells root h :=
  ⟨hgh.key.trans hfg.key, hgh.code.trans hfg.code⟩

variable {p : EditPosition} {files : List FileBuffer} {scope : OccurrenceScope} {f g : FileBuffer}

namespace OpenFiles

/-- No two open files have one path. -/
theorem eq_of_key (h : OpenFiles root p.file files) (hf : f ∈ files) (hg : g ∈ files)
    (hkey : f.path.normalize root = g.path.normalize root) : f = g := by
  have hsymm : Std.Symm (FileBuffer.Apart root) := ⟨fun _ _ => FileBuffer.Apart.symm⟩
  by_contra hne
  have hapart := h.apart.forall hf hg hne
  unfold FileBuffer.Apart at hapart
  rw [hkey, BEq.rfl] at hapart
  cases hapart

/-- Of every open file the text is searched. -/
theorem exists_searched (h : OpenFiles root p.file files) (hf : f ∈ files) :
    ∃ g ∈ p.searched root files .project, f.Respells root g := by
  obtain ⟨active, hactive, hspelled⟩ := h.active
  cases hkey : f.path.normalize root == p.file.path.normalize root with
  | true =>
    have hsame := (FilePath.normalize_eq_of_beq hkey).trans hspelled.key.symm
    obtain rfl := h.eq_of_key hf hactive hsame
    exact ⟨p.file, List.mem_cons_self, hspelled.symm⟩
  | false =>
    refine ⟨f, List.mem_cons_of_mem _ (List.mem_filter.2 ⟨hf, ?_⟩), .refl root f⟩
    simp [h.kinds f hf, hkey]

/-- Only texts of open files are searched. -/
theorem exists_of_mem_searched (h : OpenFiles root p.file files)
    (hg : g ∈ p.searched root files .project) : ∃ f ∈ files, g.Respells root f := by
  rcases List.mem_cons.1 hg with rfl | hg
  · exact h.active
  · exact ⟨g, (List.mem_filter.1 hg).1, .refl root g⟩

end OpenFiles

/-- The files that are searched have different paths. -/
theorem pairwise_searched (h : scope = .project → files.Pairwise (FileBuffer.Apart root)) :
    (p.searched root files scope).Pairwise (FileBuffer.Apart root) := by
  cases scope with
  | currentFile => exact List.pairwise_singleton _ _
  | project =>
    refine List.pairwise_cons.2 ⟨fun f hf => ?_, (h rfl).sublist List.filter_sublist⟩
    have hkey := (Bool.and_eq_true_iff.1 (List.mem_filter.1 hf).2).2
    unfold FileBuffer.Apart
    rw [BEq.comm]
    simpa using hkey

/-- From every file that is searched the same texts are searched. -/
theorem exists_searched_again (h : scope = .project → OpenFiles root p.file files)
    (hf : f ∈ p.searched root files scope) {q : EditPosition} (hq : f.Respells root q.file) :
    (scope = .project → OpenFiles root q.file files) ∧
      (∀ a ∈ p.searched root files scope, ∃ b ∈ q.searched root files scope, a.Respells root b) ∧
      ∀ b ∈ q.searched root files scope, ∃ a ∈ p.searched root files scope, b.Respells root a := by
  cases scope with
  | currentFile =>
    obtain rfl := List.mem_singleton.1 hf
    refine ⟨fun hscope => (by cases hscope), fun a ha => ?_, fun b hb => ?_⟩
    · rw [List.mem_singleton.1 ha]
      exact ⟨q.file, List.mem_singleton_self _, hq⟩
    · rw [List.mem_singleton.1 hb]
      exact ⟨p.file, List.mem_singleton_self _, hq.symm⟩
  | project =>
    have hp := h rfl
    have hopen : OpenFiles root q.file files := by
      obtain ⟨a, ha, hfa⟩ := hp.exists_of_mem_searched hf
      exact ⟨hp.kinds, hp.inside, hp.apart, a, ha, hq.symm.trans hfa⟩
    refine ⟨fun _ => hopen, fun a ha => ?_, fun b hb => ?_⟩
    · obtain ⟨g, hg, hag⟩ := hp.exists_of_mem_searched ha
      obtain ⟨b, hb, hgb⟩ := hopen.exists_searched hg
      exact ⟨b, hb, hag.trans hgb⟩
    · obtain ⟨g, hg, hbg⟩ := hopen.exists_of_mem_searched hb
      obtain ⟨a, ha, hga⟩ := hp.exists_searched hg
      exact ⟨a, ha, hbg.trans hga⟩

/-! ## What is found -/

namespace AnalysisCore

/-- An occurrence of an entity in the unit that is held for a file. -/
def FindsIn (root : FilePath) (c : AnalysisCore ModelState) (t : OccurrenceTarget)
    (within : Option FilePath) (f : FileBuffer) (q : Location) : Prop :=
  ∃ w, c.Holds root f w ∧ q ∈ w.occurrences t within

variable {c c' : AnalysisCore ModelState} {t : OccurrenceTarget} {within : Option FilePath}
  {q : Location} {u : CachedUnit}

theorem Holds.findsIn_iff (h : c.Holds root f u) :
    c.FindsIn root t within f q ↔ q ∈ u.occurrences t within := by
  constructor
  · rintro ⟨w, hw, hq⟩
    rwa [h.eq_of_key hw rfl] at hq
  · intro hq
    exact ⟨u, h, hq⟩

theorem FindsIn.respells (h : c.FindsIn root t within f q) (hfg : f.Respells root g) :
    c.FindsIn root t within g q := by
  obtain ⟨w, hw, hq⟩ := h
  exact ⟨w, hw.respells hfg, hq⟩

end AnalysisCore

namespace CoreM

open AnalysisCore

variable {c c' : AnalysisCore ModelState} {s s' : ModelState} {t : OccurrenceTarget}
  {within : FilePath} {fs : List FileBuffer} {ls L : List Location}

/-- Files that were searched one after the other are all held, and what is held for them is what
was searched. Any other file that was held still is. -/
theorem of_occurrencesAmong (hapart : fs.Pairwise (FileBuffer.Apart root)) (hc : c.Reads root)
    (hs : s.Unfailing) (h : YieldsWith (occurrencesAmong t within fs) c s ls c' s') :
    c'.Reads root ∧
      (∀ g u, (∀ f ∈ fs, g.Apart root f) → c.Holds root g u → c'.Holds root g u) ∧
      (∀ f ∈ fs, ∃ w, c'.Holds root f w) ∧
      ∀ q, q ∈ ls ↔ ∃ f ∈ fs, c'.FindsIn root t (some within) f q := by
  induction fs generalizing c s ls with
  | nil =>
    obtain ⟨rfl, rfl, rfl⟩ := yieldsWith_pure.1 h
    exact ⟨hc, fun _ _ _ hg => hg, by simp, by simp⟩
  | cons f fs ih =>
    obtain ⟨hfirst, hapart⟩ := List.pairwise_cons.1 hapart
    unfold occurrencesAmong at h
    obtain ⟨a, c₁, s₁, hunit, hrest⟩ := yieldsWith_bind.1 h
    obtain ⟨found, c₂, s₂, hfound, hend⟩ := yieldsWith_bind.1 hrest
    obtain ⟨rfl, rfl, rfl⟩ := yieldsWith_pure.1 hend
    obtain ⟨hc₁, hs₁, ⟨u, rfl, hu⟩, hsame⟩ := exists_holds_of_unit? hc hs hunit
    obtain ⟨hc', hstill, hheld, hfinds⟩ := ih hapart hc₁ hs₁ hfound
    -- the files behind this one leave its unit as it is
    have hu' : c'.Holds root f u := hstill f u hfirst hu
    refine ⟨hc', fun g w hg hw => ?_, ?_, fun q => ?_⟩
    · rw [List.forall_mem_cons] at hg
      exact hstill g w hg.2 (hw.of_get?_eq (hsame _ hg.1.symm))
    · rw [List.forall_mem_cons]
      exact ⟨⟨u, hu'⟩, hheld⟩
    · rw [List.exists_mem_cons_iff, List.mem_append, hu'.findsIn_iff, hfinds]

/-- Files that are held are searched where they are. -/
theorem exists_occurrencesAmong (t : OccurrenceTarget) (within : FilePath) (hc : c.Reads root)
    (hheld : ∀ f ∈ fs, ∃ w, c.Holds root f w) (s : ModelState) :
    ∃ ls c', YieldsWith (occurrencesAmong t within fs) c s ls c' s ∧ c.KeepsSame c' ∧
      ∀ q, q ∈ ls ↔ ∃ f ∈ fs, c.FindsIn root t (some within) f q := by
  induction fs generalizing c with
  | nil => exact ⟨[], c, yieldsWith_pure.2 ⟨rfl, rfl, rfl⟩, .refl c, by simp⟩
  | cons f fs ih =>
    rw [List.forall_mem_cons] at hheld
    obtain ⟨⟨u, hu⟩, hheld⟩ := hheld
    obtain ⟨c₁, hunit, hsame₁⟩ := yieldsWith_unit?_of_holds hc hu s
    obtain ⟨ls, c', hfound, hsame, hfinds⟩ := ih (hsame₁.reads hc) fun g hg => by
      obtain ⟨w, hw⟩ := hheld g hg
      exact ⟨w, hsame₁.holds_iff.2 hw⟩
    refine ⟨u.occurrences t (some within) ++ ls, c', ?_, hsame₁.trans hsame, fun q => ?_⟩
    · unfold occurrencesAmong
      exact yieldsWith_bind.2 ⟨_, _, _, hunit, yieldsWith_bind.2 ⟨_, _, _, hfound,
        yieldsWith_pure.2 ⟨rfl, rfl, rfl⟩⟩⟩
    · unfold FindsIn at hfinds ⊢
      simp only [hsame₁.holds_iff] at hfinds
      rw [List.exists_mem_cons_iff, List.mem_append, hfinds]
      exact or_congr_left (Holds.findsIn_iff hu).symm

/-- What becomes of a question once the entity is known. -/
theorem yieldsWith_occurrences_iff {c₁ : AnalysisCore ModelState} {s₁ : ModelState} {u : CachedUnit}
    (hunit : YieldsWith (unit? p.file) c s (some u) c₁ s₁)
    (ht : u.target? p.line p.column = .ok (some t)) (hroot : c₁.builder.root = root) :
    YieldsWith (occurrences p scope files true) c s L c' s' ↔ match scope with
      | .currentFile => L = Location.sortUnique (u.occurrences t none) ∧ c' = c₁ ∧ s' = s₁
      | .project => ∃ ls, YieldsWith (occurrencesAmong t root (p.others root files)) c₁ s₁ ls c' s' ∧
          L = Location.sortUnique (u.occurrences t (some root) ++ ls) := by
  have htarget : YieldsWith (orFault (u.target? p.line p.column)) c₁ s₁ (some t) c₁ s₁ :=
    yieldsWith_liftM.2 ⟨yields_mk.2 ⟨ht, rfl⟩, rfl⟩
  have hget : YieldsWith (get : CoreM ModelState _) c₁ s₁ c₁ c₁ s₁ :=
    yieldsWith_get.2 ⟨rfl, rfl, rfl⟩
  unfold occurrences
  rw [yieldsWith_bind_of_yields hunit, yieldsWith_bind_of_yields htarget]
  cases scope with
  | currentFile => exact yieldsWith_pure
  | project =>
    have hkey : YieldsWith (keyOf p.file.path) c₁ s₁ (p.file.path.normalize root) c₁ s₁ := by
      unfold keyOf
      rw [yieldsWith_bind_of_yields hget, yieldsWith_pure, ← hroot]
      exact ⟨rfl, rfl, rfl⟩
    have hothers : YieldsWith (otherFiles (p.file.path.normalize root) files) c₁ s₁
        (p.others root files) c₁ s₁ := by
      unfold otherFiles
      rw [yieldsWith_bind_of_yields hget, yieldsWith_pure, ← hroot]
      exact ⟨rfl, rfl, rfl⟩
    have hroot' : c₁.root = root := hroot
    dsimp only
    rw [yieldsWith_bind_of_yields hget, if_pos rfl, yieldsWith_bind_of_yields hkey,
      yieldsWith_bind_of_yields hothers, yieldsWith_bind, hroot']
    constructor
    · rintro ⟨ls, c₂, s₂, hfound, hend⟩
      obtain ⟨rfl, rfl, rfl⟩ := yieldsWith_pure.1 hend
      exact ⟨ls, hfound, rfl⟩
    · rintro ⟨ls, hfound, rfl⟩
      exact ⟨ls, c', s', hfound, yieldsWith_pure.2 ⟨rfl, rfl, rfl⟩⟩

/-- What a question finds in a project, in the order of the files. -/
def projectPlaces (p : EditPosition) (files : List FileBuffer) : CoreM ModelState (List Location) := do
  let some u ← unit? p.file | return []
  let some t ← orFault (u.target? p.line p.column) | return []
  let root := (← get).root
  let others ← otherFiles (← keyOf p.file.path) files
  return u.occurrences t (some root) ++ (← occurrencesAmong t root others)

theorem yieldsWith_occurrences_of_projectPlaces
    (h : YieldsWith (projectPlaces p files) c s ls c' s') :
    YieldsWith (occurrences p .project files true) c s (Location.sortUnique ls) c' s' := by
  have hempty : Location.sortUnique [] = [] := by simp [Location.sortUnique, sortBy, dropRepeats]
  unfold projectPlaces at h
  unfold occurrences
  obtain ⟨a, c₁, s₁, hunit, h⟩ := yieldsWith_bind.1 h
  rw [yieldsWith_bind_of_yields hunit]
  cases a with
  | none =>
    obtain ⟨rfl, rfl, rfl⟩ := yieldsWith_pure.1 h
    exact yieldsWith_pure.2 ⟨hempty, rfl, rfl⟩
  | some u =>
    obtain ⟨t, c₂, s₂, htarget, h⟩ := yieldsWith_bind.1 h
    dsimp only
    rw [yieldsWith_bind_of_yields htarget]
    cases t with
    | none =>
      obtain ⟨rfl, rfl, rfl⟩ := yieldsWith_pure.1 h
      exact yieldsWith_pure.2 ⟨hempty, rfl, rfl⟩
    | some t =>
      obtain ⟨c₃, c₄, s₄, hget, h⟩ := yieldsWith_bind.1 h
      obtain ⟨key, c₅, s₅, hkey, h⟩ := yieldsWith_bind.1 h
      obtain ⟨others, c₆, s₆, hothers, h⟩ := yieldsWith_bind.1 h
      obtain ⟨found, c₇, s₇, hfound, h⟩ := yieldsWith_bind.1 h
      obtain ⟨rfl, rfl, rfl⟩ := yieldsWith_pure.1 h
      dsimp only
      rw [yieldsWith_bind_of_yields hget, if_pos rfl, yieldsWith_bind_of_yields hkey,
        yieldsWith_bind_of_yields hothers, yieldsWith_bind_of_yields hfound]
      exact yieldsWith_pure.2 ⟨rfl, rfl, rfl⟩

/-- A question starts with the unit of its file, and without a name at the position it ends there. -/
theorem exists_target?_of_occurrences (hc : c.Reads root) (hs : s.Unfailing)
    (h : YieldsWith (occurrences p scope files true) c s L c' s') :
    ∃ u c₁ s₁ t, YieldsWith (unit? p.file) c s (some u) c₁ s₁ ∧
      u.target? p.line p.column = .ok t ∧ (t = none → L = [] ∧ c' = c₁ ∧ s' = s₁) := by
  unfold occurrences at h
  obtain ⟨a, c₁, s₁, hunit, hrest⟩ := yieldsWith_bind.1 h
  obtain ⟨-, -, ⟨u, rfl, -⟩, -⟩ := exists_holds_of_unit? hc hs hunit
  obtain ⟨t, c₂, s₂, hfault, hend⟩ := yieldsWith_bind.1 hrest
  obtain ⟨htarget, rfl⟩ := yieldsWith_liftM.1 hfault
  obtain ⟨ht, rfl⟩ := yields_mk.1 htarget
  refine ⟨u, _, _, t, hunit, ht, ?_⟩
  rintro rfl
  exact yieldsWith_pure.1 hend

/-- Without a name at the position nothing is found, whatever files there are. -/
theorem yieldsWith_occurrences_of_no_name {c₁ : AnalysisCore ModelState} {s₁ : ModelState}
    {u : CachedUnit} (hunit : YieldsWith (unit? p.file) c s (some u) c₁ s₁)
    (ht : u.target? p.line p.column = .ok none) (scope : OccurrenceScope) (files : List FileBuffer)
    (live : Bool) : YieldsWith (occurrences p scope files live) c s [] c₁ s₁ := by
  have htarget : YieldsWith (orFault (u.target? p.line p.column)) c₁ s₁ none c₁ s₁ :=
    yieldsWith_liftM.2 ⟨yields_mk.2 ⟨ht, rfl⟩, rfl⟩
  unfold occurrences
  rw [yieldsWith_bind_of_yields hunit, yieldsWith_bind_of_yields htarget]
  exact yieldsWith_pure.2 ⟨rfl, rfl, rfl⟩

/-- What is known of a question about a name: the files are held in which it has searched, and it has
found what there is in them. -/
theorem of_occurrences {c₁ : AnalysisCore ModelState} {s₁ : ModelState} {u : CachedUnit}
    (hapart : (p.searched root files scope).Pairwise (FileBuffer.Apart root)) (hc : c.Reads root)
    (hs : s.Unfailing) (hunit : YieldsWith (unit? p.file) c s (some u) c₁ s₁)
    (ht : u.target? p.line p.column = .ok (some t))
    (h : YieldsWith (occurrences p scope files true) c s L c' s') :
    c'.Reads root ∧ c'.Holds root p.file u ∧
      (∀ f ∈ p.searched root files scope, ∃ w, c'.Holds root f w) ∧
      ∃ ls, L = Location.sortUnique ls ∧ ∀ q, q ∈ ls ↔ ∃ f ∈ p.searched root files scope,
        c'.FindsIn root t (scope.within root) f q := by
  obtain ⟨hc₁, hs₁, hu⟩ := holds_of_unit? hc hs hunit
  have hends := (yieldsWith_occurrences_iff hunit ht hc₁.rooted).1 h
  cases scope with
  | currentFile =>
    obtain ⟨rfl, rfl, rfl⟩ := hends
    refine ⟨hc₁, hu, fun f hf => ?_, _, rfl, fun q => ?_⟩
    · rw [List.mem_singleton.1 hf]
      exact ⟨u, hu⟩
    · rw [← hu.findsIn_iff]
      simp [EditPosition.searched, OccurrenceScope.within]
  | project =>
    obtain ⟨found, hfound, rfl⟩ := hends
    obtain ⟨hfirst, hapart⟩ := List.pairwise_cons.1 hapart
    obtain ⟨hc', hstill, hheld, hfinds⟩ := of_occurrencesAmong hapart hc₁ hs₁ hfound
    have hu' := hstill p.file u hfirst hu
    refine ⟨hc', hu', List.forall_mem_cons.2 ⟨⟨u, hu'⟩, hheld⟩, _, rfl, fun q => ?_⟩
    unfold EditPosition.searched
    rw [List.exists_mem_cons_iff, List.mem_append, hfinds]
    exact or_congr_left hu'.findsIn_iff.symm

/-- Where all files are held that are searched, what there is in them is found. -/
theorem exists_occurrences (hc : c.Reads root)
    (hheld : ∀ f ∈ p.searched root files scope, ∃ w, c.Holds root f w) {u : CachedUnit}
    (hu : c.Holds root p.file u) (ht : u.target? p.line p.column = .ok (some t)) (s : ModelState) :
    ∃ ls c', YieldsWith (occurrences p scope files true) c s (Location.sortUnique ls) c' s ∧
      ∀ q, q ∈ ls ↔ ∃ f ∈ p.searched root files scope,
        c.FindsIn root t (scope.within root) f q := by
  obtain ⟨c₁, hunit, hsame⟩ := yieldsWith_unit?_of_holds hc hu s
  have hc₁ := hsame.reads hc
  cases scope with
  | currentFile =>
    refine ⟨u.occurrences t none, c₁, ?_, fun q => ?_⟩
    · exact (yieldsWith_occurrences_iff hunit ht hc₁.rooted).2 ⟨rfl, rfl, rfl⟩
    · rw [← hu.findsIn_iff]
      simp [EditPosition.searched, OccurrenceScope.within]
  | project =>
    obtain ⟨-, hothers⟩ := List.forall_mem_cons.1 hheld
    obtain ⟨found, c', hfound, -, hfinds⟩ := exists_occurrencesAmong t root hc₁ (fun f hf => by
      obtain ⟨w, hw⟩ := hothers f hf
      exact ⟨w, hsame.holds_iff.2 hw⟩) s
    refine ⟨u.occurrences t (some root) ++ found, c', ?_, fun q => ?_⟩
    · exact (yieldsWith_occurrences_iff hunit ht hc₁.rooted).2 ⟨found, hfound, rfl⟩
    · unfold FindsIn at hfinds
      simp only [hsame.holds_iff] at hfinds
      unfold EditPosition.searched
      rw [List.exists_mem_cons_iff, List.mem_append, hfinds]
      exact or_congr_left hu.findsIn_iff.symm

end CoreM

end SketchSense
