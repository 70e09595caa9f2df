import SketchSense.Proofs.Cache.Likeness
import SketchSense.Proofs.Cache.OctetHeaders
import SketchSense.Proofs.Cache.Project

/-!
# When a project reuses its units

Whatever the engine, a pass over a project reuses a unit exactly where the keys of what it was made of
are those of what is open now. Nothing but collisions of hashes stands between the keys and what they
are made from, so the arguments and the open headers are then the same; and as the keys forget the order
of the headers, a pass over the same files in another order reuses every unit.

* `ProjectCache.IsUpToDate`, that a unit may be reused, and `ProjectCache.refreshFile_outcome`, what
  becomes of the unit of a file;
* `ProjectCache.yieldsWith_refresh_reordered`, a pass over the same files in another order;
* `ProjectPass` and `ProjectCache.Follows`, the caches that passes lead to, with
  `ProjectPass.Reuses.unchanged`, that only what is unchanged is reused;
* `stalenessKeys_carry`, both of them together with what the bytes of the keys tell apart.
-/

namespace SketchSense

variable {σ : Type}

/-! ## One file -/

/-- The numbers after some more units were reused. -/
def CacheStats.recordReuses (stats : CacheStats) (n : Nat) : CacheStats :=
  { stats with reused := stats.reused + n }

namespace ProjectCache

variable {b b' : UnitBuilder σ} {s s' : σ} {c c' : ProjectCache} {key : FilePath} {code : String}
  {headers : List FileBuffer} {input : ProjectInput} {f : FileBuffer} {fs : List FileBuffer}

/-- The unit of a file may be reused: the keys of what it was made of are those of what is open. -/
def IsUpToDate (b : UnitBuilder σ) (headers : List FileBuffer) (units : Table FilePath ProjectUnit)
    (f : FileBuffer) : Prop :=
  ∃ e, units.get? f.path = some e ∧
    (e.input.isStale (b.projectInput f.path f.code headers) ||
      e.input.needsRebuild (b.projectInput f.path f.code headers)) = false

/-- A unit that was made of `input`, or its absence, is entered, and none is counted as reused. -/
def Enters (c : ProjectCache) (key : FilePath) (input : ProjectInput) (c' : ProjectCache) : Prop :=
  ∃ e : ProjectUnit, e.input = input ∧ c'.units = c.units.insert key e ∧
    c'.stats.reused = c.stats.reused

theorem enters_enter (unit : Option CachedUnit) {action : UnitAction} (haction : action ≠ .reused) :
    Keeps b.SameSetup (c.enter key input unit action) (c.Enters key input) := by
  intro t s d t' s' hrun ht
  unfold YieldsWith Yields at hrun
  rw [runFrom_enter] at hrun
  cases hrun
  refine ⟨ht, _, rfl, rfl, ?_⟩
  cases action with
  | reused => exact absurd rfl haction
  | created => cases unit <;> rfl
  | reparsed => cases unit <;> rfl

theorem enters_rebuild :
    Keeps b.SameSetup (c.rebuild key code headers input) (c.Enters key input) := by
  unfold rebuild
  apply keeps_bind (keepsSetup_build key code headers)
  intro built _
  cases built with
  | ok unit => exact enters_enter _ (by decide)
  | error e => exact enters_enter _ (by decide)

theorem enters_update (old : ProjectUnit) :
    Keeps b.SameSetup (c.update key code headers input old) (c.Enters key input) := by
  unfold update
  split
  · next unit _ _ =>
    apply keeps_bind (keepsSetup_reparse unit code headers)
    intro parsed _
    cases parsed with
    | ok unit => exact enters_enter _ (by decide)
    | error e => exact enters_rebuild
  · exact enters_rebuild

/-- The unit of a file is reused if it is up to date; else one is entered for what is open. -/
theorem refreshFile_outcome (h : YieldsWith (c.refreshFile f.path f.code headers) b s c' b' s') :
    (IsUpToDate b headers c.units f ∧ c' = { c with stats := c.stats.record .reused } ∧ b' = b ∧
        s' = s) ∨
      (b.SameSetup b' ∧ c.Enters f.path (b.projectInput f.path f.code headers) c') := by
  unfold YieldsWith at h
  rw [run_refreshFile] at h
  split at h
  · exact .inr (enters_rebuild h (.refl b))
  · next e hget =>
    split at h
    · exact .inr (enters_update e h (.refl b))
    · next hcurrent =>
      obtain ⟨hend, rfl⟩ := yields_pure.1 h
      obtain ⟨rfl, rfl⟩ := Prod.mk.inj hend
      exact .inl ⟨⟨e, hget, by simpa using hcurrent⟩, rfl, rfl, rfl⟩

theorem sameSetup_of_refreshFile
    (h : YieldsWith (c.refreshFile f.path f.code headers) b s c' b' s') : b.SameSetup b' := by
  rcases refreshFile_outcome h with ⟨-, -, rfl, -⟩ | ⟨hsetup, -⟩
  · exact .refl _
  · exact hsetup

/-- Whatever becomes of the unit of a file, it is up to date afterwards. -/
theorem isUpToDate_of_refreshFile
    (h : YieldsWith (c.refreshFile f.path f.code headers) b s c' b' s') :
    IsUpToDate b headers c'.units f := by
  rcases refreshFile_outcome h with ⟨hcurrent, rfl, -⟩ | ⟨-, e, hinput, hunits, -⟩
  · exact hcurrent
  · refine ⟨e, by rw [hunits, Table.get?_insert_self], ?_⟩
    rw [hinput]
    exact ProjectInput.current_self _

/-- No other unit changes. -/
theorem get?_of_refreshFile (h : YieldsWith (c.refreshFile f.path f.code headers) b s c' b' s')
    {k : FilePath} (hk : (f.path == k) = false) : c'.units.get? k = c.units.get? k := by
  rcases refreshFile_outcome h with ⟨-, rfl, -⟩ | ⟨-, e, -, hunits, -⟩
  · rfl
  · rw [hunits, Table.get?_insert_of_ne _ hk]

/-- What is up to date for one builder is so for every builder of the same setup. -/
theorem isUpToDate_of_sameSetup (hsetup : b.SameSetup b') {units : Table FilePath ProjectUnit} :
    IsUpToDate b' headers units f ↔ IsUpToDate b headers units f := by
  have hinput : b'.projectInput f.path f.code headers = b.projectInput f.path f.code headers := by
    rw [hsetup]
    rfl
  unfold IsUpToDate
  rw [hinput]

/-! ## All files -/

theorem sameSetup_of_refreshFiles (h : YieldsWith (refreshFiles headers c fs) b s c' b' s') :
    b.SameSetup b' := by
  induction fs generalizing c b s with
  | nil =>
    obtain ⟨-, rfl, -⟩ := yieldsWith_pure.1 h
    exact .refl _
  | cons f fs ih =>
    obtain ⟨d, b₁, s₁, hfile, hrest⟩ := yieldsWith_refreshFiles_cons.1 h
    exact (sameSetup_of_refreshFile hfile).trans (ih hrest)

theorem get?_of_refreshFiles (h : YieldsWith (refreshFiles headers c fs) b s c' b' s') {k : FilePath}
    (hk : ∀ f ∈ fs, (f.path == k) = false) : c'.units.get? k = c.units.get? k := by
  induction fs generalizing c b s with
  | nil =>
    obtain ⟨rfl, -⟩ := yieldsWith_pure.1 h
    rfl
  | cons f fs ih =>
    obtain ⟨d, b₁, s₁, hfile, hrest⟩ := yieldsWith_refreshFiles_cons.1 h
    obtain ⟨hf, hfs⟩ := List.forall_mem_cons.1 hk
    rw [ih hrest hfs, get?_of_refreshFile hfile hf]

/-- After files with different keys were brought up to date, all of them are. -/
theorem isUpToDate_of_refreshFiles (hdistinct : fs.Pairwise fun f g => (f.path == g.path) = false)
    (h : YieldsWith (refreshFiles headers c fs) b s c' b' s') :
    ∀ f ∈ fs, IsUpToDate b headers c'.units f := by
  induction fs generalizing c b s with
  | nil => exact fun f hf => absurd hf List.not_mem_nil
  | cons f fs ih =>
    obtain ⟨d, b₁, s₁, hfile, hrest⟩ := yieldsWith_refreshFiles_cons.1 h
    obtain ⟨hf, hfs⟩ := List.pairwise_cons.1 hdistinct
    have hsetup := sameSetup_of_refreshFile hfile
    intro g hg
    rcases List.mem_cons.1 hg with rfl | hg
    · obtain ⟨e, hget, hcurrent⟩ := isUpToDate_of_refreshFile hfile
      have hkept := get?_of_refreshFiles hrest (k := g.path) fun x hx => by
        rw [BEq.comm]
        exact hf x hx
      exact ⟨e, hkept.trans hget, hcurrent⟩
    · exact (isUpToDate_of_sameSetup hsetup).1 (ih hfs hrest g hg)

/-- A file that is up to date is reused, and no engine is asked. -/
theorem yieldsWith_refreshFile_of_upToDate (b : UnitBuilder σ) (s : σ) (c : ProjectCache)
    (h : IsUpToDate b headers c.units f) :
    YieldsWith (c.refreshFile f.path f.code headers) b s
      { c with stats := c.stats.record .reused } b s := by
  obtain ⟨e, hget, hcurrent⟩ := h
  unfold YieldsWith
  rw [run_refreshFile, hget]
  dsimp only
  rw [hcurrent, if_neg Bool.false_ne_true]
  exact yields_pure.2 ⟨rfl, rfl⟩

theorem yieldsWith_refreshFiles_of_upToDate (b : UnitBuilder σ) (s : σ) (c : ProjectCache)
    (h : ∀ f ∈ fs, IsUpToDate b headers c.units f) :
    YieldsWith (refreshFiles headers c fs) b s ⟨c.units, c.stats.recordReuses fs.length⟩ b s := by
  induction fs generalizing c with
  | nil => exact yieldsWith_pure.2 ⟨rfl, rfl, rfl⟩
  | cons f fs ih =>
    obtain ⟨hf, hfs⟩ := List.forall_mem_cons.1 h
    have hfile := yieldsWith_refreshFile_of_upToDate b s c hf
    have hrest := ih { c with stats := c.stats.record .reused } hfs
    have hstats : (c.stats.record .reused).recordReuses fs.length =
        c.stats.recordReuses (fs.length + 1) := by
      simp [CacheStats.record, CacheStats.recordReuses, Nat.add_assoc, Nat.add_comm 1]
    dsimp only at hrest
    rw [hstats] at hrest
    exact yieldsWith_refreshFiles_cons.2 ⟨_, _, _, hfile, hrest⟩

/-! ## The same files in another order -/

/-- Every source stands under a normal path. -/
theorem exists_of_mem_sourceFiles {files : List FileBuffer} (h : f ∈ sourceFiles b files) :
    ∃ g ∈ files, f.path = b.key g.path :=
  have ⟨g, hg, hf⟩ := List.mem_map.1 (mem_of_mem_keepFirst h)
  ⟨g, (List.mem_filter.1 hg).1, by rw [← hf]⟩

theorem sourceFiles_of_sameSetup (h : b.SameSetup b') (files : List FileBuffer) :
    sourceFiles b' files = sourceFiles b files := by
  unfold sourceFiles
  simp only [h.key_eq]

theorem openHeaders_of_sameSetup (h : b.SameSetup b') (files : List FileBuffer) :
    openHeaders b' files = openHeaders b files := by
  unfold openHeaders
  simp only [h.key_eq]

section Reordering

variable {files files' : List FileBuffer}
  (hdistinct : files.Pairwise fun f g => b.key f.path ≠ b.key g.path)

include hdistinct

/-- Files with different keys are all brought up to date. -/
theorem sourceFiles_eq_map :
    sourceFiles b files =
      (files.filter (·.kind.isProjectSource)).map fun f => ⟨b.key f.path, f.code⟩ := by
  refine keepFirst_eq_self (List.pairwise_map.2 ((hdistinct.sublist List.filter_sublist).imp ?_))
  intro f g hne
  rw [Bool.eq_false_iff]
  exact fun hbeq => hne (FilePath.normalize_eq_of_beq hbeq)

theorem sourceFiles_perm (hperm : files.Perm files') :
    (sourceFiles b files).Perm (sourceFiles b files') := by
  have hsymm {f g : FileBuffer} (hne : b.key f.path ≠ b.key g.path) : b.key g.path ≠ b.key f.path :=
    hne.symm
  rw [sourceFiles_eq_map hdistinct, sourceFiles_eq_map (hdistinct.perm hperm hsymm)]
  exact (hperm.filter _).map _

theorem headersSignature_openHeaders (hperm : files.Perm files') :
    headersSignature (openHeaders b files) = headersSignature (openHeaders b files') := by
  have hheaders : (openHeaders b files).Perm (openHeaders b files') := (hperm.filter _).map _
  refine congrArg ContentHash.ofBytes (headersBytes_eq_of_perm ?_ ?_ (hheaders.map _))
  · exact List.pairwise_map.2 (hdistinct.sublist List.filter_sublist)
  · intro h hh
    obtain ⟨g, -, rfl⟩ := List.mem_map.1 hh
    exact FilePath.isNormal_normalize _ _

/-- After a pass its units are up to date for the same files in another order. -/
theorem isUpToDate_reordered (hperm : files.Perm files') {listed : List Diagnostic}
    (h : YieldsWith (c.refresh files) b s (listed, c') b' s') :
    ∀ f ∈ sourceFiles b' files', IsUpToDate b' (openHeaders b' files') c'.units f := by
  obtain ⟨d, hrun, rfl, -⟩ := yieldsWith_refresh.1 h
  have hsetup := sameSetup_of_refreshFiles hrun
  rw [sourceFiles_of_sameSetup hsetup, openHeaders_of_sameSetup hsetup]
  intro f hf
  have hmem := (sourceFiles_perm hdistinct hperm).mem_iff.2 hf
  obtain ⟨e, hget, he⟩ := isUpToDate_of_refreshFiles (pairwise_keepFirst _ _) hrun f hmem
  have hkept (k : FilePath) (hk : (k == f.path) = true) :
      ((sourceFiles b files).any fun g => g.path == k) = true :=
    List.any_eq_true.2 ⟨f, hmem, BEq.symm hk⟩
  rw [isUpToDate_of_sameSetup hsetup]
  refine ⟨e, by rw [Table.get?_restrict hkept, hget], ?_⟩
  unfold UnitBuilder.projectInput at he ⊢
  rw [← headersSignature_openHeaders hdistinct hperm]
  exact he

/-- After a pass, a pass over the same files in another order reuses every unit: it reports the same,
the units are the same, and no engine is asked. -/
theorem yieldsWith_refresh_reordered (hperm : files.Perm files') {listed : List Diagnostic}
    (h : YieldsWith (c.refresh files) b s (listed, c') b' s') (t : σ) :
    YieldsWith (c'.refresh files') b' t
      (listed, ⟨c'.units, c'.stats.recordReuses (sourceFiles b files).length⟩) b' t := by
  have hcurrent := isUpToDate_reordered hdistinct hperm h
  obtain ⟨d, hrun, rfl, rfl⟩ := yieldsWith_refresh.1 h
  have hsetup := sameSetup_of_refreshFiles hrun
  have hopen (k : FilePath) : ((sourceFiles b files').any fun f => f.path == k) =
      (sourceFiles b files).any fun f => f.path == k := by
    rw [Bool.eq_iff_iff, List.any_eq_true, List.any_eq_true]
    simp only [(sourceFiles_perm hdistinct hperm).mem_iff]
  refine yieldsWith_refresh.2 ⟨_, yieldsWith_refreshFiles_of_upToDate b' t _ hcurrent, ?_, rfl⟩
  rw [sourceFiles_of_sameSetup hsetup, ← (sourceFiles_perm hdistinct hperm).length_eq]
  refine congrArg (ProjectCache.mk · _) ?_
  unfold Table.restrict
  simp only [hopen, List.filter_filter, Bool.and_self]

end Reordering

end ProjectCache

/-! ## What is reused is unchanged -/

/-- What is open when a project is brought up to date, and the builder at that time. -/
structure ProjectPass (σ : Type) where
  builder : UnitBuilder σ
  files : List FileBuffer

namespace ProjectPass

variable {p q : ProjectPass σ}

def headers (p : ProjectPass σ) : List FileBuffer := openHeaders p.builder p.files

def sources (p : ProjectPass σ) : List FileBuffer := ProjectCache.sourceFiles p.builder p.files

/-- The bytes of the keys: those of the open headers and those of the arguments of every source. -/
def keyBytes (p : ProjectPass σ) : List (List UInt8) :=
  headersBytes p.headers :: p.sources.map fun f => argumentsBytes (p.builder.arguments f.path)

/-- Zero characters stand in no argument, and the headers are told apart by how they are displayed. -/
structure IsPlain (p : ProjectPass σ) : Prop where
  headers : PlainHeaders p.headers
  arguments : ∀ f ∈ p.sources, ∀ a ∈ p.builder.arguments f.path, '\x00' ∉ a.toList

section OneHeader

variable {h f : FileBuffer} (hheaders : p.headers = [h]) (hsources : p.sources = [f])
  (harguments : p.builder.arguments f.path = [])

include hheaders hsources harguments

theorem isPlain_of_singletons (hplain : PlainHeaders [h]) : p.IsPlain where
  headers := hheaders ▸ hplain
  arguments := by
    rw [hsources]
    exact List.forall_mem_singleton.2 (by simp [harguments])

theorem keyBytes_of_singletons : p.keyBytes =
    [ContentHash.textField h.path.display ++ ContentHash.hashField (.ofText h.code),
      argumentsBytes []] := by
  unfold keyBytes
  rw [hheaders, hsources, List.map_singleton, harguments, headersBytes_singleton]

end OneHeader

/-- In a pass from `c` and `s` on, the unit of the source `f` is reused when its turn comes. -/
def Reuses (p : ProjectPass σ) (c : ProjectCache) (s : σ) (f : FileBuffer) : Prop :=
  ∃ done rest d d' b₁ b₂ s₁ s₂, p.sources = done ++ f :: rest ∧
    YieldsWith (ProjectCache.refreshFiles p.headers c done) p.builder s d b₁ s₁ ∧
    YieldsWith (d.refreshFile f.path f.code p.headers) b₁ s₁ d' b₂ s₂ ∧
    d'.stats.reused ≠ d.stats.reused

/-- A source is reused where all sources are up to date. -/
theorem reuses_of_isUpToDate {c : ProjectCache} {f : FileBuffer} (hf : f ∈ p.sources)
    (h : ∀ g ∈ p.sources, ProjectCache.IsUpToDate p.builder p.headers c.units g) (s : σ) :
    p.Reuses c s f := by
  obtain ⟨done, rest, hparts⟩ := List.append_of_mem hf
  refine ⟨done, rest, _, _, _, _, _, _, hparts,
    ProjectCache.yieldsWith_refreshFiles_of_upToDate p.builder s c fun g hg => h g ?_,
    ProjectCache.yieldsWith_refreshFile_of_upToDate p.builder s _ (h f hf), ?_⟩
  · rw [hparts]
    exact List.mem_append_left _ hg
  · exact Nat.succ_ne_self _

/-- A unit that is reused was up to date before the pass. -/
theorem Reuses.isUpToDate {c : ProjectCache} {s : σ} {f : FileBuffer} (h : p.Reuses c s f) :
    ProjectCache.IsUpToDate p.builder p.headers c.units f := by
  obtain ⟨done, rest, d, d', b₁, b₂, s₁, s₂, hparts, hdone, hfile, hreused⟩ := h
  rcases ProjectCache.refreshFile_outcome hfile with ⟨hcurrent, -⟩ | ⟨-, e, -, -, hstats⟩
  · obtain ⟨e, hget, he⟩ := (ProjectCache.isUpToDate_of_sameSetup
      (ProjectCache.sameSetup_of_refreshFiles hdone)).1 hcurrent
    have hdistinct : (done ++ f :: rest).Pairwise fun f g => (f.path == g.path) = false :=
      hparts ▸ pairwise_keepFirst _ _
    refine ⟨e, ?_, he⟩
    rw [← hget]
    exact (ProjectCache.get?_of_refreshFiles hdone fun g hg =>
      (List.pairwise_append.1 hdistinct).2.2 g hg f List.mem_cons_self).symm
  · exact absurd hstats hreused

end ProjectPass

namespace ProjectCache

variable {c c' : ProjectCache} {p : ProjectPass σ} {history : List (ProjectPass σ)}

/-- The caches that some passes, the last one first, and clearing in between lead to. The engine may
change in any way between the passes. -/
inductive Follows : List (ProjectPass σ) → ProjectCache → Prop
  | empty : Follows [] {}
  | refresh {history : List (ProjectPass σ)} {p : ProjectPass σ} {c c' : ProjectCache}
      {listed : List Diagnostic} {b' : UnitBuilder σ} {s s' : σ} {e : Enumeration ProjectUnit}
      (hc : Follows history c)
      (h : YieldsWith (c.refresh p.files e) p.builder s (listed, c') b' s') :
      Follows (p :: history) c'
  | clear {history : List (ProjectPass σ)} {c : ProjectCache} (hc : Follows history c) :
      Follows history c.clear

/-- Every unit was made of a source of one of the passes and of what was open then. -/
def MadeIn (history : List (ProjectPass σ)) (units : Table FilePath ProjectUnit) : Prop :=
  ∀ entry ∈ units.entries, ∃ q ∈ history, ∃ g ∈ q.sources, (g.path == entry.1) = true ∧
    entry.2.input = q.builder.projectInput g.path g.code q.headers

/-- Bringing a source up to date enters a unit that is made in this pass, or none. -/
theorem MadeIn.refreshFile {b b' : UnitBuilder σ} {s s' : σ} {f : FileBuffer}
    (h : MadeIn (p :: history) c.units) (hsetup : p.builder.SameSetup b) (hf : f ∈ p.sources)
    (hrun : YieldsWith (c.refreshFile f.path f.code p.headers) b s c' b' s') :
    MadeIn (p :: history) c'.units := by
  rcases refreshFile_outcome hrun with ⟨-, rfl, -⟩ | ⟨-, e, hinput, hunits, -⟩
  · exact h
  · have hmade : e.input = p.builder.projectInput f.path f.code p.headers := by
      rw [hinput, hsetup]
      rfl
    intro entry hentry
    rw [hunits] at hentry
    rcases Table.mem_put hentry with hold | rfl | ⟨hunit, hbeq, -⟩
    · exact h entry hold
    · exact ⟨p, List.mem_cons_self, f, hf, BEq.rfl, hmade⟩
    · exact ⟨p, List.mem_cons_self, f, hf, BEq.symm hbeq, by rw [hunit, hmade]⟩

theorem MadeIn.refreshFiles {b b' : UnitBuilder σ} {s s' : σ} {fs : List FileBuffer}
    (h : MadeIn (p :: history) c.units) (hsetup : p.builder.SameSetup b)
    (hfs : ∀ f ∈ fs, f ∈ p.sources)
    (hrun : YieldsWith (refreshFiles p.headers c fs) b s c' b' s') :
    MadeIn (p :: history) c'.units := by
  induction fs generalizing c b s with
  | nil =>
    obtain ⟨rfl, -⟩ := yieldsWith_pure.1 hrun
    exact h
  | cons f fs ih =>
    obtain ⟨d, b₁, s₁, hfile, hrest⟩ := yieldsWith_refreshFiles_cons.1 hrun
    obtain ⟨hf, hfs⟩ := List.forall_mem_cons.1 hfs
    exact ih (h.refreshFile hsetup hf hfile) (hsetup.trans (sameSetup_of_refreshFile hfile)) hfs hrest

/-- Every unit that a project keeps was made in one of its passes. -/
theorem Follows.madeIn (h : Follows history c) : MadeIn history c.units := by
  induction h with
  | empty => exact fun entry hentry => absurd hentry List.not_mem_nil
  | @refresh history p c c' listed b' s s' e _ hrun ih =>
    obtain ⟨d, hfiles, rfl, -⟩ := yieldsWith_refresh.1 hrun
    have hearlier : MadeIn (p :: history) c.units := fun entry hentry =>
      let ⟨q, hq, hmade⟩ := ih entry hentry
      ⟨q, List.mem_cons_of_mem _ hq, hmade⟩
    have hdone := hearlier.refreshFiles (.refl _) (fun _ hf => hf) hfiles
    exact fun entry hentry => hdone entry (List.mem_filter.1 hentry).1
  | clear _ _ => exact fun entry hentry => absurd hentry List.not_mem_nil

end ProjectCache

/-- A unit that is reused was made, in an earlier pass, of the same source, the same arguments and the
same open headers, unless hashes collide. -/
theorem ProjectPass.Reuses.unchanged {p : ProjectPass σ} {history : List (ProjectPass σ)}
    {c : ProjectCache} {s : σ} {f : FileBuffer} (h : p.Reuses c s f) (hc : ProjectCache.Follows history c)
    (hplain : ∀ q ∈ p :: history, q.IsPlain)
    (hfree : ContentHash.CollisionFree ((p :: history).flatMap keyBytes)) :
    ∃ q ∈ history, ∃ g ∈ q.sources, g.headerKey = f.headerKey ∧
      q.builder.arguments g.path = p.builder.arguments f.path ∧
      (q.headers.map (·.headerKey)).Perm (p.headers.map (·.headerKey)) := by
  have hf : f ∈ p.sources := by
    obtain ⟨done, rest, -, -, -, -, -, -, hparts, -⟩ := h
    rw [hparts]
    simp
  obtain ⟨e, hget, he⟩ := h.isUpToDate
  obtain ⟨k, hmem, hk⟩ := Table.exists_mem_of_find?_eq_some hget
  obtain ⟨q, hq, g, hg, hgk, hinput⟩ := hc.madeIn _ hmem
  have hpath : g.path = f.path := by
    obtain ⟨g', -, hg'⟩ := ProjectCache.exists_of_mem_sourceFiles hg
    obtain ⟨f', -, hf'⟩ := ProjectCache.exists_of_mem_sourceFiles hf
    have hbeq := FilePath.beq_iff.1 (BEq.trans hgk hk)
    rw [hg', hf'] at hbeq ⊢
    exact (FilePath.isNormal_normalize _ _).eq_of_components_eq (FilePath.isNormal_normalize _ _) hbeq
  -- the keys are equal, and so are the bytes that they are hashes of
  have hinput : e.input = q.builder.projectInput g.path g.code q.headers := hinput
  simp only [hinput, UnitBuilder.projectInput, ProjectInput.isStale, ProjectInput.needsRebuild,
    Bool.or_eq_false_iff, bne_eq_false_iff_eq] at he
  obtain ⟨⟨hcontent, hsignature⟩, harguments, -⟩ := he
  have hq' : q ∈ p :: history := List.mem_cons_of_mem _ hq
  have hbytes {r : ProjectPass σ} (hr : r ∈ p :: history) {bytes : List UInt8}
      (hb : bytes ∈ r.keyBytes) : bytes ∈ (p :: history).flatMap keyBytes :=
    List.mem_flatMap.2 ⟨r, hr, hb⟩
  have hargumentsBytes := hfree _ (hbytes hq' (List.mem_cons_of_mem _ (List.mem_map_of_mem hg))) _
    (hbytes List.mem_cons_self (List.mem_cons_of_mem _ (List.mem_map_of_mem hf))) harguments
  have hheadersBytes := hfree _ (hbytes hq' List.mem_cons_self) _
    (hbytes List.mem_cons_self List.mem_cons_self) hsignature
  exact ⟨q, hq, g, hg, Prod.ext hpath hcontent,
    (argumentsBytes_inj ((hplain q hq').arguments g hg)
      ((hplain p List.mem_cons_self).arguments f hf)).1 hargumentsBytes,
    (headersBytes_eq_iff (hplain q hq').headers (hplain p List.mem_cons_self).headers).1
      hheadersBytes⟩

/-- The bytes of the keys of a project tell the arguments and the open headers apart, up to the order
of the headers. So a unit is reused only where both are unchanged, unless hashes collide, and the
files in another order make no work. Headers under paths that are no texts are told apart too, unless
their paths are shown alike. -/
theorem stalenessKeys_carry :
    (∀ as bs : List String, (∀ a ∈ as, '\x00' ∉ a.toList) → (∀ b ∈ bs, '\x00' ∉ b.toList) →
      argumentsBytes as = argumentsBytes bs → as = bs) ∧
    (∀ hs gs : List FileBuffer, PlainHeaders hs → PlainHeaders gs →
      (headersBytes hs = headersBytes gs ↔
        (hs.map (·.headerKey)).Perm (gs.map (·.headerKey)))) ∧
    ((∀ hs : List FileBuffer,
        OctetPath.headersBytes (hs.map fun h => (.ofText h.path, .ofText h.code)) = headersBytes hs) ∧
      (∀ s t : FilePath, '\\' ∉ s.text.toList → '\\' ∉ t.text.toList →
        (OctetPath.ofText s).display = (OctetPath.ofText t).display → s = t) ∧
      ∀ ks ls : List (OctetPath × ContentHash), OctetPath.PlainKeys ks → OctetPath.PlainKeys ls →
        (ks.Perm ls → OctetPath.headersBytes ks = OctetPath.headersBytes ls) ∧
        ((∀ k ∈ ks, ∀ l ∈ ls, k.1.display = l.1.display → k.1 = l.1) →
          OctetPath.headersBytes ks = OctetPath.headersBytes ls → ks.Perm ls)) ∧
    (∀ (σ : Type) (history : List (ProjectPass σ)) (p : ProjectPass σ) (c : ProjectCache) (s : σ)
      (f : FileBuffer), ProjectCache.Follows history c → (∀ q ∈ p :: history, q.IsPlain) →
      ContentHash.CollisionFree ((p :: history).flatMap ProjectPass.keyBytes) → p.Reuses c s f →
      ∃ q ∈ history, ∃ g ∈ q.sources, g.headerKey = f.headerKey ∧
        q.builder.arguments g.path = p.builder.arguments f.path ∧
        (q.headers.map (·.headerKey)).Perm (p.headers.map (·.headerKey))) ∧
    ∀ (σ : Type) (b b' : UnitBuilder σ) (s s' t : σ) (c c' : ProjectCache)
      (files files' : List FileBuffer) (listed : List Diagnostic),
      files.Perm files' → (files.Pairwise fun f g => b.key f.path ≠ b.key g.path) →
      YieldsWith (c.refresh files) b s (listed, c') b' s' →
      YieldsWith (c'.refresh files') b' t
        (listed, ⟨c'.units, c'.stats.recordReuses (ProjectCache.sourceFiles b files).length⟩) b' t := by
  refine ⟨?_, ?_, ⟨OctetPath.headersBytes_ofText, ?_, ?_⟩, ?_, ?_⟩
  · intro as bs has hbs heq
    exact (argumentsBytes_inj has hbs).1 heq
  · intro hs gs hhs hgs
    exact headersBytes_eq_iff hhs hgs
  · intro s t hs ht heq
    exact OctetPath.eq_of_display_ofText hs ht heq
  · intro ks ls hks hls
    refine ⟨OctetPath.headersBytes_eq_of_keys_perm hks, fun hapart heq => ?_⟩
    exact (OctetPath.headersBytes_eq_iff_of_apart hks hls hapart).1 heq
  · intro σ history p c s f hc hplain hfree hreuses
    exact hreuses.unchanged hc hplain hfree
  · intro σ b b' s s' t c c' files files' listed hperm hdistinct hrun
    exact ProjectCache.yieldsWith_refresh_reordered hdistinct hperm hrun t

/-- When a header is moved behind the source it is open with, the unit of the source is reused. A
header whose name is no text is told apart from another one. -/
theorem stalenessKeys_carry_moved_header :
    argumentsBytes ["ab", "c"] ≠ argumentsBytes ["a", "bc"] ∧
    OctetPath.headersBytes [(⟨[47, 255, 46, 104]⟩, .ofText "int a;\n")] ≠
      OctetPath.headersBytes [(⟨[47, 98, 46, 104]⟩, .ofText "int a;\n")] ∧
    headersBytes [⟨⟨"/s/a.h"⟩, "int a;\n"⟩, ⟨⟨"/s/b.h"⟩, "int b;\n"⟩] =
      headersBytes [⟨⟨"/s/b.h"⟩, "int b;\n"⟩, ⟨⟨"/s/a.h"⟩, "int a;\n"⟩] ∧
    ∃ (c : ProjectCache) (listed : List Diagnostic) (s : Model.ModelState),
      YieldsWith (({} : ProjectCache).refresh (Pass.withHeader "/s/a.h" "int a;\n").files)
        (Pass.withHeader "/s/a.h" "int a;\n").builder {} (listed, c)
        (Pass.withHeader "/s/a.h" "int a;\n").builder s ∧
      YieldsWith (c.refresh (Pass.withHeader "/s/a.h" "int a;\n").files.reverse)
        (Pass.withHeader "/s/a.h" "int a;\n").builder s (listed, ⟨c.units, c.stats.recordReuses 1⟩)
        (Pass.withHeader "/s/a.h" "int a;\n").builder s ∧
      ∃ q ∈ [ProjectPass.mk (Pass.withHeader "/s/a.h" "int a;\n").builder
          (Pass.withHeader "/s/a.h" "int a;\n").files], ∃ g ∈ q.sources,
        g.headerKey = FileBuffer.headerKey ⟨⟨"/s/m.cpp"⟩, "int m;\n"⟩ ∧
        q.builder.arguments g.path = [] ∧
        (q.headers.map (·.headerKey)).Perm [FileBuffer.headerKey ⟨⟨"/s/a.h"⟩, "int a;\n"⟩] := by
  obtain ⟨harguments, hheaders, ⟨-, -, hoctets⟩, hreused, hreordered⟩ := stalenessKeys_carry
  have hpair : PlainHeaders [⟨⟨"/s/a.h"⟩, "int a;\n"⟩, ⟨⟨"/s/b.h"⟩, "int b;\n"⟩] := by
    refine ⟨by simp, ?_, by decide +kernel, by decide +kernel⟩
    exact List.forall_mem_cons.2 ⟨FilePath.isNormal_normalize ⟨"/s/a.h"⟩ ⟨"/s"⟩,
      List.forall_mem_singleton.2 (FilePath.isNormal_normalize ⟨"/s/b.h"⟩ ⟨"/s"⟩)⟩
  have hone : PlainHeaders [⟨⟨"/s/a.h"⟩, "int a;\n"⟩] := hpair.sublist (by simp)
  have hoctet : OctetPath.PlainKeys [(⟨[47, 255, 46, 104]⟩, .ofText "int a;\n")] :=
    .singleton _ (FilePath.isNormal_normalize ⟨"/ÿ.h"⟩ ⟨"/"⟩) (by decide)
  have hletter : OctetPath.PlainKeys [(⟨[47, 98, 46, 104]⟩, .ofText "int a;\n")] :=
    .singleton _ (FilePath.isNormal_normalize ⟨"/b.h"⟩ ⟨"/"⟩) (by decide)
  have hshown : (⟨[47, 255, 46, 104]⟩ : OctetPath).display ≠
      (⟨[47, 98, 46, 104]⟩ : OctetPath).display := by decide +kernel
  refine ⟨fun heq => ?_, fun heq => ?_,
    (hheaders _ _ hpair (hpair.perm (.swap _ _ _))).2 (.swap _ _ _), ?_⟩
  · exact absurd (harguments _ _ (by decide) (by decide) heq) (by decide)
  · have hperm := (hoctets _ _ hoctet hletter).2 (List.forall_mem_singleton.2
      (List.forall_mem_singleton.2 fun h => absurd h hshown)) heq
    have hsame := List.singleton_perm_singleton.1 hperm
    exact absurd (congrArg (fun k : OctetPath × ContentHash => k.1.octets) hsame) (by decide)
  have hfits := Pass.fits_withHeader "/s/a.h" "int a;\n"
  obtain ⟨d, s, hfiles⟩ := (ProjectCache.Advanced.start (c := {}) (.empty ⟨"/s"⟩ [])
    hfits).exists_refreshFiles hfits (List.nil_append _) (by decide +kernel) (by decide +kernel)
  obtain ⟨c, listed, hfirst⟩ : ∃ c listed, YieldsWith
      (({} : ProjectCache).refresh (Pass.withHeader "/s/a.h" "int a;\n").files)
      (Pass.withHeader "/s/a.h" "int a;\n").builder {} (listed, c)
      (Pass.withHeader "/s/a.h" "int a;\n").builder s :=
    ⟨_, _, ProjectCache.yieldsWith_refresh.2 ⟨d, hfiles, rfl, rfl⟩⟩
  have hdistinct : (Pass.withHeader "/s/a.h" "int a;\n").files.Pairwise fun f g =>
      (Pass.withHeader "/s/a.h" "int a;\n").builder.key f.path ≠
        (Pass.withHeader "/s/a.h" "int a;\n").builder.key g.path := by
    refine .cons (List.forall_mem_singleton.2 fun h => ?_) (List.pairwise_singleton _ _)
    exact absurd (congrArg (fun p : FilePath => p.text) h) (by decide +kernel)
  have hperm := (List.reverse_perm (Pass.withHeader "/s/a.h" "int a;\n").files).symm
  have hagain := hreordered _ _ _ _ _ s _ _ _ _ _ hperm hdistinct hfirst
  have hlength : (ProjectCache.sourceFiles (Pass.withHeader "/s/a.h" "int a;\n").builder
      (Pass.withHeader "/s/a.h" "int a;\n").files).length = 1 := rfl
  rw [hlength] at hagain
  refine ⟨c, listed, s, hfirst, hagain, ?_⟩
  -- both passes have the same headers and the same sources
  generalize hbuilder : (Pass.withHeader "/s/a.h" "int a;\n").builder = b at hfirst hdistinct ⊢
  generalize hopen : (Pass.withHeader "/s/a.h" "int a;\n").files = files at hfirst hdistinct hperm ⊢
  have harguments : b.arguments ⟨"/s/m.cpp"⟩ = [] := hbuilder ▸ rfl
  have hsources : ProjectPass.sources ⟨b, files⟩ = [⟨⟨"/s/m.cpp"⟩, "int m;\n"⟩] :=
    hbuilder ▸ hopen ▸ rfl
  have hsources' : ProjectPass.sources ⟨b, files.reverse⟩ = [⟨⟨"/s/m.cpp"⟩, "int m;\n"⟩] :=
    hbuilder ▸ hopen ▸ rfl
  have hheaders : ProjectPass.headers ⟨b, files⟩ = [⟨⟨"/s/a.h"⟩, "int a;\n"⟩] :=
    hbuilder ▸ hopen ▸ rfl
  have hheaders' : ProjectPass.headers ⟨b, files.reverse⟩ = [⟨⟨"/s/a.h"⟩, "int a;\n"⟩] :=
    hbuilder ▸ hopen ▸ rfl
  have hthen := ProjectPass.isPlain_of_singletons hheaders hsources harguments hone
  have hnow := ProjectPass.isPlain_of_singletons hheaders' hsources' harguments hone
  have hreuses : ProjectPass.Reuses ⟨b, files.reverse⟩ c s ⟨⟨"/s/m.cpp"⟩, "int m;\n"⟩ :=
    ProjectPass.reuses_of_isUpToDate (by rw [hsources']; exact List.mem_singleton_self _)
      (ProjectCache.isUpToDate_reordered hdistinct hperm hfirst) s
  obtain ⟨q, hq, g, hg, hkey, hsame, hheader⟩ := hreused _ [⟨b, files⟩]
    ⟨b, files.reverse⟩ c s _ (.refresh (p := ⟨b, files⟩) .empty hfirst)
    (List.forall_mem_cons.2 ⟨hnow, List.forall_mem_singleton.2 hthen⟩)
    (by
      rw [List.flatMap_cons, List.flatMap_singleton,
        ProjectPass.keyBytes_of_singletons hheaders hsources harguments,
        ProjectPass.keyBytes_of_singletons hheaders' hsources' harguments]
      unfold ContentHash.CollisionFree
      decide +kernel) hreuses
  rw [hheaders'] at hheader
  exact ⟨q, hq, g, hg, hkey, hsame.trans harguments, hheader⟩

end SketchSense
