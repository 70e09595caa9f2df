import Mathlib.Data.List.Forall2
import SketchSense.Cache.Project
import SketchSense.Proofs.Cache.Building
import SketchSense.Proofs.Engine.Likeness

/-!
# Caches that work alike

Of a cache only the units decide what it does. The numbers that it keeps about its work do not, and
paths count only by their keys and, in a project, by their kinds.

* `UnitBuilder.BuildsAlike`, two computations that run alike on one builder;
* `UnitCache.buildsAlike_resolveWith` and `ProjectCache.buildsAlike_refresh`, for caches with the
  same units and files with the same keys.
-/

namespace SketchSense

variable {σ α β : Type} {b : UnitBuilder σ}

/-! ## Builds -/

/-- The computations run alike on one builder, which is set up like `b` all the time. -/
abbrev UnitBuilder.BuildsAlike (b : UnitBuilder σ) (x : BuildM σ α) (y : BuildM σ β)
    (Q : α → β → Prop) : Prop :=
  Alike (fun t u => u = t ∧ b.SameSetup t) x y Q

open UnitBuilder

theorem keepsSetup_buildSources (path : FilePath) (code : String) :
    Keeps b.SameSetup (buildSources path code) fun _ => True := by
  intro t s made t' s' hrun ht
  exact ⟨ht.trans (yieldsWith_buildSources hrun).2, trivial⟩

theorem keepsSetup_build (key : FilePath) (code : String) (extra : List FileBuffer) :
    Keeps b.SameSetup (build key code extra) fun _ => True := by
  intro t s answer t' s' hrun ht
  exact ⟨ht.trans (stemsFrom_build hrun).1, trivial⟩

theorem keepsSetup_reparse (c : CachedUnit) (code : String) (extra : List FileBuffer) :
    Keeps b.SameSetup (reparse c code extra) fun _ => True := by
  unfold reparse
  apply keeps_bind (keepsSetup_buildSources c.key code)
  intro s _
  split
  · exact keeps_pure trivial
  · apply keeps_bind keeps_get
    intro t _
    apply keeps_bind (P := fun _ => True) (keeps_liftM fun _ _ _ _ => trivial)
    intro parsed _
    cases parsed with
    | ok unit => exact keeps_pure trivial
    | error e => exact keeps_pure trivial

/-! ## The cache of units -/

namespace UnitCache

variable {c d : UnitCache}

/-- The same answer, with the same units kept. -/
def SameAnswer (r r' : Resolved × UnitCache) : Prop := r'.1 = r.1 ∧ r'.2.units = r.2.units

theorem sameAnswer_keep (hunits : d.units = c.units) (key : FilePath) (u : CachedUnit)
    (action : UnitAction) : SameAnswer (c.keep key u action) (d.keep key u action) := by
  unfold SameAnswer keep
  rw [hunits]
  exact ⟨rfl, rfl⟩

theorem sameAnswer_drop (hunits : d.units = c.units) (key : FilePath) (e : CacheError) :
    SameAnswer (c.drop key e) (d.drop key e) := by
  unfold SameAnswer drop
  rw [hunits]
  exact ⟨rfl, rfl⟩

theorem buildsAlike_create (hunits : d.units = c.units) (key : FilePath) (code : String) :
    b.BuildsAlike (c.create key code) (d.create key code) SameAnswer := by
  unfold create
  apply alike_bind (alike_of_keeps (keepsSetup_build key code []))
  rintro _ built ⟨rfl, -⟩
  cases built with
  | ok u => exact alike_pure (sameAnswer_keep hunits key u .created)
  | error e => exact alike_pure (sameAnswer_drop hunits key e)

theorem buildsAlike_update (hunits : d.units = c.units) (key : FilePath) (unit : CachedUnit)
    (code : String) :
    b.BuildsAlike (c.update key unit code) (d.update key unit code) SameAnswer := by
  unfold update
  apply alike_bind (alike_of_keeps (keepsSetup_reparse unit code []))
  rintro _ parsed ⟨rfl, -⟩
  cases parsed with
  | ok u => exact alike_pure (sameAnswer_keep hunits key u .reparsed)
  | error e => exact buildsAlike_create hunits key code

/-- The cache after a request, made with a builder that is set up like `b`. -/
def Resolves (b : UnitBuilder σ) (c c' : UnitCache) : Prop :=
  ∃ (t t' : UnitBuilder σ) (s s' : σ) (stale : Bool) (path : FilePath) (code : String)
    (answer : Resolved), b.SameSetup t ∧
      YieldsWith (c.resolveWith stale path code) t s (answer, c') t' s'

/-- Caches with the same units answer for paths with one key alike. -/
theorem buildsAlike_resolveWith (hunits : d.units = c.units) {p q : FilePath}
    (hpath : q.normalize b.root = p.normalize b.root) (stale : Bool) (code : String) :
    b.BuildsAlike (c.resolveWith stale p code) (d.resolveWith stale q code) SameAnswer := by
  unfold resolveWith
  apply alike_bind alike_get
  rintro _ t ⟨rfl, ht⟩
  have hkey : t.key q = t.key p := by
    rw [ht.key_eq, ht.key_eq]
    exact hpath
  dsimp only
  rw [hkey, hunits]
  split
  · exact buildsAlike_create hunits _ code
  · split
    · exact alike_pure ⟨rfl, rfl⟩
    · exact buildsAlike_update hunits _ _ code

end UnitCache

/-! ## The cache of a project -/

namespace ProjectCache

variable {c d : ProjectCache}

/-- The same units of a project. -/
def SameUnits (c d : ProjectCache) : Prop := d.units = c.units

theorem buildsAlike_enter (hunits : SameUnits c d) (key : FilePath) (input : ProjectInput)
    (unit : Option CachedUnit) (action : UnitAction) :
    b.BuildsAlike (c.enter key input unit action) (d.enter key input unit action) SameUnits := by
  unfold enter
  apply alike_bind alike_get
  rintro _ t ⟨rfl, -⟩
  apply alike_bind alike_getThe
  rintro s _ rfl
  apply alike_pure
  unfold SameUnits at hunits ⊢
  dsimp only
  rw [hunits]

theorem buildsAlike_rebuild (hunits : SameUnits c d) (key : FilePath) (code : String)
    (headers : List FileBuffer) (input : ProjectInput) :
    b.BuildsAlike (c.rebuild key code headers input) (d.rebuild key code headers input)
      SameUnits := by
  unfold rebuild
  apply alike_bind (alike_of_keeps (keepsSetup_build key code headers))
  rintro _ built ⟨rfl, -⟩
  cases built with
  | ok u => exact buildsAlike_enter hunits key input (some u) .created
  | error e => exact buildsAlike_enter hunits key input none .created

theorem buildsAlike_update (hunits : SameUnits c d) (key : FilePath) (code : String)
    (headers : List FileBuffer) (input : ProjectInput) (old : ProjectUnit) :
    b.BuildsAlike (c.update key code headers input old) (d.update key code headers input old)
      SameUnits := by
  unfold update
  split
  · next unit hunit _ =>
    apply alike_bind (alike_of_keeps (keepsSetup_reparse unit code headers))
    rintro _ parsed ⟨rfl, -⟩
    cases parsed with
    | ok u => exact buildsAlike_enter hunits key input (some u) .reparsed
    | error e => exact buildsAlike_rebuild hunits key code headers input
  · exact buildsAlike_rebuild hunits key code headers input

theorem buildsAlike_refreshFile (hunits : SameUnits c d) (key : FilePath) (code : String)
    (headers : List FileBuffer) :
    b.BuildsAlike (c.refreshFile key code headers) (d.refreshFile key code headers) SameUnits := by
  have hsame : d.units = c.units := hunits
  unfold refreshFile
  apply alike_bind alike_get
  rintro _ t ⟨rfl, -⟩
  dsimp only
  rw [hsame]
  split
  · exact buildsAlike_rebuild hunits key code headers _
  · split
    · exact buildsAlike_update hunits key code headers _ _
    · exact alike_pure rfl

theorem buildsAlike_refreshFiles (headers : List FileBuffer) (files : List FileBuffer)
    (hunits : SameUnits c d) :
    b.BuildsAlike (refreshFiles headers c files) (refreshFiles headers d files) SameUnits := by
  induction files generalizing c d with
  | nil => exact alike_pure hunits
  | cons f files ih =>
    unfold refreshFiles
    apply alike_bind (buildsAlike_refreshFile hunits f.path f.code headers)
    intro c' d' hunits'
    exact ih hunits'

end ProjectCache

/-! ## Open files under other spellings -/

/-- The file under another spelling of its path: taken from `root` both are one key. -/
structure FileBuffer.Respells (root : FilePath) (f g : FileBuffer) : Prop where
  key : g.path.normalize root = f.path.normalize root
  code : g.code = f.code

/-- The same file under another spelling from which the same kind is read. -/
structure FileBuffer.RespellsKind (root : FilePath) (f g : FileBuffer) : Prop
    extends f.Respells root g where
  kind : g.kind = f.kind

theorem FileBuffer.Respells.refl (root : FilePath) (f : FileBuffer) : f.Respells root f :=
  ⟨rfl, rfl⟩

theorem FileBuffer.RespellsKind.refl (root : FilePath) (f : FileBuffer) : f.RespellsKind root f :=
  ⟨.refl root f, rfl⟩

variable {root : FilePath} {files others : List FileBuffer}

/-- Of files under other spellings those of some kinds are the same ones under their keys. -/
theorem map_filter_of_respells (p : FileKind → Bool)
    (h : List.Forall₂ (FileBuffer.RespellsKind root) files others) :
    ((others.filter fun g => p g.kind).map fun g => (⟨g.path.normalize root, g.code⟩ : FileBuffer)) =
      (files.filter fun f => p f.kind).map fun f => ⟨f.path.normalize root, f.code⟩ := by
  induction h with
  | nil => rfl
  | cons hfg _ ih =>
    rw [List.filter_cons, List.filter_cons, hfg.kind]
    split
    · rw [List.map_cons, List.map_cons, ih, hfg.key, hfg.code]
    · exact ih

/-- A pass over files under other spellings is the same pass. -/
theorem ProjectCache.buildsAlike_refresh {c d : ProjectCache} (hunits : SameUnits c d)
    (h : List.Forall₂ (FileBuffer.RespellsKind b.root) files others) (e : Enumeration ProjectUnit) :
    b.BuildsAlike (c.refresh files e) (d.refresh others e) fun r r' =>
      r'.1 = r.1 ∧ SameUnits r.2 r'.2 := by
  unfold refresh
  apply alike_bind alike_get
  rintro _ t ⟨rfl, ht⟩
  rw [← ht.root_eq] at h
  have hsources : sourceFiles t others = sourceFiles t files := by
    unfold sourceFiles
    exact congrArg _ (map_filter_of_respells FileKind.isProjectSource h)
  have hheaders : openHeaders t others = openHeaders t files :=
    map_filter_of_respells (fun k => k = .header) h
  dsimp only
  rw [hsources, hheaders]
  apply alike_bind (buildsAlike_refreshFiles (openHeaders t files) (sourceFiles t files) hunits)
  intro c' d' hunits'
  apply alike_pure
  have hsame : d'.units = c'.units := hunits'
  unfold SameUnits
  dsimp only
  rw [hsame]
  exact ⟨rfl, rfl⟩

end SketchSense
