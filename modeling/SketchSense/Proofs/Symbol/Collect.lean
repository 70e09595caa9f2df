import Mathlib.Data.List.Basic
import Mathlib.Data.List.Pairwise
import SketchSense.Proofs.Cursor.Forest
import SketchSense.Proofs.Model.Numbering
import SketchSense.Symbol.Collect

/-!
# The symbols of a unit, entity by entity

In the tree of a unit the entities stand at the top, their members and parameters below them, and
under these only references, which declare nothing. So the symbols of a unit are those of its
entities.

* `HasEntities.filterMap_preorder`, what is collected from the whole tree;
* `Cursor.symbolIn` and `Entity.symbols`, the symbols of a cursor and of an entity;
* `HasEntities.symbols_eq`, that a unit lists the symbols of its entities.
-/

namespace SketchSense

namespace Model.HasEntities

variable {u : CompilationUnit} {es : List Entity} (h : HasEntities u es) {β : Type}
  {g : Cursor → Option β} (hg : ∀ c, c.kind.isReference = true → g c = none)

include h

theorem children_of_mem {x : Nat × Entity} (hx : x ∈ entityIds 0 es) {c : Cursor} (hc : c.id = x.1) :
    ∃ refs : List Cursor,
      (∀ r ∈ refs, r.kind.isReference = true ∧ (numberAll 0 es).length ≤ r.id) ∧
      u.children c = (numberBelow x.1 (x.1 + 1) x.2.below).map (·.cursor) ++ refs := by
  obtain ⟨refs, hrefs, hchildren⟩ := h.children_eq c
  refine ⟨refs, hrefs, ?_⟩
  rw [hchildren, hc, flatMap_entityIds hx]

theorem children_of_not_mem {c : Cursor} (hc : ∀ x ∈ entityIds 0 es, x.1 ≠ c.id) :
    ∀ r ∈ u.children c, r.kind.isReference = true ∧ (numberAll 0 es).length ≤ r.id := by
  obtain ⟨refs, hrefs, hchildren⟩ := h.children_eq c
  have hnone : ((entityIds 0 es).flatMap fun x =>
      if x.1 = c.id then numberBelow x.1 (x.1 + 1) x.2.below else []) = [] := by
    rw [List.flatMap_eq_nil_iff]
    exact fun x hx => if_neg (hc x hx)
  rw [hchildren, hnone]
  exact hrefs

omit h in
/-- A node behind all declared ones is not that of an entity. -/
theorem ne_of_length_le {id : Nat} (hid : (numberAll 0 es).length ≤ id) :
    ∀ x ∈ entityIds 0 es, x.1 ≠ id := by
  intro x hx
  have hlt := (lt_of_mem_entityIds hx).2
  omega

omit h in
/-- A node below an entity is not that of another one. -/
theorem ne_of_mem_numberBelow {x : Nat × Entity} (hx : x ∈ entityIds 0 es) {d : Draft}
    (hd : d ∈ numberBelow x.1 (x.1 + 1) x.2.below) : ∀ y ∈ entityIds 0 es, y.1 ≠ d.cursor.id := by
  obtain ⟨i, hi, rfl⟩ := List.getElem_of_mem hd
  have hid := numbered_numberBelow x.1 (x.1 + 1) x.2.below i _ (List.getElem?_eq_getElem hi)
  rw [length_numberBelow] at hi
  intro y hy
  rw [hid]
  by_cases hxy : x = y
  · subst hxy
    omega
  -- the numbers of different entities are in intervals that do not meet
  · have hsymm : Std.Symm fun x y : Nat × Entity =>
        x.1 + x.2.below.length < y.1 ∨ y.1 + y.2.below.length < x.1 := ⟨fun _ _ => Or.symm⟩
    have hpairs : (entityIds 0 es).Pairwise fun x y =>
        x.1 + x.2.below.length < y.1 ∨ y.1 + y.2.below.length < x.1 :=
      (pairwise_entityIds 0 es).imp Or.inl
    have hapart := hpairs.forall hx hy hxy
    omega

include hg

/-- Nothing is collected below a node that is no entity. -/
theorem filterMap_descendants {c : Cursor} (hc : ∀ x ∈ entityIds 0 es, x.1 ≠ c.id) (depth : Nat) :
    (u.descendants depth c).filterMap (fun x => g x.1) = [] := by
  induction depth generalizing c with
  | zero => rfl
  | succ depth ih =>
    rw [CompilationUnit.descendants, List.filterMap_flatMap, List.flatMap_eq_nil_iff]
    intro r hr
    obtain ⟨hkind, hid⟩ := h.children_of_not_mem hc r hr
    rw [List.filterMap_cons_none (f := fun x : Cursor × Option Cursor => g x.1) (hg r hkind),
      ih (ne_of_length_le hid)]

/-- Below an entity only the members and parameters count. -/
theorem filterMap_descendants_of_mem {x : Nat × Entity} (hx : x ∈ entityIds 0 es) {c : Cursor}
    (hc : c.id = x.1) (depth : Nat) :
    (u.descendants (depth + 1) c).filterMap (fun y => g y.1) =
      ((numberBelow x.1 (x.1 + 1) x.2.below).map (·.cursor)).filterMap g := by
  obtain ⟨refs, hrefs, hchildren⟩ := h.children_of_mem hx hc
  -- a child is a member, a parameter or a reference, and none of them is an entity
  have hchild : ∀ d ∈ u.children c, ∀ y ∈ entityIds 0 es, y.1 ≠ d.id := by
    intro d hd
    rw [hchildren] at hd
    rcases List.mem_append.1 hd with hd | hd
    · obtain ⟨draft, hdraft, rfl⟩ := List.mem_map.1 hd
      exact ne_of_mem_numberBelow hx hdraft
    · exact ne_of_length_le (hrefs d hd).2
  have hnone : refs.filterMap g = [] :=
    List.filterMap_eq_nil_iff.2 fun r hr => hg r (hrefs r hr).1
  calc (u.descendants (depth + 1) c).filterMap (fun y => g y.1)
      = (u.children c).flatMap fun d => (g d).toList := by
        rw [CompilationUnit.descendants, List.filterMap_flatMap]
        refine List.flatMap_congr fun d hd => ?_
        rw [List.filterMap_cons, h.filterMap_descendants hg (hchild d hd)]
        cases g d <;> rfl
    _ = (u.children c).filterMap g := (List.filterMap_eq_flatMap_toList g _).symm
    _ = _ := by rw [hchildren, List.filterMap_append, hnone, List.append_nil]

/-- What is collected from the whole tree comes from the entities and from what they have below
them, in order. -/
theorem filterMap_preorder :
    u.preorder.filterMap (fun x => g x.1) = (entityIds 0 es).flatMap fun x =>
      (g (x.2.top.draft x.1 none).cursor).toList ++
        ((numberBelow x.1 (x.1 + 1) x.2.below).map (·.cursor)).filterMap g := by
  rw [u.preorder_eq, h.topLevel_eq, List.flatMap_map, List.filterMap_flatMap]
  refine List.flatMap_congr fun x hx => ?_
  -- there is an entity, so the visit goes down at least once
  obtain ⟨depth, hdepth⟩ : ∃ depth, u.nodes.length = depth + 1 := by
    have hlt := (lt_of_mem_entityIds hx).2
    refine Nat.exists_eq_add_one_of_ne_zero ?_
    rw [h, List.length_map, draftsOf_eq, List.length_append]
    omega
  rw [List.filterMap_cons, hdepth, h.filterMap_descendants_of_mem hg hx rfl]
  cases g (x.2.top.draft x.1 none).cursor <;> rfl

end Model.HasEntities

/-! ## Symbols -/

/-- The extent of a body, in the sketch's coordinates. -/
def CoordinateMap.bodyRange? (m : CoordinateMap) (body : Cursor) : Option BodyRange := do
  let start ← m.toEdited body.location
  let stop ← m.toEdited body.extentEnd
  return ⟨start.line, start.column, stop.line, stop.column⟩

/-- The symbol of a cursor that has a body, if it declares a name in the sketch's coordinates. -/
def Cursor.symbolIn (m : CoordinateMap) (body : Option Cursor) (c : Cursor) : Option Symbol :=
  match SymbolKind.ofCursor? c.kind with
  | none => none
  | some kind =>
    if c.spelling = "" ∨ c.location.isUnknown then none
    else (m.toEdited c.location).map fun location =>
      { name := c.spelling
        displayName := CachedUnit.shownName kind c
        location
        kind
        parameters := if kind.isFunctionLike then c.parameters else []
        body := if kind.isFunctionLike then body.bind m.bodyRange? else none
        usr := c.usr }

theorem CachedUnit.symbol?_eq (e : CachedUnit) (c : Cursor) :
    e.symbol? c = c.symbolIn e.map (e.unit.bodyOf? c) := rfl

namespace Model

/-- The cursor is a body that lies in a file. -/
def isBodyIn (file : FilePath) (b : Cursor) : Bool :=
  b.kind = .compound && b.location.file == file && b.extentEnd.file == file

/-- The body of the function that an entity is, if it is in the file of its name. -/
def Entity.body? (e : Entity) : Option Cursor :=
  if e.top.cursor.kind.isFunctionLike then
    (e.below.map (·.cursor)).find? (isBodyIn e.top.cursor.location.file)
  else none

/-- The symbols of an entity: its own and those below it. -/
def Entity.symbols (m : CoordinateMap) (e : Entity) : List Symbol :=
  (e.top.cursor.symbolIn m e.body?).toList ++ e.below.filterMap fun n => n.cursor.symbolIn m none

/-- Numbers do not show in symbols. -/
theorem symbolIn_bare (m : CoordinateMap) {body body' : Option Cursor}
    (h : body.map bare = body'.map bare) {c c' : Cursor} (hc : bare c = bare c') :
    c.symbolIn m body = c'.symbolIn m body' := by
  have hbody (b : Option Cursor) : b.bind m.bodyRange? = (b.map bare).bind m.bodyRange? := by
    cases b <;> rfl
  have hcursor (c : Cursor) (b : Option Cursor) :
      c.symbolIn m b = (bare c).symbolIn m (b.map bare) := by
    unfold Cursor.symbolIn
    rw [hbody b]
    rfl
  rw [hcursor c, hcursor c', h, hc]

theorem map_bare_numberBelow (parent id : Nat) (ns : List Named) :
    ((numberBelow parent id ns).map (·.cursor)).map bare = (ns.map (·.cursor)).map bare := by
  induction ns generalizing id with
  | nil => rfl
  | cons n ns ih =>
    simp only [numberBelow, List.map_cons] at ih ⊢
    rw [ih]
    rfl

theorem map_bare_find? {q : Cursor → Bool} (hq : Unnumbered q) (cs : List Cursor) :
    (cs.find? q).map bare = (cs.map bare).find? q := by
  rw [List.find?_map]
  have hsame : q ∘ bare = q := funext fun c => hq _ _ rfl
  rw [hsame]

theorem unnumbered_isBodyIn (file : FilePath) : Unnumbered (isBodyIn file) := by
  intro c d hcd
  show isBodyIn file (bare c) = isBodyIn file (bare d)
  rw [hcd]

/-- No reference is a body. -/
theorem find?_isBodyIn {cs : List Cursor} (h : ∀ c ∈ cs, c.kind.isReference = true)
    (file : FilePath) : cs.find? (isBodyIn file) = none := by
  rw [List.find?_eq_none]
  intro c hc
  have hkind := h c hc
  have hne : c.kind ≠ .compound := by
    intro heq
    rw [heq] at hkind
    cases hkind
  simp [isBodyIn, hne]

namespace HasEntities

variable {e : CachedUnit} {es : List Entity} (h : HasEntities e.unit es)

include h

/-- The body that is found for the node of an entity is that of the entity. -/
theorem bodyOf?_bare {x : Nat × Entity} (hx : x ∈ entityIds 0 es) :
    (e.unit.bodyOf? (x.2.top.draft x.1 none).cursor).map bare = x.2.body?.map bare := by
  obtain ⟨refs, hrefs, hchildren⟩ := h.children_of_mem hx
    (c := (x.2.top.draft x.1 none).cursor) rfl
  have hq := unnumbered_isBodyIn x.2.top.cursor.location.file
  show Option.map bare (if x.2.top.cursor.kind.isFunctionLike then
    (e.unit.children _).find? (isBodyIn x.2.top.cursor.location.file) else none) = _
  unfold Entity.body?
  split
  · rw [hchildren, List.find?_append, find?_isBodyIn fun r hr => (hrefs r hr).1, Option.or_none,
      map_bare_find? hq, map_bare_find? hq, map_bare_numberBelow]
  · rfl

/-- A node below an entity has no body. -/
theorem bodyOf?_numberBelow {x : Nat × Entity} (hx : x ∈ entityIds 0 es) {d : Draft}
    (hd : d ∈ numberBelow x.1 (x.1 + 1) x.2.below) : e.unit.bodyOf? d.cursor = none := by
  have hrefs := h.children_of_not_mem (ne_of_mem_numberBelow hx hd)
  unfold CompilationUnit.bodyOf?
  split
  · exact find?_isBodyIn (fun r hr => (hrefs r hr).1) d.cursor.location.file
  · rfl

/-- A unit lists the symbols of its entities. -/
theorem symbols_eq : e.symbols = sortBy Symbol.compare (es.flatMap (Entity.symbols e.map)) := by
  have hrefs : ∀ c : Cursor, c.kind.isReference = true → e.symbol? c = none := by
    intro c hc
    have hnone : SymbolKind.ofCursor? c.kind = none := by
      cases hkind : c.kind <;> rw [hkind] at hc <;> first | rfl | cases hc
    unfold CachedUnit.symbol?
    rw [hnone]
  have hall := h.filterMap_preorder hrefs
  have hes : es.flatMap (Entity.symbols e.map) =
      (entityIds 0 es).flatMap fun x => x.2.symbols e.map := by
    conv_lhs => rw [← map_snd_entityIds 0 es]
    rw [List.flatMap_map]
  unfold CachedUnit.symbols
  rw [hes]
  refine congrArg _ (hall.trans (List.flatMap_congr fun x hx => ?_))
  unfold Entity.symbols
  refine congrArg₂ _ (congrArg _ ?_) ?_
  · rw [e.symbol?_eq]
    exact symbolIn_bare e.map (h.bodyOf?_bare hx) rfl
  · have hbelow : ((numberBelow x.1 (x.1 + 1) x.2.below).map (·.cursor)).filterMap e.symbol? =
        (((numberBelow x.1 (x.1 + 1) x.2.below).map (·.cursor)).map bare).filterMap
          (Cursor.symbolIn e.map none) := by
      rw [List.filterMap_map, List.filterMap_map, List.filterMap_map]
      refine List.filterMap_congr fun d hd => ?_
      show e.symbol? d.cursor = (bare d.cursor).symbolIn e.map none
      rw [e.symbol?_eq, h.bodyOf?_numberBelow hx hd]
      exact symbolIn_bare e.map rfl rfl
    rw [hbelow, map_bare_numberBelow, List.filterMap_map, List.filterMap_map]
    exact List.filterMap_congr fun n _ => symbolIn_bare e.map rfl rfl

end HasEntities

end Model

end SketchSense
