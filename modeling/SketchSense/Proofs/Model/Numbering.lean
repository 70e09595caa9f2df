import SketchSense.Model.Build

/-!
# Numbers of nodes

Every node stands at the position that is its number, so links lead where they should. What a search
among declared nodes finds can be looked for among the entities, numbers aside.

* `Numbered`, nodes that stand at their numbers, with `numbered_draftsOf`;
* `entityIds`, the numbers of the top-level nodes, with `topLevel_eq` and `children_eq`;
* `Cursor.bare`, a cursor without its number, with `topLevel_bare` and `find?_numberAll`;
* `mem_numberAll` and `mem_referenceDrafts`, where the nodes of a unit come from;
* `HasEntities`, a unit that was built, with `node?_eq`, the node of a cursor.
-/

namespace SketchSense.Model

/-! ## Positions -/

/-- Nodes that are numbered one after the other from `id` on. -/
def Numbered (id : Nat) (ds : List Draft) : Prop :=
  ∀ i d, ds[i]? = some d → d.cursor.id = id + i

theorem numbered_nil (id : Nat) : Numbered id [] := by
  intro i d h
  simp at h

theorem numbered_cons {id : Nat} {d : Draft} {ds : List Draft} (hd : d.cursor.id = id)
    (h : Numbered (id + 1) ds) : Numbered id (d :: ds) := by
  intro i e he
  cases i with
  | zero =>
    cases he
    exact hd
  | succ i =>
    rw [h i e he]
    omega

theorem Numbered.append {id : Nat} {ds es : List Draft} (h : Numbered id ds)
    (h' : Numbered (id + ds.length) es) : Numbered id (ds ++ es) := by
  intro i d hd
  by_cases hi : i < ds.length
  · exact h i d (by rwa [List.getElem?_append_left hi] at hd)
  · rw [List.getElem?_append_right (Nat.le_of_not_lt hi)] at hd
    rw [h' _ d hd]
    omega

theorem numbered_numberBelow (parent id : Nat) (ns : List Named) :
    Numbered id (numberBelow parent id ns) := by
  induction ns generalizing id with
  | nil => exact numbered_nil id
  | cons n ns ih => exact numbered_cons rfl (ih (id + 1))

theorem numbered_numberAll (id : Nat) (es : List Entity) : Numbered id (numberAll id es) := by
  induction es generalizing id with
  | nil => exact numbered_nil id
  | cons e es ih =>
    refine Numbered.append (numbered_cons rfl (numbered_numberBelow id (id + 1) e.below)) ?_
    rw [length_drafts]
    exact ih (id + e.size)

theorem numbered_renumber (id : Nat) (ds : List Draft) : Numbered id (renumber id ds) := by
  induction ds generalizing id with
  | nil => exact numbered_nil id
  | cons d ds ih => exact numbered_cons rfl (ih (id + 1))

/-- The nodes of a unit stand at their numbers. -/
theorem numbered_draftsOf (es : List Entity) : Numbered 0 (draftsOf es) := by
  refine (numbered_numberAll 0 es).append ?_
  rw [Nat.zero_add]
  exact numbered_renumber _ _

/-! ## Numbers of entities -/

/-- Entities with the numbers of their top-level nodes. -/
def entityIds (id : Nat) : List Entity → List (Nat × Entity)
  | [] => []
  | e :: es => (id, e) :: entityIds (id + e.size) es

theorem map_snd_entityIds (id : Nat) (es : List Entity) : (entityIds id es).map (·.2) = es := by
  induction es generalizing id with
  | nil => rfl
  | cons e es ih => rw [entityIds, List.map_cons, ih]

theorem length_numberAll_cons (id : Nat) (e : Entity) (es : List Entity) :
    (numberAll id (e :: es)).length = e.size + (numberAll (id + e.size) es).length := by
  rw [numberAll, List.length_append, length_drafts]

theorem lt_of_mem_entityIds {id : Nat} {es : List Entity} {x : Nat × Entity}
    (h : x ∈ entityIds id es) :
    id ≤ x.1 ∧ x.1 + x.2.below.length < id + (numberAll id es).length := by
  induction es generalizing id with
  | nil => simp [entityIds] at h
  | cons e es ih =>
    rw [length_numberAll_cons]
    rcases List.mem_cons.1 h with rfl | h
    · simp only [Entity.size]
      omega
    · obtain ⟨hle, hlt⟩ := ih h
      have hsize : 1 ≤ e.size := Nat.le_add_right 1 _
      omega

/-- The nodes below an entity have numbers of their own. -/
theorem pairwise_entityIds (id : Nat) (es : List Entity) :
    (entityIds id es).Pairwise fun x y => x.1 + x.2.below.length < y.1 := by
  induction es generalizing id with
  | nil => exact .nil
  | cons e es ih =>
    refine List.pairwise_cons.2 ⟨fun y hy => ?_, ih _⟩
    have hle := (lt_of_mem_entityIds hy).1
    simp only [Entity.size] at hle ⊢
    omega

/-- Only one entity has a given number. -/
theorem flatMap_entityIds {β : Type} {id : Nat} {es : List Entity} {x : Nat × Entity}
    (hx : x ∈ entityIds id es) (g : Nat × Entity → List β) :
    ((entityIds id es).flatMap fun y => if y.1 = x.1 then g y else []) = g x := by
  have hpairs := pairwise_entityIds id es
  generalize entityIds id es = xs at hx hpairs
  induction xs with
  | nil => simp at hx
  | cons y ys ih =>
    obtain ⟨hlt, hrest⟩ := List.pairwise_cons.1 hpairs
    rw [List.flatMap_cons]
    rcases List.mem_cons.1 hx with rfl | hx
    · have hnone : (ys.flatMap fun y => if y.1 = x.1 then g y else []) = [] := by
        rw [List.flatMap_eq_nil_iff]
        intro y hy
        have hne := hlt y hy
        rw [if_neg (by omega)]
      rw [if_pos rfl, hnone, List.append_nil]
    · have hne := hlt x hx
      rw [if_neg (by omega), List.nil_append, ih hx hrest]

theorem filter_numberBelow (parent id : Nat) (ns : List Named) (p : Option Nat) :
    (numberBelow parent id ns).filter (fun d => d.parent = p) =
      if some parent = p then numberBelow parent id ns else [] := by
  induction ns generalizing id with
  | nil => simp [numberBelow]
  | cons n ns ih =>
    rw [numberBelow, List.filter_cons, ih]
    by_cases hp : some parent = p <;> simp [hp, Named.draft]

/-- The declared nodes without a parent are those of the entities. -/
theorem filter_numberAll_none (id : Nat) (es : List Entity) :
    (numberAll id es).filter (fun d => d.parent = none) =
      (entityIds id es).map fun x => x.2.top.draft x.1 none := by
  induction es generalizing id with
  | nil => rfl
  | cons e es ih =>
    rw [numberAll, List.filter_append, ih, Entity.drafts, List.filter_cons_of_pos rfl,
      filter_numberBelow, if_neg (by simp)]
    rfl

/-- The declared nodes below a node are those of the entity with its number. -/
theorem filter_numberAll_some (id : Nat) (es : List Entity) (parent : Nat) :
    (numberAll id es).filter (fun d => d.parent = some parent) =
      (entityIds id es).flatMap fun x =>
        if x.1 = parent then numberBelow x.1 (x.1 + 1) x.2.below else [] := by
  induction es generalizing id with
  | nil => rfl
  | cons e es ih =>
    rw [numberAll, List.filter_append, ih, Entity.drafts,
      List.filter_cons_of_neg (by simp [Named.draft]), filter_numberBelow, entityIds,
      List.flatMap_cons]
    simp

/-! ## Numbers aside -/

/-- A cursor without its number. -/
def bare (c : Cursor) : Cursor := { c with id := 0 }

@[simp] theorem bare_draft (n : Named) (id : Nat) (parent : Option Nat) :
    bare (n.draft id parent).cursor = bare n.cursor := rfl

/-- A test that does not look at numbers. -/
def Unnumbered (q : Cursor → Bool) : Prop := ∀ c d, bare c = bare d → q c = q d

theorem numberAll_append (id : Nat) (es fs : List Entity) :
    numberAll id (es ++ fs) =
      numberAll id es ++ numberAll (id + (numberAll id es).length) fs := by
  induction es generalizing id with
  | nil => rfl
  | cons e es ih =>
    rw [List.cons_append, numberAll, ih, numberAll, List.length_append, length_drafts,
      List.append_assoc, Nat.add_assoc]

theorem usesOf_append (id : Nat) (es fs : List Entity) :
    usesOf id (es ++ fs) = usesOf id es ++ usesOf (id + (numberAll id es).length) fs := by
  induction es generalizing id with
  | nil => rfl
  | cons e es ih =>
    rw [List.cons_append, usesOf, ih, usesOf, numberAll, List.length_append, length_drafts,
      List.append_assoc, Nat.add_assoc]

/-- Where the declared nodes come from. -/
theorem mem_numberAll {id : Nat} {es : List Entity} {d : Draft} (h : d ∈ numberAll id es) :
    ∃ e ∈ es, ∃ n ∈ e.top :: e.below, ∃ i p, d = n.draft i p := by
  induction es generalizing id with
  | nil => simp [numberAll] at h
  | cons e es ih =>
    rcases List.mem_append.1 h with h | h
    · rcases List.mem_cons.1 h with rfl | h
      · exact ⟨e, List.mem_cons_self, e.top, List.mem_cons_self, _, _, rfl⟩
      · have hbelow : ∀ (i : Nat) (ns : List Named), d ∈ numberBelow id i ns →
            ∃ n ∈ ns, ∃ i p, d = n.draft i p := by
          intro i ns
          induction ns generalizing i with
          | nil => simp [numberBelow]
          | cons n ns ihns =>
            intro hd
            rcases List.mem_cons.1 hd with rfl | hd
            · exact ⟨n, List.mem_cons_self, _, _, rfl⟩
            · obtain ⟨m, hm, hdm⟩ := ihns (i + 1) hd
              exact ⟨m, List.mem_cons_of_mem _ hm, hdm⟩
        obtain ⟨n, hn, hd⟩ := hbelow _ _ h
        exact ⟨e, List.mem_cons_self, n, List.mem_cons_of_mem _ hn, hd⟩
    · obtain ⟨f, hf, hd⟩ := ih h
      exact ⟨f, List.mem_cons_of_mem _ hf, hd⟩

/-- What a search among declared nodes refers to is one of them. -/
theorem exists_draft_of_draft? {declared : List Draft} {u : Use} {d : Draft}
    (h : u.draft? declared = some d) :
    ∃ name target, u.token.word? = some name ∧ target? declared name = some target ∧
      d.cursor.usr = target.usr ∧ d.target = some target.id ∧
      d.cursor.location = u.token.location u.file ∧ d.nameLength = u.token.length ∧
      d.cursor.kind.isSymbol = false ∧ d.parent = some u.owner := by
  unfold Use.draft? at h
  obtain ⟨name, hname, h⟩ := Option.bind_eq_some_iff.1 h
  obtain ⟨target, htarget, h⟩ := Option.bind_eq_some_iff.1 h
  cases h
  refine ⟨name, target, hname, htarget, rfl, rfl, rfl, rfl, ?_, rfl⟩
  dsimp only
  split <;> rfl

theorem mem_renumber {id : Nat} {ds : List Draft} {d : Draft} (h : d ∈ renumber id ds) :
    ∃ d' ∈ ds, ∃ i, d = { d' with cursor := { d'.cursor with id := i } } := by
  induction ds generalizing id with
  | nil => simp [renumber] at h
  | cons e ds ih =>
    rcases List.mem_cons.1 h with rfl | h
    · exact ⟨e, List.mem_cons_self, _, rfl⟩
    · obtain ⟨d', hd', hd⟩ := ih h
      exact ⟨d', List.mem_cons_of_mem _ hd', hd⟩

/-- The nodes of a unit that refer to entities. -/
def referenceDrafts (es : List Entity) : List Draft :=
  renumber (numberAll 0 es).length ((usesOf 0 es).filterMap (Use.draft? (numberAll 0 es)))

theorem draftsOf_eq (es : List Entity) : draftsOf es = numberAll 0 es ++ referenceDrafts es := rfl

/-- A node that refers to an entity has a number behind all declared nodes, and is below a node. -/
theorem mem_referenceDrafts {es : List Entity} {d : Draft} (h : d ∈ referenceDrafts es) :
    d.cursor.kind.isReference = true ∧ (numberAll 0 es).length ≤ d.cursor.id ∧ d.parent ≠ none := by
  obtain ⟨i, hi, hget⟩ := List.getElem_of_mem h
  have hid := numbered_renumber _ _ i d (by rw [← hget]; exact List.getElem?_eq_getElem hi)
  obtain ⟨d', hd', j, hd⟩ := mem_renumber h
  obtain ⟨use, -, huse⟩ := List.mem_filterMap.1 hd'
  refine ⟨?_, hid ▸ Nat.le_add_right _ _, ?_⟩
  · rw [hd]
    unfold Use.draft? at huse
    obtain ⟨name, -, huse⟩ := Option.bind_eq_some_iff.1 huse
    obtain ⟨target, -, huse⟩ := Option.bind_eq_some_iff.1 huse
    cases huse
    dsimp only
    split <;> rfl
  · obtain ⟨_, _, -, -, -, -, -, -, -, hparent⟩ := exists_draft_of_draft? huse
    rw [hd, hparent]
    simp

theorem mem_usesOf {id : Nat} {es : List Entity} {u : Use} (h : u ∈ usesOf id es) :
    ∃ e ∈ es, u.token ∈ e.uses ∧ u.file = e.top.cursor.location.file := by
  induction es generalizing id with
  | nil => simp [usesOf] at h
  | cons e es ih =>
    rcases List.mem_append.1 h with h | h
    · obtain ⟨t, ht, rfl⟩ := List.mem_map.1 h
      exact ⟨e, List.mem_cons_self, ht, rfl⟩
    · obtain ⟨f, hf, hu⟩ := ih h
      exact ⟨f, List.mem_cons_of_mem _ hf, hu⟩

/-- The nodes of a unit are those of the entities. -/
def HasEntities (u : CompilationUnit) (es : List Entity) : Prop :=
  u.nodes = (draftsOf es).map (link ((draftsOf es).map (·.cursor)))

/-- With the main file last there are the same texts. -/
theorem mem_mainLast {main : FilePath} {unsaved : List FileBuffer} {t : FileBuffer} :
    t ∈ mainLast main unsaved ↔ t ∈ unsaved := by
  unfold mainLast
  rw [List.mem_append, List.mem_filter, List.mem_filter]
  cases t.path == main <;> simp

theorem buildUnit_eq_ok {main : FilePath} {unsaved : List FileBuffer} {u : CompilationUnit} :
    buildUnit main unsaved = .ok u ↔
      ∃ files, (mainLast main unsaved).mapM FileModel.ofBuffer = .ok files ∧
        u = ⟨main, (draftsOf (files.flatMap (·.entities))).map
            (link ((draftsOf (files.flatMap (·.entities))).map (·.cursor))),
          files.flatMap (·.diagnostics),
          (((draftsOf (files.flatMap (·.entities))).map (·.cursor)).filter isTarget).map
            candidate⟩ := by
  unfold buildUnit
  cases (mainLast main unsaved).mapM FileModel.ofBuffer with
  | error e =>
    constructor
    · intro h
      cases h
    · rintro ⟨files, h, -⟩
      cases h
  | ok files =>
    constructor
    · intro h
      cases h
      exact ⟨files, rfl, rfl⟩
    · rintro ⟨files', h, rfl⟩
      cases h
      rfl

/-- Files that can be read make a unit of their entities. -/
theorem exists_buildUnit {main : FilePath} {unsaved : List FileBuffer} {files : List FileModel}
    (h : (mainLast main unsaved).mapM FileModel.ofBuffer = .ok files) :
    ∃ u, buildUnit main unsaved = .ok u ∧ HasEntities u (files.flatMap (·.entities)) :=
  ⟨_, buildUnit_eq_ok.2 ⟨files, h, rfl⟩, rfl⟩

namespace HasEntities

variable {u : CompilationUnit} {es : List Entity} (h : HasEntities u es)

include h

theorem mem_nodes {n : Node} :
    n ∈ u.nodes ↔ ∃ d ∈ draftsOf es, n = link ((draftsOf es).map (·.cursor)) d := by
  rw [h]
  simp [eq_comm]

/-- A link leads to the node at that position. -/
theorem cursorAtIndex?_eq {d : Draft} (hd : d ∈ draftsOf es) :
    u.cursorAtIndex? d.cursor.id = some d.cursor := by
  obtain ⟨i, hi, rfl⟩ := List.getElem_of_mem hd
  have hid := numbered_draftsOf es i _ (List.getElem?_eq_getElem hi)
  rw [Nat.zero_add] at hid
  unfold CompilationUnit.cursorAtIndex?
  rw [h, hid, List.getElem?_map, List.getElem?_eq_getElem hi]
  rfl

theorem node?_eq {d : Draft} (hd : d ∈ draftsOf es) :
    u.node? d.cursor = some (link ((draftsOf es).map (·.cursor)) d) := by
  obtain ⟨i, hi, rfl⟩ := List.getElem_of_mem hd
  have hid := numbered_draftsOf es i _ (List.getElem?_eq_getElem hi)
  rw [Nat.zero_add] at hid
  unfold CompilationUnit.node?
  rw [h, hid, List.getElem?_map, List.getElem?_eq_getElem hi]
  simp [link, hid]

/-- The top-level cursors are those of the entities, at their numbers. -/
theorem topLevel_eq : u.topLevel = (entityIds 0 es).map fun x => (x.2.top.draft x.1 none).cursor := by
  have hrefs : (referenceDrafts es).filter (fun d => d.parent = none) = [] := by
    rw [List.filter_eq_nil_iff]
    intro d hd
    simp [(mem_referenceDrafts hd).2.2]
  unfold CompilationUnit.topLevel
  rw [h, List.filter_map, List.map_map, draftsOf_eq]
  show ((numberAll 0 es ++ _).filter fun d => d.parent = none).map (·.cursor) = _
  rw [List.filter_append, hrefs, List.append_nil, filter_numberAll_none, List.map_map]
  rfl

/-- The children of a node are the cursors below the entity of that number, if it is one, and then
references. -/
theorem children_eq (c : Cursor) :
    ∃ refs : List Cursor,
      (∀ r ∈ refs, r.kind.isReference = true ∧ (numberAll 0 es).length ≤ r.id) ∧
      u.children c = ((entityIds 0 es).flatMap fun x =>
        if x.1 = c.id then numberBelow x.1 (x.1 + 1) x.2.below else []).map (·.cursor) ++ refs := by
  refine ⟨((referenceDrafts es).filter fun d => d.parent = some c.id).map (·.cursor), ?_, ?_⟩
  · intro r hr
    obtain ⟨d, hd, rfl⟩ := List.mem_map.1 hr
    have hmem := mem_referenceDrafts (List.mem_filter.1 hd).1
    exact ⟨hmem.1, hmem.2.1⟩
  · unfold CompilationUnit.children
    rw [h, List.filter_map, List.map_map, draftsOf_eq]
    show ((numberAll 0 es ++ _).filter fun d => d.parent = some c.id).map (·.cursor) = _
    rw [List.filter_append, List.map_append, filter_numberAll_some]

/-- The top-level cursors are those of the entities, in order. -/
theorem topLevel_bare : u.topLevel.map bare = es.map fun e => bare e.top.cursor := by
  have hes : es.map (fun e => bare e.top.cursor) =
      ((entityIds 0 es).map (·.2)).map fun e => bare e.top.cursor := by rw [map_snd_entityIds]
  rw [h.topLevel_eq, hes, List.map_map, List.map_map]
  rfl

end HasEntities

end SketchSense.Model
