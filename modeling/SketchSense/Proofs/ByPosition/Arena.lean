import Mathlib
import SketchSense.Proofs.ByPosition.Operations
import SketchSense.Proofs.Cursor.Walk
import SketchSense.Proofs.Model.Linking

/-!
# Nodes with lists of children

A table of nodes can also keep, for every node, the positions of its children, and for the unit those
of the nodes at the top. Nodes are then added one by one, each at the end of one of these lists, and
what is found through the lists is what the parents say.

* `Arena`, with `push` and `refer`, and `Arena.add`, the node of a draft;
* `Arena.of`, the table of some drafts at once, with `add_of` and `foldlM_add`;
* `Arena.WellFormed`, with `wellFormed_of`;
* `Arena.topLevel`, `Arena.children` and `Arena.referenced`, looked up by position;
* `visits_every_node_once`, the arena of a unit and the visits of its nodes.
-/

namespace SketchSense.Model.ByPosition

/-! ## The table -/

/-- A node with its children and what it refers to. -/
structure Slot where
  cursor : Cursor
  children : List Nat := []
  referenced : Option Nat := none
  nameLength : Nat

/-- A table of nodes, and the positions of those at the top. -/
structure Arena where
  slots : List Slot := []
  top : List Nat := []

namespace Arena

/-- Adds a node with the next number, at the top or to the children of another one. -/
def push (a : Arena) (cursor : Cursor) (nameLength : Nat) (parent : Option Nat) : Checked Arena :=
  let id := a.slots.length
  let slots := a.slots ++ [{ cursor := { cursor with id }, nameLength }]
  match parent with
  | none => return ⟨slots, a.top ++ [id]⟩
  | some p => do
    let owner ← entryAt slots p
    return ⟨slots.set p { owner with children := owner.children ++ [id] }, a.top⟩

/-- Sets what the node at a position refers to. -/
def refer (a : Arena) (i target : Nat) : Checked Arena := do
  let slot ← entryAt a.slots i
  return { a with slots := a.slots.set i { slot with referenced := some target } }

/-- Adds the node of a draft, and then sets what it refers to. -/
def add (a : Arena) (d : Draft) : Checked Arena := do
  let a' ← a.push d.cursor d.nameLength d.parent
  match d.target with
  | none => return a'
  | some target => a'.refer a.slots.length target

/-- Drafts that stand at their numbers and come behind their parents, to which they can be added. -/
structure Ordered (ds : List Draft) : Prop where
  numbered : Numbered 0 ds
  parent_lt : ∀ d ∈ ds, ∀ p, d.parent = some p → p < d.cursor.id

/-- The positions of the drafts that have a parent, or none. -/
def positions (ds : List Draft) (parent : Option Nat) : List Nat :=
  (ds.filter (·.parent = parent)).map (·.cursor.id)

/-- The node of a draft among others. -/
def slotOf (ds : List Draft) (d : Draft) : Slot :=
  ⟨d.cursor, positions ds (some d.cursor.id), d.target, d.nameLength⟩

/-- The table of some drafts. -/
def of (ds : List Draft) : Arena := ⟨ds.map (slotOf ds), positions ds none⟩

section Steps

variable {ds : List Draft} {d : Draft}

theorem positions_append (ds : List Draft) (d : Draft) (parent : Option Nat) :
    positions (ds ++ [d]) parent =
      positions ds parent ++ if d.parent = parent then [d.cursor.id] else [] := by
  unfold positions
  rw [List.filter_append, List.map_append]
  split <;> simp_all

theorem Ordered.left {es : List Draft} (h : Ordered (ds ++ es)) : Ordered ds where
  numbered i e he := h.numbered i e (by
    rw [List.getElem?_append_left (List.getElem?_eq_some_iff.1 he).1, he])
  parent_lt e he := h.parent_lt e (List.mem_append_left _ he)

theorem Ordered.id_eq (h : Ordered ds) {i : Nat} (hd : ds[i]? = some d) : d.cursor.id = i := by
  rw [h.numbered i d hd, Nat.zero_add]

theorem Ordered.id_getElem (h : Ordered ds) {i : Nat} (hi : i < ds.length) :
    ds[i].cursor.id = i := h.id_eq (List.getElem?_eq_getElem hi)

theorem Ordered.id_last (h : Ordered (ds ++ [d])) : d.cursor.id = ds.length :=
  h.id_eq (by simp)

theorem Ordered.getElem?_id (h : Ordered ds) (hd : d ∈ ds) : ds[d.cursor.id]? = some d := by
  obtain ⟨i, hi⟩ := List.getElem?_of_mem hd
  rwa [h.id_eq hi]

theorem Ordered.id_lt (h : Ordered ds) (hd : d ∈ ds) : d.cursor.id < ds.length :=
  (List.getElem?_eq_some_iff.1 (h.getElem?_id hd)).1

/-- No draft has a parent behind itself. -/
theorem Ordered.positions_eq_nil (h : Ordered ds) {p : Nat} (hp : ds.length ≤ p) :
    positions ds (some p) = [] := by
  unfold positions
  rw [List.map_eq_nil_iff, List.filter_eq_nil_iff]
  intro e he hparent
  have hlt := h.parent_lt e he p (of_decide_eq_true hparent)
  have hlength := h.id_lt he
  omega

/-- The node of a draft before another one has one more child if it is the parent of that one. -/
theorem slotOf_append (e : Draft) : slotOf (ds ++ [d]) e =
    { slotOf ds e with children := positions ds (some e.cursor.id) ++
        if d.parent = some e.cursor.id then [d.cursor.id] else [] } := by
  unfold slotOf
  rw [positions_append]

/-- The last of some drafts has no children yet. -/
theorem slotOf_last (h : Ordered (ds ++ [d])) :
    slotOf (ds ++ [d]) d = ⟨d.cursor, [], d.target, d.nameLength⟩ := by
  have hne : d.parent ≠ some d.cursor.id := fun heq =>
    Nat.lt_irrefl _ (h.parent_lt d (List.mem_append_right _ (List.mem_singleton_self d)) _ heq)
  rw [slotOf_append, if_neg hne, h.left.positions_eq_nil (Nat.le_of_eq h.id_last.symm)]
  rfl

/-- Adding the next node puts it at the top or below its parent, without a misstep. -/
theorem push_of (h : Ordered (ds ++ [d])) :
    (of ds).push d.cursor d.nameLength d.parent =
      .ok ⟨ds.map (slotOf (ds ++ [d])) ++ [⟨d.cursor, [], none, d.nameLength⟩],
        positions (ds ++ [d]) none⟩ := by
  have hlength : (ds.map (slotOf ds)).length = d.cursor.id := by
    rw [List.length_map, h.id_last]
  unfold push of
  dsimp only
  rw [hlength]
  cases hparent : d.parent with
  | none =>
    have hslots : ds.map (slotOf (ds ++ [d])) = ds.map (slotOf ds) := by
      refine List.map_congr_left fun e _ => ?_
      rw [slotOf_append, hparent, if_neg nofun, List.append_nil]
      rfl
    dsimp only
    rw [hslots, positions_append, if_pos hparent]
    rfl
  | some p =>
    have hp : p < ds.length := by
      rw [← h.id_last]
      exact h.parent_lt d (List.mem_append_right _ (List.mem_singleton_self d)) p hparent
    have hid {i : Nat} (hi : i < ds.length) : ds[i].cursor.id = i := h.left.id_getElem hi
    have howner : entryAt (ds.map (slotOf ds) ++ [⟨d.cursor, [], none, d.nameLength⟩]) p =
        .ok (slotOf ds ds[p]) := by
      unfold entryAt
      rw [List.getElem?_append_left (by rwa [List.length_map]), List.getElem?_map,
        List.getElem?_eq_getElem hp]
      rfl
    -- only the parent has one more child
    have hslots : (ds.map (slotOf ds)).set p { slotOf ds ds[p] with
          children := positions ds (some p) ++ [d.cursor.id] } = ds.map (slotOf (ds ++ [d])) := by
      refine List.ext_getElem (by simp) fun i hi hi' => ?_
      rw [List.length_map] at hi'
      rw [List.getElem_set, List.getElem_map, List.getElem_map, slotOf_append, hid hi', hparent]
      by_cases heq : p = i
      · subst heq
        rw [if_pos rfl, if_pos rfl]
      · rw [if_neg heq, if_neg fun h => heq (Option.some.inj h), List.append_nil]
        unfold slotOf
        rw [hid hi']
    dsimp only
    rw [howner, ok_bind, List.set_append_left _ _ (by rwa [List.length_map])]
    have hchildren : (slotOf ds ds[p]).children = positions ds (some p) := by
      unfold slotOf
      rw [hid hp]
    rw [hchildren, hslots, positions_append, if_neg (by rw [hparent]; exact nofun), List.append_nil]
    rfl

/-- Adding the node of the next draft gives the table with that draft, without a misstep. -/
theorem add_of (h : Ordered (ds ++ [d])) : (of ds).add d = .ok (of (ds ++ [d])) := by
  have hlength : (of ds).slots.length = (ds.map (slotOf (ds ++ [d]))).length := by
    unfold of
    rw [List.length_map, List.length_map]
  have hslots : (of (ds ++ [d])).slots = ds.map (slotOf (ds ++ [d])) ++
      [⟨d.cursor, [], d.target, d.nameLength⟩] := by
    unfold of
    rw [List.map_append, List.map_singleton, slotOf_last h]
  unfold add
  rw [push_of h, ok_bind]
  cases htarget : d.target with
  | none =>
    rw [htarget] at hslots
    show Except.ok _ = _
    rw [← hslots]
    rfl
  | some target =>
    rw [htarget] at hslots
    unfold refer
    dsimp only
    rw [entryAt_eq rfl hlength, ok_bind, hlength, List.set_append_right _ _ (Nat.le_refl _),
      Nat.sub_self, List.set_cons_zero, ← hslots]
    rfl

/-- The nodes of all drafts are added without a misstep. -/
theorem foldlM_add {es : List Draft} (h : Ordered (ds ++ es)) :
    es.foldlM add (of ds) = .ok (of (ds ++ es)) := by
  induction es generalizing ds with
  | nil =>
    rw [List.append_nil]
    rfl
  | cons e es ih =>
    have hsplit : ds ++ e :: es = ds ++ [e] ++ es := by rw [List.append_assoc]; rfl
    rw [hsplit] at h ⊢
    have hfirst : Ordered (ds ++ [e]) := h.left
    rw [List.foldlM_cons, add_of hfirst, ok_bind, ih h]

end Steps

/-! ## Well-formed tables -/

/-- Nodes stand at their numbers, each number is in one place, at the top or among the children of a
smaller one, and what is referred to is a symbol of the same name that is no parameter. -/
structure WellFormed (a : Arena) : Prop where
  numbered : ∀ (i : Nat) (x : Slot), a.slots[i]? = some x → x.cursor.id = i
  placed : (a.top ++ a.slots.flatMap (·.children)).Perm (List.range a.slots.length)
  parent_lt : ∀ (i : Nat) (x : Slot), a.slots[i]? = some x → ∀ j ∈ x.children, i < j
  refers : ∀ x ∈ a.slots, ∀ t, x.referenced = some t → ∃ y : Slot, a.slots[t]? = some y ∧
    y.cursor.kind.isSymbol = true ∧ y.cursor.kind ≠ .parameter ∧
      y.cursor.spelling = x.cursor.spelling

section Drafts

variable {ds : List Draft}

theorem mem_positions {parent : Option Nat} {i : Nat} :
    i ∈ positions ds parent ↔ ∃ d ∈ ds, d.parent = parent ∧ d.cursor.id = i := by
  simp [positions, and_assoc]

/-- Drafts with one number are the same. -/
theorem Ordered.eq_of_id_eq (h : Ordered ds) {d e : Draft} (hd : d ∈ ds) (he : e ∈ ds)
    (hid : d.cursor.id = e.cursor.id) : d = e := by
  have hsame := h.getElem?_id hd
  rw [hid, h.getElem?_id he] at hsame
  exact (Option.some.inj hsame).symm

theorem Ordered.pairwise (h : Ordered ds) : ds.Pairwise fun d e => d.cursor.id < e.cursor.id := by
  rw [List.pairwise_iff_getElem]
  intro i j hi hj hlt
  rwa [h.id_getElem hi, h.id_getElem hj]

theorem Ordered.nodup_positions (h : Ordered ds) (parent : Option Nat) :
    (positions ds parent).Nodup :=
  List.pairwise_map.2 ((h.pairwise.filter _).imp Nat.ne_of_lt)

/-- No number is in the places of two parents. -/
theorem Ordered.disjoint_positions (h : Ordered ds) {p q : Option Nat} (hne : p ≠ q) :
    List.Disjoint (positions ds p) (positions ds q) := by
  intro i hi hi'
  obtain ⟨d, hd, hp, rfl⟩ := mem_positions.1 hi
  obtain ⟨e, he, hq, hid⟩ := mem_positions.1 hi'
  obtain rfl := h.eq_of_id_eq he hd hid
  exact hne (hp.symm.trans hq)

/-- Every node is at the top or among the children of one other node. -/
theorem placed_of (h : Ordered ds) :
    ((of ds).top ++ (of ds).slots.flatMap (·.children)).Perm (List.range (of ds).slots.length) := by
  have hchildren : (of ds).slots.flatMap (·.children) =
      ds.flatMap fun d => positions ds (some d.cursor.id) := List.flatMap_map ..
  have hlength : (of ds).slots.length = ds.length := List.length_map _
  rw [hchildren, hlength]
  refine (List.perm_ext_iff_of_nodup ?_ List.nodup_range).2 fun i => ?_
  · rw [List.nodup_append']
    refine ⟨h.nodup_positions none, List.nodup_flatMap.2 ⟨fun d _ => h.nodup_positions _, ?_⟩, ?_⟩
    -- different nodes have different numbers, so different lists of children
    · exact h.pairwise.imp fun hlt =>
        h.disjoint_positions fun heq => Nat.ne_of_lt hlt (Option.some.inj heq)
    · intro i hi hi'
      obtain ⟨d, -, hd⟩ := List.mem_flatMap.1 hi'
      exact h.disjoint_positions (Option.some_ne_none _).symm hi hd
  · rw [List.mem_append, List.mem_flatMap, List.mem_range]
    constructor
    · rintro (hi | ⟨d, -, hi⟩)
      all_goals
        obtain ⟨e, he, -, rfl⟩ := mem_positions.1 hi
        exact h.id_lt he
    · intro hi
      have hmem := List.getElem_mem hi
      have hid := h.id_getElem hi
      cases hparent : ds[i].parent with
      | none => exact .inl (mem_positions.2 ⟨_, hmem, hparent, hid⟩)
      | some p =>
        have hp : p < ds.length := Nat.lt_trans (h.parent_lt _ hmem p hparent) (h.id_lt hmem)
        have hpid := h.id_getElem hp
        exact .inr ⟨_, List.getElem_mem hp, mem_positions.2 ⟨_, hmem, by rw [hparent, hpid], hid⟩⟩

theorem exists_draft_of_slot {i : Nat} {x : Slot} (hx : (of ds).slots[i]? = some x) :
    ∃ d, ds[i]? = some d ∧ slotOf ds d = x := by
  unfold of at hx
  rw [List.getElem?_map] at hx
  exact Option.map_eq_some_iff.1 hx

/-- The table of ordered drafts is well-formed if what they refer to are symbols. -/
theorem wellFormed_of (h : Ordered ds)
    (hrefers : ∀ d ∈ ds, ∀ t, d.target = some t → ∃ e, ds[t]? = some e ∧
      isTarget e.cursor = true ∧ e.cursor.spelling = d.cursor.spelling) : (of ds).WellFormed where
  numbered i x hx := by
    obtain ⟨d, hd, rfl⟩ := exists_draft_of_slot hx
    exact h.id_eq hd
  placed := placed_of h
  parent_lt i x hx j hj := by
    obtain ⟨d, hd, rfl⟩ := exists_draft_of_slot hx
    obtain ⟨e, he, hparent, rfl⟩ := mem_positions.1 hj
    exact h.id_eq hd ▸ h.parent_lt e he _ hparent
  refers x hx t ht := by
    obtain ⟨d, hd, rfl⟩ := List.mem_map.1 hx
    obtain ⟨e, he, htarget, hspelling⟩ := hrefers d hd t ht
    obtain ⟨hsymbol, hkind⟩ := Bool.and_eq_true_iff.1 htarget
    refine ⟨slotOf ds e, ?_, hsymbol, of_decide_eq_true hkind, hspelling⟩
    unfold of
    rw [List.getElem?_map, he]
    rfl

end Drafts

/-! ## Lookups -/

/-- The cursors at some positions. -/
def cursorsAt (a : Arena) (is : List Nat) : Checked (List Cursor) :=
  is.mapM fun i => return (← entryAt a.slots i).cursor

def topLevel (a : Arena) : Checked (List Cursor) := a.cursorsAt a.top

/-- The node of a cursor: the one at the cursor's position. -/
def slot? (a : Arena) (c : Cursor) : Option Slot := a.slots[c.id]?.filter fun x => x.cursor.id = c.id

def children (a : Arena) (c : Cursor) : Checked (List Cursor) :=
  match a.slot? c with
  | none => return []
  | some x => a.cursorsAt x.children

/-- What a cursor refers to: what is stored, or itself if it is a symbol. -/
def referenced (a : Arena) (c : Cursor) : Checked (Option Cursor) :=
  match a.slot? c with
  | none => return none
  | some x =>
    match x.referenced with
    | none => return if x.cursor.kind.isSymbol then some x.cursor else none
    | some t => return some (← entryAt a.slots t).cursor

section Lookups

variable {ds : List Draft} {u : CompilationUnit} {es : List Entity}

theorem entryAt_of {i : Nat} {d : Draft} (hd : ds[i]? = some d) :
    entryAt (of ds).slots i = .ok (slotOf ds d) := by
  unfold entryAt of
  rw [List.getElem?_map, hd]
  rfl

/-- The cursors at the positions of a parent are those of the drafts below it. -/
theorem cursorsAt_of (h : Ordered ds) (parent : Option Nat) :
    (of ds).cursorsAt (positions ds parent) =
      .ok ((ds.filter (·.parent = parent)).map (·.cursor)) := by
  have hall : ∀ d ∈ ds.filter (·.parent = parent), d ∈ ds := fun d hd => (List.mem_filter.1 hd).1
  unfold cursorsAt positions
  generalize ds.filter (·.parent = parent) = xs at hall
  induction xs with
  | nil => rfl
  | cons d xs ih =>
    rw [List.forall_mem_cons] at hall
    rw [List.map_cons, List.mapM_cons, entryAt_of (h.getElem?_id hall.1), ok_bind, ih hall.2]
    rfl

/-- What is at the top of the table is at the top of the unit. -/
theorem topLevel_of (h : Ordered (draftsOf es)) (hu : HasEntities u es) :
    (of (draftsOf es)).topLevel = .ok u.topLevel := by
  have htop : u.topLevel = ((draftsOf es).filter (·.parent = none)).map (·.cursor) := by
    unfold CompilationUnit.topLevel
    rw [hu, List.filter_map, List.map_map]
    rfl
  rw [htop]
  exact cursorsAt_of h none

theorem slot?_of (h : Ordered ds) (c : Cursor) :
    (of ds).slot? c = (ds[c.id]?).map (slotOf ds) := by
  unfold slot? of
  rw [List.getElem?_map]
  cases hd : ds[c.id]? with
  | none => rfl
  | some d =>
    have hid := h.id_eq hd
    exact Option.filter_some_pos (decide_eq_true hid)

/-- The children of a node in the table are those in the unit. -/
theorem children_of (h : Ordered (draftsOf es)) (hu : HasEntities u es) (c : Cursor) :
    (of (draftsOf es)).children c = .ok (u.children c) := by
  have hchildren : u.children c =
      ((draftsOf es).filter (·.parent = some c.id)).map (·.cursor) := by
    unfold CompilationUnit.children
    rw [hu, List.filter_map, List.map_map]
    rfl
  unfold children
  rw [slot?_of h, hchildren]
  cases hd : (draftsOf es)[c.id]? with
  | none =>
    have hnone := h.positions_eq_nil (List.getElem?_eq_none_iff.1 hd)
    rw [positions, List.map_eq_nil_iff] at hnone
    rw [hnone]
    rfl
  | some d =>
    have hid := h.id_eq hd
    rw [← hid]
    exact cursorsAt_of h (some d.cursor.id)

/-- What a node refers to in the table is what it refers to in the unit. -/
theorem referenced_of (h : Ordered (draftsOf es)) (hu : HasEntities u es) (c : Cursor) :
    (of (draftsOf es)).referenced c = .ok (u.referenced c) := by
  have hindex (i : Nat) : u.cursorAtIndex? i = ((draftsOf es)[i]?).map (·.cursor) := by
    unfold CompilationUnit.cursorAtIndex?
    rw [hu, List.getElem?_map, Option.map_map]
    rfl
  unfold referenced CompilationUnit.referenced CompilationUnit.node?
  rw [slot?_of h, hu, List.getElem?_map]
  cases hd : (draftsOf es)[c.id]? with
  | none => rfl
  | some d =>
    have hid := h.id_eq hd
    have hmem := List.mem_of_getElem? hd
    have hnode : (some (link ((draftsOf es).map (·.cursor)) d)).filter
        (fun n => n.cursor.id = c.id) = some (link ((draftsOf es).map (·.cursor)) d) :=
      Option.filter_some_pos (decide_eq_true hid)
    rw [Option.map_some, Option.map_some, hnode, Option.bind_some]
    cases htarget : d.target with
    | none =>
      have hself : u.cursorAtIndex? d.cursor.id = some d.cursor := hu.cursorAtIndex?_eq hmem
      cases hsymbol : d.cursor.kind.isSymbol <;> simp [slotOf, link, htarget, hsymbol, hself]
    | some t =>
      obtain ⟨e, he, -⟩ := exists_target hmem htarget
      have hentry : entryAt (of (draftsOf es)).slots t = .ok (slotOf (draftsOf es) e) :=
        entryAt_of he
      simp [slotOf, link, htarget, hindex, he, hentry]

end Lookups

/-! ## Units -/

/-- The table of a main file and the texts given with it. -/
def build (main : FilePath) (unsaved : List FileBuffer) : Except Fault (Checked Arena) := do
  let files ← (mainLast main unsaved).mapM FileModel.ofBuffer
  return (draftsOf (files.flatMap (·.entities))).foldlM add {}

end Arena

open CompilationUnit (Visitor Visits stateless)

/-- Texts that have a unit have a well-formed table of its nodes, in which its lists and links are
found without a misstep. The full visit of the unit sees every node once, with its parent and behind
it. A visit comes to an end whatever the visitor does, and sees what the visitor makes of the nodes in
the order of the full visit: without what is below skipped ones, and up to the one that stops it. -/
theorem visits_every_node_once {main : FilePath} {unsaved : List FileBuffer} {u : CompilationUnit}
    (h : buildUnit main unsaved = .ok u) :
    (∃ a, Arena.build main unsaved = .ok (.ok a) ∧ a.WellFormed ∧
      a.slots.map (·.cursor) = u.cursors ∧ a.topLevel = .ok u.topLevel ∧
      (∀ c, a.children c = .ok (u.children c)) ∧ ∀ c, a.referenced c = .ok (u.referenced c)) ∧
    (u.preorder.map (·.1)).Perm u.cursors ∧
    (∀ x ∈ u.preorder, x.2 = none ∧ x.1 ∈ u.topLevel ∨
      ∃ p ∈ u.cursors, x.2 = some p ∧ x.1 ∈ u.children p) ∧
    (∀ front c d back, u.preorder = front ++ (d, some c) :: back → ∃ p, (c, p) ∈ front) ∧
    (u.preorder = u.listed none u.topLevel ∧
      ∀ c, u.below c = u.listed (some c) (u.children c)) ∧
    (∀ {σ : Type} (v : Visitor σ) s o,
      Visits u v none u.topLevel s o ↔ o = u.along v u.preorder s) ∧
    (∀ {σ : Type} (s : σ) o, Visits u (fun _ _ s => (.descend, s)) none u.topLevel s o ↔
      o = ⟨u.preorder, false, s⟩) ∧
    ∀ v, u.walk v = (u.along (stateless v) u.preorder ()).seen := by
  obtain ⟨files, hfiles, hunit⟩ := buildUnit_eq_ok.1 h
  have hu : HasEntities u (files.flatMap (·.entities)) := by
    rw [hunit]
    rfl
  have hordered : Arena.Ordered (draftsOf (files.flatMap (·.entities))) :=
    ⟨numbered_draftsOf _, fun d hd p hp =>
      parent_lt_of_mem_draftsOf (fun e he => owned_of_mem hfiles he) hd hp⟩
  obtain ⟨es, hlinked⟩ := exists_linkedUnit h
  have hforest := hlinked.isForest
  refine ⟨⟨.of (draftsOf (files.flatMap (·.entities))), ?_, ?_, ?_, Arena.topLevel_of hordered hu,
    Arena.children_of hordered hu, Arena.referenced_of hordered hu⟩, hforest.preorder_perm,
    fun x hx => hforest.parent_of_mem_preorder hx,
    fun front c d back hsplit => hforest.parent_before hsplit,
    ⟨u.preorder_eq_listed, hforest.below_eq⟩, fun v s o => hforest.visits_iff, fun s o => ?_,
    hforest.walk_eq⟩
  · unfold Arena.build
    rw [hfiles]
    exact congrArg Except.ok (@Arena.foldlM_add [] _ hordered)
  · exact Arena.wellFormed_of hordered fun d hd t ht => exists_target hd ht
  · unfold Arena.of CompilationUnit.cursors
    rw [hu, List.map_map, List.map_map]
    rfl
  · rw [hforest.visits_iff, CompilationUnit.along_descend]

/-- The word in the body comes with the body, before the parameter, though it has a larger number. -/
theorem visits_every_node_once_in_body :
    ∃ u, buildUnit ⟨"/s/m.cpp"⟩ [⟨⟨"/s/m.cpp"⟩, "int x;\nvoid f(int a) \x7b x; \x7d\n"⟩] = .ok u ∧
      (u.preorder.map (·.1)).Perm u.cursors ∧
      u.preorder.map (fun y => (y.1.id, y.2.map (·.id))) =
        [(0, none), (1, none), (2, some 1), (4, some 2), (3, some 1)] := by
  have hbuilt : (buildUnit ⟨"/s/m.cpp"⟩
      [⟨⟨"/s/m.cpp"⟩, "int x;\nvoid f(int a) \x7b x; \x7d\n"⟩]).toOption.map
        (fun u => u.preorder.map fun y => (y.1.id, y.2.map (·.id))) =
      some [(0, none), (1, none), (2, some 1), (4, some 2), (3, some 1)] := by cbv
  obtain ⟨u, hu, horder⟩ := Option.map_eq_some_iff.1 hbuilt
  have hok : buildUnit ⟨"/s/m.cpp"⟩
      [⟨⟨"/s/m.cpp"⟩, "int x;\nvoid f(int a) \x7b x; \x7d\n"⟩] = .ok u := by
    cases hbuild : buildUnit ⟨"/s/m.cpp"⟩
        [⟨⟨"/s/m.cpp"⟩, "int x;\nvoid f(int a) \x7b x; \x7d\n"⟩] with
    | error e =>
      rw [hbuild] at hu
      cases hu
    | ok u' =>
      rw [hbuild] at hu
      cases hu
      rfl
  exact ⟨u, hok, (visits_every_node_once hok).2.1, horder⟩

end SketchSense.Model.ByPosition
