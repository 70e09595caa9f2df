import Mathlib.Data.List.Nodup
import Mathlib.Data.List.Perm.Basic
import SketchSense.Cursor.Tree

/-!
# The forest of a unit

Where every node stands at its number and comes behind its parent, nodes and their children are a
forest: nothing is below itself, and what is below two nodes with the same parent does not meet. So
the visit of all nodes sees each node once, with its parent and behind it.

* `descendants`, what a visit sees below a node, with `preorder_eq`;
* `IsForest`, with `IsForest.induction_on`, an induction from the leaves up;
* `below`, with `IsForest.below_eq`: what is below a node, without a depth;
* `Under`, that a node is reached from another one over parents, with `IsForest.eq_of_under`;
* `IsForest.preorder_perm`, `IsForest.parent_of_mem_preorder` and `IsForest.parent_before`, that the
  visit sees every node once, with its parent and behind it.
-/

namespace SketchSense.CompilationUnit

variable (u : CompilationUnit) {c d : Cursor}

/-! ## Visits of the whole tree -/

/-- What is below a node, down to some depth: parents first, each node with its parent. -/
def descendants : Nat → Cursor → List (Cursor × Option Cursor)
  | 0, _ => []
  | depth + 1, c => (u.children c).flatMap fun d => (d, some c) :: descendants depth d

theorem visitAll_descend {below : Cursor → Visit} {inner : Cursor → List (Cursor × Option Cursor)}
    (h : ∀ c, below c = ⟨inner c, false⟩) (parent : Option Cursor) (cs : List Cursor) :
    visitAll (fun _ _ => .descend) below parent cs =
      ⟨cs.flatMap fun c => (c, parent) :: inner c, false⟩ := by
  induction cs with
  | nil => rfl
  | cons c cs ih => simp [visitAll, h, ih]

theorem visitBelow_descend (depth : Nat) (c : Cursor) :
    u.visitBelow (fun _ _ => .descend) depth c = ⟨u.descendants depth c, false⟩ := by
  induction depth generalizing c with
  | zero => rfl
  | succ depth ih => exact visitAll_descend ih (some c) (u.children c)

/-- A visit of all nodes sees each top-level node and then what is below it. -/
theorem preorder_eq :
    u.preorder = u.topLevel.flatMap fun c => (c, none) :: u.descendants u.nodes.length c := by
  unfold preorder walk
  rw [visitAll_descend (u.visitBelow_descend u.nodes.length)]

/-! ## Nodes and their parents -/

theorem mem_topLevel {n : Node} (hn : n ∈ u.nodes) (hparent : n.parent = none) :
    n.cursor ∈ u.topLevel :=
  List.mem_map_of_mem (List.mem_filter.2 ⟨hn, by simp [hparent]⟩)

theorem mem_children {n : Node} (hn : n ∈ u.nodes) (hparent : n.parent = some c.id) :
    n.cursor ∈ u.children c :=
  List.mem_map_of_mem (List.mem_filter.2 ⟨hn, by simp [hparent]⟩)

theorem exists_node_of_mem_topLevel (h : c ∈ u.topLevel) :
    ∃ n ∈ u.nodes, n.cursor = c ∧ n.parent = none := by
  obtain ⟨n, hn, rfl⟩ := List.mem_map.1 h
  obtain ⟨hmem, hparent⟩ := List.mem_filter.1 hn
  exact ⟨n, hmem, rfl, of_decide_eq_true hparent⟩

theorem exists_node_of_mem_children (h : d ∈ u.children c) :
    ∃ n ∈ u.nodes, n.cursor = d ∧ n.parent = some c.id := by
  obtain ⟨n, hn, rfl⟩ := List.mem_map.1 h
  obtain ⟨hmem, hparent⟩ := List.mem_filter.1 hn
  exact ⟨n, hmem, rfl, of_decide_eq_true hparent⟩

/-- The number of the parent of the node at a position. -/
def parentOf? (i : Nat) : Option Nat := u.nodes[i]?.bind (·.parent)

/-- Nodes stand at their numbers and come behind their parents. -/
structure IsForest : Prop where
  numbered : ∀ (i : Nat) (n : Node), u.nodes[i]? = some n → n.cursor.id = i
  parent_lt : ∀ n ∈ u.nodes, ∀ p, n.parent = some p → p < n.cursor.id

variable {u} (h : u.IsForest)

namespace IsForest

include h

theorem getElem?_id {n : Node} (hn : n ∈ u.nodes) : u.nodes[n.cursor.id]? = some n := by
  obtain ⟨i, hi⟩ := List.getElem?_of_mem hn
  rw [h.numbered i n hi, hi]

theorem id_lt {n : Node} (hn : n ∈ u.nodes) : n.cursor.id < u.nodes.length :=
  (List.getElem?_eq_some_iff.1 (h.getElem?_id hn)).1

theorem parentOf?_id {n : Node} (hn : n ∈ u.nodes) : u.parentOf? n.cursor.id = n.parent := by
  unfold parentOf?
  rw [h.getElem?_id hn, Option.bind_some]

theorem parentOf?_of_mem_topLevel (hc : c ∈ u.topLevel) : u.parentOf? c.id = none := by
  obtain ⟨n, hn, rfl, hparent⟩ := u.exists_node_of_mem_topLevel hc
  rw [h.parentOf?_id hn, hparent]

theorem parentOf?_of_mem_children (hd : d ∈ u.children c) : u.parentOf? d.id = some c.id := by
  obtain ⟨n, hn, rfl, hparent⟩ := u.exists_node_of_mem_children hd
  rw [h.parentOf?_id hn, hparent]

theorem lt_of_parentOf? {i p : Nat} (hi : u.parentOf? i = some p) : p < i := by
  obtain ⟨n, hn, hparent⟩ := Option.bind_eq_some_iff.1 hi
  have hlt := h.parent_lt n (List.mem_of_getElem? hn) p hparent
  rwa [h.numbered i n hn] at hlt

theorem lt_of_mem_children (hd : d ∈ u.children c) : c.id < d.id :=
  h.lt_of_parentOf? (h.parentOf?_of_mem_children hd)

theorem lt_length_of_mem_children (hd : d ∈ u.children c) : d.id < u.nodes.length := by
  obtain ⟨n, hn, rfl, -⟩ := u.exists_node_of_mem_children hd
  exact h.id_lt hn

/-- Numbers grow along the table. -/
theorem pairwise_nodes : u.nodes.Pairwise fun m n => m.cursor.id < n.cursor.id := by
  rw [List.pairwise_iff_getElem]
  intro i j hi hj hlt
  rwa [h.numbered i _ (List.getElem?_eq_getElem hi), h.numbered j _ (List.getElem?_eq_getElem hj)]

theorem pairwise_topLevel : u.topLevel.Pairwise fun c d => c.id < d.id :=
  List.pairwise_map.2 (h.pairwise_nodes.filter _)

theorem pairwise_children (c : Cursor) : (u.children c).Pairwise fun c d => c.id < d.id :=
  List.pairwise_map.2 (h.pairwise_nodes.filter _)

/-- What holds of a node if it holds of its children holds of every node. -/
theorem induction_on {motive : Cursor → Prop}
    (step : ∀ c, (∀ d ∈ u.children c, motive d) → motive c) (c : Cursor) : motive c := by
  induction hn : u.nodes.length - c.id using Nat.strongRecOn generalizing c with
  | ind n ih =>
    refine step c fun d hd => ih _ ?_ d rfl
    have hlt := h.lt_of_mem_children hd
    have hlength := h.lt_length_of_mem_children hd
    omega

/-! ## What is below a node -/

theorem children_eq_nil (hc : u.nodes.length ≤ c.id) : u.children c = [] := by
  rw [List.eq_nil_iff_forall_not_mem]
  intro d hd
  have hlt := h.lt_of_mem_children hd
  have hlength := h.lt_length_of_mem_children hd
  omega

/-- No node is deeper than there are nodes. -/
theorem descendants_succ {depth : Nat} (hdepth : u.nodes.length ≤ c.id + depth) :
    u.descendants (depth + 1) c = u.descendants depth c := by
  induction depth generalizing c with
  | zero =>
    show (u.children c).flatMap _ = []
    rw [h.children_eq_nil hdepth, List.flatMap_nil]
  | succ depth ih =>
    rw [descendants, descendants]
    refine List.flatMap_congr fun d hd => ?_
    have hlt := h.lt_of_mem_children hd
    rw [ih (by omega)]

end IsForest

variable (u)

/-- What is below a node: parents first, each node with its parent. -/
def below (c : Cursor) : List (Cursor × Option Cursor) := u.descendants u.nodes.length c

/-- Nodes with the same parent, each with what is below it. -/
def listed (parent : Option Cursor) (cs : List Cursor) : List (Cursor × Option Cursor) :=
  cs.flatMap fun c => (c, parent) :: u.below c

theorem preorder_eq_listed : u.preorder = u.listed none u.topLevel := u.preorder_eq

@[simp] theorem listed_cons (parent : Option Cursor) (c : Cursor) (cs : List Cursor) :
    u.listed parent (c :: cs) = (c, parent) :: (u.below c ++ u.listed parent cs) := rfl

variable {u}

theorem mem_listed {parent : Option Cursor} {cs : List Cursor} {x : Cursor × Option Cursor} :
    x ∈ u.listed parent cs ↔ ∃ c ∈ cs, x = (c, parent) ∨ x ∈ u.below c := by
  simp [listed]

/-- What is below a node is its children and what is below them. -/
theorem IsForest.below_eq (h : u.IsForest) (c : Cursor) : u.below c = u.listed (some c) (u.children c) :=
  (h.descendants_succ (Nat.le_add_left _ _)).symm

/-! ## Over parents -/

/-- The node at a position is the one at `j`, or its parents lead there. -/
inductive Under (u : CompilationUnit) (j : Nat) : Nat → Prop
  | self : Under u j j
  | up {i p : Nat} (hparent : u.parentOf? i = some p) (h : Under u j p) : Under u j i

theorem Under.trans {i j k : Nat} (h : u.Under j k) (h' : u.Under k i) : u.Under j i := by
  induction h' with
  | self => exact h
  | up hparent _ ih => exact .up hparent ih

namespace IsForest

include h

theorem le_of_under {i j : Nat} (hunder : u.Under j i) : j ≤ i := by
  induction hunder with
  | self => exact Nat.le_refl _
  | up hparent _ ih =>
    have hlt := h.lt_of_parentOf? hparent
    omega

/-- What is under two nodes with the same parent does not meet. -/
theorem eq_of_under {i j k : Nat} (hsame : u.parentOf? j = u.parentOf? k) (hj : u.Under j i)
    (hk : u.Under k i) : j = k := by
  induction hj with
  | self =>
    cases hk with
    | self => rfl
    | up hparent hk =>
      have hlt := h.lt_of_parentOf? (hsame ▸ hparent)
      have hle := h.le_of_under hk
      omega
  | up hparent hj ih =>
    cases hk with
    | self =>
      have hlt := h.lt_of_parentOf? (hsame.trans hparent)
      have hle := h.le_of_under hj
      omega
    | up hparent' hk =>
      rw [hparent, Option.some.injEq] at hparent'
      exact ih (hparent' ▸ hk)

/-- What is below a node is under it, and so is its parent; it is not the node itself. -/
theorem under_of_mem_below {x : Cursor × Option Cursor} (hx : x ∈ u.below c) :
    c.id < x.1.id ∧ u.Under c.id x.1.id ∧
      ∃ p, x.2 = some p ∧ u.Under c.id p.id ∧ x.1 ∈ u.children p := by
  induction c using h.induction_on with
  | step c ih =>
    rw [h.below_eq] at hx
    obtain ⟨d, hd, rfl | hx⟩ := mem_listed.1 hx
    · exact ⟨h.lt_of_mem_children hd, .up (h.parentOf?_of_mem_children hd) .self,
        c, rfl, .self, hd⟩
    · obtain ⟨hlt, hunder, p, hparent, hunder', hchild⟩ := ih d hd hx
      have hc : u.Under c.id d.id := .up (h.parentOf?_of_mem_children hd) .self
      exact ⟨Nat.lt_trans (h.lt_of_mem_children hd) hlt, hc.trans hunder,
        p, hparent, hc.trans hunder', hchild⟩

/-- The second entry is neither the node of the first one nor its parent. -/
def Follows (x y : Cursor × Option Cursor) : Prop :=
  x.1.id ≠ y.1.id ∧ x.2.map (·.id) ≠ some y.1.id

/-- What is listed with one of two nodes with the same parent is neither listed with the other one
nor the parent of such a node. -/
theorem follows_of_siblings {parent : Option Cursor} {x y : Cursor × Option Cursor}
    (hc : u.parentOf? c.id = parent.map (·.id)) (hd : u.parentOf? d.id = parent.map (·.id))
    (hne : c.id ≠ d.id) (hx : x ∈ (c, parent) :: u.below c) (hy : y ∈ (d, parent) :: u.below d) :
    Follows x y := by
  have happart {i : Nat} (hi : u.Under c.id i) (hi' : u.Under d.id i) : False :=
    hne (h.eq_of_under (hc.trans hd.symm) hi hi')
  have hunder : u.Under d.id y.1.id := by
    rcases List.mem_cons.1 hy with rfl | hy
    · exact .self
    · exact (h.under_of_mem_below hy).2.1
  rcases List.mem_cons.1 hx with rfl | hx
  · refine ⟨fun heq => happart .self (heq ▸ hunder), fun heq => ?_⟩
    -- the common parent is before both nodes
    have hlt := h.lt_of_parentOf? (hd.trans heq)
    have hle := h.le_of_under hunder
    omega
  · obtain ⟨-, hunder', p, hparent, hunder'', -⟩ := h.under_of_mem_below hx
    refine ⟨fun heq => happart hunder' (heq ▸ hunder), fun heq => ?_⟩
    rw [hparent, Option.map_some, Option.some.injEq] at heq
    exact happart hunder'' (heq ▸ hunder)

theorem pairwise_listed {parent : Option Cursor} {cs : List Cursor}
    (hcs : cs.Pairwise fun c d => c.id < d.id)
    (hparent : ∀ c ∈ cs, u.parentOf? c.id = parent.map (·.id))
    (hbelow : ∀ c ∈ cs, (u.below c).Pairwise Follows) : (u.listed parent cs).Pairwise Follows := by
  unfold listed
  rw [List.pairwise_flatMap]
  constructor
  · intro c hc
    refine List.pairwise_cons.2 ⟨fun y hy => ?_, hbelow c hc⟩
    have hlt := (h.under_of_mem_below hy).1
    refine ⟨Nat.ne_of_lt hlt, fun heq => ?_⟩
    have hlt' := h.lt_of_parentOf? ((hparent c hc).trans heq)
    omega
  · exact hcs.imp_of_mem fun hc hd hlt x hx y hy =>
      h.follows_of_siblings (hparent _ hc) (hparent _ hd) (Nat.ne_of_lt hlt) hx hy

theorem pairwise_below (c : Cursor) : (u.below c).Pairwise Follows := by
  induction c using h.induction_on with
  | step c ih =>
    rw [h.below_eq]
    exact h.pairwise_listed (h.pairwise_children c) (fun d hd => h.parentOf?_of_mem_children hd) ih

/-- Neither a node nor its parent is visited behind it. -/
theorem pairwise_preorder : u.preorder.Pairwise Follows := by
  rw [u.preorder_eq_listed]
  exact h.pairwise_listed h.pairwise_topLevel (fun c hc => h.parentOf?_of_mem_topLevel hc)
    fun c _ => h.pairwise_below c

/-- No number is visited twice. -/
theorem nodup_preorder : (u.preorder.map (·.1.id)).Nodup :=
  List.pairwise_map.2 (h.pairwise_preorder.imp And.left)

/-- Children of a node that is listed are listed, with the node as their parent. -/
theorem child_mem_below {x : Cursor × Option Cursor} (hx : x ∈ u.below c)
    (hd : d ∈ u.children x.1) : (d, some x.1) ∈ u.below c := by
  induction c using h.induction_on with
  | step c ih =>
    rw [h.below_eq] at hx ⊢
    obtain ⟨e, he, rfl | hx⟩ := mem_listed.1 hx
    · refine mem_listed.2 ⟨e, he, .inr ?_⟩
      rw [h.below_eq]
      exact mem_listed.2 ⟨d, hd, .inl rfl⟩
    · exact mem_listed.2 ⟨e, he, .inr (ih e he hx)⟩

theorem child_mem_preorder {x : Cursor × Option Cursor} (hx : x ∈ u.preorder)
    (hd : d ∈ u.children x.1) : (d, some x.1) ∈ u.preorder := by
  rw [u.preorder_eq_listed] at hx ⊢
  obtain ⟨e, he, rfl | hx⟩ := mem_listed.1 hx
  · refine mem_listed.2 ⟨e, he, .inr ?_⟩
    rw [h.below_eq]
    exact mem_listed.2 ⟨d, hd, .inl rfl⟩
  · exact mem_listed.2 ⟨e, he, .inr (h.child_mem_below hx hd)⟩

theorem parent_mem_below {x : Cursor × Option Cursor} (hx : x ∈ u.below c) :
    ∃ p, x.2 = some p ∧ (p = c ∨ ∃ q, (p, q) ∈ u.below c) := by
  induction c using h.induction_on with
  | step c ih =>
    rw [h.below_eq] at hx ⊢
    obtain ⟨d, hd, rfl | hx⟩ := mem_listed.1 hx
    · exact ⟨c, rfl, .inl rfl⟩
    · obtain ⟨p, hp, rfl | ⟨q, hq⟩⟩ := ih d hd hx
      · exact ⟨p, hp, .inr ⟨_, mem_listed.2 ⟨p, hd, .inl rfl⟩⟩⟩
      · exact ⟨p, hp, .inr ⟨q, mem_listed.2 ⟨d, hd, .inr hq⟩⟩⟩

/-- With a node its parent is visited. -/
theorem parent_mem_preorder (hd : (d, some c) ∈ u.preorder) : ∃ p, (c, p) ∈ u.preorder := by
  rw [u.preorder_eq_listed] at hd ⊢
  obtain ⟨e, he, heq | hx⟩ := mem_listed.1 hd
  · cases heq
  · obtain ⟨p, hp, hlisted⟩ := h.parent_mem_below hx
    obtain rfl : c = p := Option.some.inj hp
    rcases hlisted with rfl | ⟨q, hq⟩
    · exact ⟨_, mem_listed.2 ⟨c, he, .inl rfl⟩⟩
    · exact ⟨q, mem_listed.2 ⟨e, he, .inr hq⟩⟩

/-- Every node is visited: the parents lead up to the top. -/
theorem mem_preorder {n : Node} (hn : n ∈ u.nodes) : ∃ p, (n.cursor, p) ∈ u.preorder := by
  -- by induction on the number: the parent has a smaller one
  induction hid : n.cursor.id using Nat.strongRecOn generalizing n with
  | ind i ih =>
    cases hparent : n.parent with
    | none =>
      refine ⟨none, ?_⟩
      rw [u.preorder_eq_listed]
      exact mem_listed.2 ⟨_, u.mem_topLevel hn hparent, .inl rfl⟩
    | some p =>
      have hlt := h.parent_lt n hn p hparent
      have hlength := Nat.lt_trans hlt (h.id_lt hn)
      have hm := List.getElem?_eq_getElem hlength
      have hp := h.numbered p _ hm
      obtain ⟨q, hq⟩ := ih p (hid ▸ hlt) (List.mem_of_getElem? hm) hp
      exact ⟨_, h.child_mem_preorder hq (u.mem_children hn (by rw [hparent, hp]))⟩

/-- A visited node is one of the unit, with its parent. -/
theorem exists_node_of_mem_preorder {x : Cursor × Option Cursor}
    (hx : x ∈ u.preorder) : ∃ n ∈ u.nodes, n.cursor = x.1 ∧ n.parent = x.2.map (·.id) := by
  rw [u.preorder_eq_listed] at hx
  obtain ⟨c, hc, rfl | hx⟩ := mem_listed.1 hx
  · exact u.exists_node_of_mem_topLevel hc
  · obtain ⟨-, -, p, hparent, -, hchild⟩ := h.under_of_mem_below hx
    obtain ⟨n, hn, hcursor, hp⟩ := u.exists_node_of_mem_children hchild
    exact ⟨n, hn, hcursor, by rw [hp, hparent, Option.map_some]⟩

/-- The visit sees every node exactly once. -/
theorem preorder_perm : (u.preorder.map (·.1)).Perm u.cursors := by
  have hnodup : (u.preorder.map (·.1)).Nodup :=
    List.pairwise_map.2 (h.pairwise_preorder.imp fun hfollows heq => hfollows.1 (congrArg _ heq))
  have hnodup' : u.cursors.Nodup :=
    List.pairwise_map.2 (h.pairwise_nodes.imp fun hlt heq => Nat.ne_of_lt hlt (congrArg _ heq))
  refine (List.perm_ext_iff_of_nodup hnodup hnodup').2 fun c => ?_
  constructor
  · intro hc
    obtain ⟨x, hx, rfl⟩ := List.mem_map.1 hc
    obtain ⟨n, hn, hcursor, -⟩ := h.exists_node_of_mem_preorder hx
    exact hcursor ▸ List.mem_map_of_mem hn
  · intro hc
    obtain ⟨n, hn, rfl⟩ := List.mem_map.1 hc
    obtain ⟨p, hp⟩ := h.mem_preorder hn
    exact List.mem_map.2 ⟨_, hp, rfl⟩

/-- A node is visited with its parent, or with none at the top. -/
theorem parent_of_mem_preorder {x : Cursor × Option Cursor} (hx : x ∈ u.preorder) :
    x.2 = none ∧ x.1 ∈ u.topLevel ∨ ∃ p ∈ u.cursors, x.2 = some p ∧ x.1 ∈ u.children p := by
  obtain ⟨d, parent⟩ := x
  obtain ⟨n, hn, rfl, hparent⟩ : ∃ n ∈ u.nodes, n.cursor = d ∧ n.parent = parent.map (·.id) :=
    h.exists_node_of_mem_preorder hx
  cases parent with
  | none => exact .inl ⟨rfl, u.mem_topLevel hn hparent⟩
  | some p =>
    obtain ⟨q, hq⟩ := h.parent_mem_preorder hx
    obtain ⟨m, hm, rfl, -⟩ : ∃ m ∈ u.nodes, m.cursor = p ∧ m.parent = q.map (·.id) :=
      h.exists_node_of_mem_preorder hq
    exact .inr ⟨m.cursor, List.mem_map_of_mem hm, rfl, u.mem_children hn hparent⟩

/-- A node is visited behind its parent. -/
theorem parent_before {front back : List (Cursor × Option Cursor)}
    (hsplit : u.preorder = front ++ (d, some c) :: back) : ∃ p, (c, p) ∈ front := by
  have hmem : (d, some c) ∈ u.preorder := hsplit ▸ List.mem_append_right _ List.mem_cons_self
  obtain ⟨n, hn, rfl, hparent⟩ : ∃ n ∈ u.nodes, n.cursor = d ∧ n.parent = some c.id :=
    h.exists_node_of_mem_preorder hmem
  have hlt := h.parent_lt n hn c.id hparent
  have hback := (List.pairwise_append.1 (hsplit ▸ h.pairwise_preorder)).2.1
  -- the parent is visited, but neither here nor later
  obtain ⟨p, hp⟩ := h.parent_mem_preorder hmem
  rw [hsplit] at hp
  rcases List.mem_append.1 hp with hp | hp
  · exact ⟨p, hp⟩
  rcases List.mem_cons.1 hp with heq | hp
  · obtain rfl : c = n.cursor := congrArg Prod.fst heq
    exact absurd hlt (Nat.lt_irrefl _)
  · exact absurd rfl ((List.pairwise_cons.1 hback).1 _ hp).2

end IsForest

end SketchSense.CompilationUnit
