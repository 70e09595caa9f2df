import SketchSense.Proofs.Model.Naming
import SketchSense.Proofs.Symbol.Collect

/-!
# What the nodes of a unit belong to

The links of a node all lead to nodes with the same key, and the first declaration of whatever a node
refers to is the first symbol with its key. A node without a key belongs to nothing but itself.

* `CompilationUnit.primary`, the first declaration with the key of a cursor;
* `LinkedUnit`, a unit of well keyed entities, with `canonical_target` and `canonical_referenced`;
* `LinkedUnit.mem_preorder`, that a visit sees every node.
-/

namespace SketchSense

namespace CompilationUnit

variable (u : CompilationUnit) {c d : Cursor}

/-- The first declaration with the key of a cursor; without a key the cursor itself. -/
def primary (c : Cursor) : Cursor :=
  if c.usr = "" then c
  else (u.cursors.find? fun f => f.usr = c.usr && f.kind.isSymbol && true).getD c

theorem primary_of_usr_eq_empty (h : c.usr = "") : u.primary c = c := if_pos h

theorem usr_primary (c : Cursor) : (u.primary c).usr = c.usr := by
  unfold primary
  split
  · rfl
  · cases hfind : u.cursors.find? fun f => f.usr = c.usr && f.kind.isSymbol && true with
    | none => rfl
    | some f =>
      have hfits := List.find?_some hfind
      simp only [Bool.and_true, Bool.and_eq_true, decide_eq_true_eq] at hfits
      exact hfits.1

theorem primary_mem (h : c ∈ u.cursors) : u.primary c ∈ u.cursors := by
  unfold primary
  split
  · exact h
  · cases hfind : u.cursors.find? fun f => f.usr = c.usr && f.kind.isSymbol && true with
    | none => exact h
    | some f => exact List.mem_of_find?_eq_some hfind

/-- Cursors with the key of a symbol have one first declaration. -/
theorem primary_congr (hc : c ∈ u.cursors) (hsymbol : c.kind.isSymbol = true) (husr : c.usr ≠ "")
    (h : d.usr = c.usr) : u.primary d = u.primary c := by
  have hsome : (u.cursors.find? fun f => f.usr = c.usr && f.kind.isSymbol && true).isSome := by
    rw [List.find?_isSome]
    exact ⟨c, hc, by simp [hsymbol]⟩
  obtain ⟨f, hf⟩ := Option.isSome_iff_exists.1 hsome
  unfold primary
  rw [h, if_neg husr, if_neg husr, hf]
  rfl

/-! ## Visits -/

/-- What is below a node is a node. -/
theorem mem_cursors_of_mem_descendants {depth : Nat} {x : Cursor × Option Cursor}
    (h : x ∈ u.descendants depth c) : x.1 ∈ u.cursors := by
  induction depth generalizing c with
  | zero => cases h
  | succ depth ih =>
    obtain ⟨d, hd, hx⟩ := List.mem_flatMap.1 h
    rcases List.mem_cons.1 hx with rfl | hx
    · obtain ⟨n, hn, rfl⟩ := List.mem_map.1 hd
      exact List.mem_map_of_mem (List.mem_filter.1 hn).1
    · exact ih hx

/-- A visit sees nodes only. -/
theorem mem_cursors_of_mem_preorder {x : Cursor × Option Cursor} (h : x ∈ u.preorder) :
    x.1 ∈ u.cursors := by
  rw [u.preorder_eq] at h
  obtain ⟨c, hc, hx⟩ := List.mem_flatMap.1 h
  rcases List.mem_cons.1 hx with rfl | hx
  · obtain ⟨n, hn, rfl⟩ := List.mem_map.1 hc
    exact List.mem_map_of_mem (List.mem_filter.1 hn).1
  · exact u.mem_cursors_of_mem_descendants hx

end CompilationUnit

namespace Model

/-! ## Parents -/

theorem parent_of_mem_numberBelow {parent id : Nat} {ns : List Named} {d : Draft}
    (h : d ∈ numberBelow parent id ns) : d.parent = some parent := by
  have hall := filter_numberBelow parent id ns (some parent)
  rw [if_pos rfl] at hall
  rw [← hall] at h
  exact of_decide_eq_true (List.mem_filter.1 h).2

/-- A node that is below another one has a larger number. -/
theorem parent_lt_of_mem_numberAll {id : Nat} {es : List Entity} {d : Draft}
    (h : d ∈ numberAll id es) {p : Nat} (hp : d.parent = some p) : p < d.cursor.id := by
  induction es generalizing id with
  | nil => cases h
  | cons e es ih =>
    rcases List.mem_append.1 h with h | h
    · rcases List.mem_cons.1 h with rfl | h
      · cases hp
      · obtain ⟨i, hi⟩ := List.getElem?_of_mem h
        have hid := numbered_numberBelow id (id + 1) e.below i d hi
        rw [parent_of_mem_numberBelow h] at hp
        cases hp
        omega
    · exact ih h

/-- A word of a body belongs to a declared node, if entities with words have bodies. -/
theorem owner_of_mem_usesOf {id : Nat} {es : List Entity}
    (howned : ∀ e ∈ es, e.uses ≠ [] → e.below ≠ []) {w : Use} (h : w ∈ usesOf id es) :
    ∃ b ∈ numberAll id es, b.cursor.id = w.owner := by
  induction es generalizing id with
  | nil => cases h
  | cons e es ih =>
    rw [List.forall_mem_cons] at howned
    rcases List.mem_append.1 h with h | h
    · obtain ⟨t, ht, rfl⟩ := List.mem_map.1 h
      obtain ⟨n, ns, hbelow⟩ := List.exists_cons_of_ne_nil (howned.1 (List.ne_nil_of_mem ht))
      refine ⟨n.draft (id + 1) (some id), List.mem_append_left _ ?_, rfl⟩
      unfold Entity.drafts
      rw [hbelow, numberBelow]
      exact List.mem_cons_of_mem _ List.mem_cons_self
    · obtain ⟨b, hb, howner⟩ := ih howned.2 h
      exact ⟨b, List.mem_append_right _ hb, howner⟩

/-- The node of a word of a body has a larger number than that body. -/
theorem parent_lt_of_mem_draftsOf {es : List Entity}
    (howned : ∀ e ∈ es, e.uses ≠ [] → e.below ≠ []) {d : Draft} (h : d ∈ draftsOf es) {p : Nat}
    (hp : d.parent = some p) : p < d.cursor.id := by
  rcases List.mem_append.1 h with h | h
  · exact parent_lt_of_mem_numberAll h hp
  · have hle := (mem_referenceDrafts h).2.1
    obtain ⟨d', hd', i, rfl⟩ := mem_renumber h
    obtain ⟨w, hw, hdraft⟩ := List.mem_filterMap.1 hd'
    obtain ⟨_, _, -, -, -, -, -, -, -, howner⟩ := exists_draft_of_draft? hdraft
    obtain ⟨b, hb, hid⟩ := owner_of_mem_usesOf howned hw
    obtain ⟨j, hj, rfl⟩ := List.getElem_of_mem hb
    have hnumber := numbered_numberAll 0 es j _ (List.getElem?_eq_getElem hj)
    obtain rfl : w.owner = p := Option.some.inj (howner.symm.trans hp)
    omega

/-- What the node of a word refers to is a declared node that can be referred to, of the same name. -/
theorem exists_target {es : List Entity} {d : Draft} (h : d ∈ draftsOf es) {t : Nat}
    (ht : d.target = some t) : ∃ e, (draftsOf es)[t]? = some e ∧ isTarget e.cursor = true ∧
      e.cursor.spelling = d.cursor.spelling := by
  rcases List.mem_append.1 h with h | h
  · obtain ⟨_, -, n, -, i, p, rfl⟩ := mem_numberAll h
    cases ht
  · obtain ⟨d', hd', i, rfl⟩ := mem_renumber h
    obtain ⟨w, -, hdraft⟩ := List.mem_filterMap.1 hd'
    unfold Use.draft? at hdraft
    obtain ⟨name, -, hdraft⟩ := Option.bind_eq_some_iff.1 hdraft
    obtain ⟨target, htarget, hdraft⟩ := Option.bind_eq_some_iff.1 hdraft
    cases hdraft
    cases ht
    obtain ⟨e, he, rfl⟩ := List.mem_map.1 (List.mem_of_find?_eq_some htarget)
    have hfits := List.find?_some htarget
    rw [Bool.and_eq_true_iff, decide_eq_true_eq] at hfits
    obtain ⟨j, hj⟩ := List.getElem?_of_mem (List.mem_append_left _ he)
    have hid := numbered_draftsOf es j e hj
    rw [Nat.zero_add] at hid
    exact ⟨e, hid.symm ▸ hj, hfits.1, hfits.2⟩

/-! ## Linked units -/

/-- The unit of entities whose cursors are well keyed and whose words stand in bodies. -/
structure LinkedUnit (u : CompilationUnit) (es : List Entity) : Prop where
  entities : HasEntities u es
  keyed : ∀ e ∈ es, ∀ n ∈ e.top :: e.below, n.WellKeyed
  owned : ∀ e ∈ es, e.uses ≠ [] → e.below ≠ []
  worded : ∀ e ∈ es, ∀ t ∈ e.uses, 0 < t.length

theorem owned_of_entity? {file : FilePath} {x : Declaration} {e : Entity}
    (h : x.entity? file = .ok (some e)) (huses : e.uses ≠ []) : e.below ≠ [] := by
  rcases entity?_cases h with ⟨head, block, inside, -, -, -, he⟩ |
    ⟨-, ⟨-, hstatement⟩ | ⟨block, -, hrecord⟩⟩
  · cases he
    exact List.cons_ne_nil _ _
  · exact absurd (namedBy_of_statement? hstatement).2.2 huses
  · exact absurd (namedBy_of_record? hrecord).2 huses

/-- The entities of files that have words have bodies. -/
theorem owned_of_mem {bs : List FileBuffer} {files : List FileModel}
    (hfiles : bs.mapM FileModel.ofBuffer = .ok files) {e : Entity}
    (he : e ∈ files.flatMap (·.entities)) (huses : e.uses ≠ []) : e.below ≠ [] := by
  obtain ⟨b, -, lx, -, ⟨x, -, hx⟩ | ⟨x, -, hentity⟩⟩ := exists_buffer_of_mem hfiles he
  · exact absurd (of_macro? hx).2.2.1 huses
  · exact owned_of_entity? hentity huses

/-- A unit of texts is linked. -/
theorem exists_linkedUnit {main : FilePath} {unsaved : List FileBuffer} {u : CompilationUnit}
    (hu : buildUnit main unsaved = .ok u) : ∃ es, LinkedUnit u es := by
  obtain ⟨files, hfiles, rfl⟩ := buildUnit_eq_ok.1 hu
  refine ⟨files.flatMap fun m : FileModel => m.entities, rfl,
    fun e he => wellKeyed_of_mem hfiles he, fun e he => owned_of_mem hfiles he, ?_⟩
  intro e he t ht
  obtain ⟨b, -, lx, hlex, ⟨x, -, hx⟩ | ⟨x, hx, hentity⟩⟩ := exists_buffer_of_mem hfiles he
  · rw [(of_macro? hx).2.2.1] at ht
    cases ht
  · exact (inOrder_tokens hlex).2 t (mem_of_mem_parts hx (mem_parts_of_uses hentity ht).1)

namespace LinkedUnit

variable {u : CompilationUnit} {es : List Entity} (h : LinkedUnit u es) {d : Draft} {c : Cursor}

include h

theorem mem_cursors : c ∈ u.cursors ↔ ∃ d ∈ draftsOf es, d.cursor = c := by
  unfold CompilationUnit.cursors
  rw [h.entities, List.map_map]
  exact List.mem_map

theorem mem_cursors_of_mem (hd : d ∈ draftsOf es) : d.cursor ∈ u.cursors :=
  h.mem_cursors.2 ⟨d, hd, rfl⟩

/-- Nodes have different numbers. -/
theorem eq_of_id_eq {c' : Cursor} (hc : c ∈ u.cursors) (hc' : c' ∈ u.cursors) (hid : c.id = c'.id) :
    c = c' := by
  obtain ⟨d, hd, rfl⟩ := h.mem_cursors.1 hc
  obtain ⟨d', hd', rfl⟩ := h.mem_cursors.1 hc'
  have hsame := (h.entities.cursorAtIndex?_eq hd).symm
  rw [hid, h.entities.cursorAtIndex?_eq hd'] at hsame
  exact Option.some.inj hsame

/-- A declared node refers to nothing else, and it is a symbol if it has a key. -/
theorem of_mem_numberAll (hd : d ∈ numberAll 0 es) :
    d.target = none ∧ (d.cursor.usr ≠ "" → d.cursor.kind.isSymbol = true) ∧
      (isTarget d.cursor = true → d.cursor.usr ≠ "") ∧
      (d.cursor.usr ≠ "" → d.nameLength ≠ 0) := by
  obtain ⟨e, he, n, hn, i, p, rfl⟩ := mem_numberAll hd
  have hkeyed := h.keyed e he n hn
  exact ⟨rfl, hkeyed.symbol, hkeyed.target, hkeyed.named⟩

omit h in
/-- A reference refers to a declared node with its key. -/
theorem of_mem_referenceDrafts (hd : d ∈ referenceDrafts es) :
    ∃ t ∈ numberAll 0 es, d.target = some t.cursor.id ∧ isTarget t.cursor = true ∧
      d.cursor.usr = t.cursor.usr := by
  obtain ⟨d', hd', i, rfl⟩ := mem_renumber hd
  obtain ⟨w, -, hdraft⟩ := List.mem_filterMap.1 hd'
  obtain ⟨name, target, -, htarget, husr, hlink, -⟩ := exists_draft_of_draft? hdraft
  obtain ⟨t, ht, rfl⟩ := List.mem_map.1 (List.mem_of_find?_eq_some htarget)
  have hfits := List.find?_some htarget
  exact ⟨t, ht, hlink, (Bool.and_eq_true_iff.1 hfits).1, husr⟩

/-- What a node refers to, or else itself, has its key, and is a symbol if that is a key. -/
theorem exists_referenced (hd : d ∈ draftsOf es) :
    ∃ r ∈ draftsOf es, (u.referenced d.cursor).getD d.cursor = r.cursor ∧
      r.cursor.usr = d.cursor.usr ∧ (d.cursor.usr = "" → r = d) ∧
      (r.cursor.usr ≠ "" → r.cursor.kind.isSymbol = true) := by
  have hreferenced : u.referenced d.cursor =
      (link ((draftsOf es).map (·.cursor)) d).referenced.bind u.cursorAtIndex? := by
    unfold CompilationUnit.referenced
    rw [h.entities.node?_eq hd]
    rfl
  rw [hreferenced]
  rcases List.mem_append.1 hd with hdeclared | hreference
  · obtain ⟨htarget, hsymbol, -⟩ := h.of_mem_numberAll hdeclared
    refine ⟨d, hd, ?_, rfl, fun _ => rfl, hsymbol⟩
    show ((d.target.or _).bind _).getD _ = _
    rw [htarget, Option.none_or]
    split
    · rw [Option.bind_some, h.entities.cursorAtIndex?_eq hd]
      rfl
    · rfl
  · obtain ⟨t, ht, htarget, hkind, husr⟩ := of_mem_referenceDrafts hreference
    obtain ⟨-, hsymbol, hkey, -⟩ := h.of_mem_numberAll ht
    have hmem : t ∈ draftsOf es := List.mem_append_left _ ht
    refine ⟨t, hmem, ?_, husr.symm, fun hempty => ?_, hsymbol⟩
    · show ((d.target.or _).bind _).getD _ = _
      rw [htarget, Option.some_or, Option.bind_some, h.entities.cursorAtIndex?_eq hmem]
      rfl
    · exact absurd (husr.symm.trans hempty) (hkey hkind)

/-- Where a node is defined there is a symbol with its key. -/
theorem exists_definition (hd : d ∈ draftsOf es) {x : Cursor} (hx : u.definition d.cursor = some x) :
    ∃ r ∈ draftsOf es, x = r.cursor ∧ r.cursor.usr = d.cursor.usr ∧ d.cursor.usr ≠ "" ∧
      r.cursor.kind.isSymbol = true := by
  unfold CompilationUnit.definition at hx
  rw [h.entities.node?_eq hd, Option.bind_some] at hx
  obtain ⟨i, hi, hx⟩ := Option.bind_eq_some_iff.1 hx
  unfold link firstOf at hi
  dsimp only at hi
  split at hi
  · cases hi
  · next husr =>
    obtain ⟨f, hf, rfl⟩ := Option.map_eq_some_iff.1 hi
    have hfits := List.find?_some hf
    simp only [Bool.and_eq_true, decide_eq_true_eq] at hfits
    obtain ⟨r, hr, rfl⟩ := List.mem_map.1 (List.mem_of_find?_eq_some hf)
    rw [h.entities.cursorAtIndex?_eq hr] at hx
    exact ⟨r, hr, (Option.some.inj hx).symm, hfits.1.1, husr, hfits.1.2⟩

/-- The first declaration of a symbol is the first symbol with its key. -/
theorem canonical_eq (hd : d ∈ draftsOf es)
    (hsymbol : d.cursor.usr ≠ "" → d.cursor.kind.isSymbol = true) :
    u.canonical d.cursor = u.primary d.cursor := by
  have hcursors : u.cursors = (draftsOf es).map (·.cursor) := by
    unfold CompilationUnit.cursors
    rw [h.entities, List.map_map]
    rfl
  unfold CompilationUnit.canonical CompilationUnit.primary
  rw [h.entities.node?_eq hd, Option.bind_some, hcursors]
  unfold link firstOf
  dsimp only
  by_cases husr : d.cursor.usr = ""
  · rw [if_pos husr, if_pos husr, ite_self]
    rfl
  · rw [if_neg husr, if_neg husr, if_pos (hsymbol husr)]
    cases hfind : ((draftsOf es).map (·.cursor)).find?
        fun c => c.usr = d.cursor.usr && c.kind.isSymbol && true with
    | none => rfl
    | some f =>
      obtain ⟨r, hr, rfl⟩ := List.mem_map.1 (List.mem_of_find?_eq_some hfind)
      rw [Option.map_some, Option.bind_some, h.entities.cursorAtIndex?_eq hr]

/-- A symbol that stands for a node has the first declaration of the node. -/
theorem canonical_of_usr_eq {r : Draft} (hr : r ∈ draftsOf es)
    (husr : r.cursor.usr = d.cursor.usr) (hempty : d.cursor.usr = "" → r = d)
    (hsymbol : r.cursor.usr ≠ "" → r.cursor.kind.isSymbol = true) :
    u.canonical r.cursor = u.primary d.cursor := by
  rw [h.canonical_eq hr hsymbol]
  by_cases hkey : d.cursor.usr = ""
  · rw [hempty hkey]
  · rw [← husr] at hkey
    exact (u.primary_congr (h.mem_cursors_of_mem hr) (hsymbol hkey) hkey husr.symm).symm

/-- The first declaration of what a node refers to. -/
theorem canonical_referenced (hc : c ∈ u.cursors) :
    u.canonical ((u.referenced c).getD c) = u.primary c := by
  obtain ⟨d, hd, rfl⟩ := h.mem_cursors.1 hc
  obtain ⟨r, hr, hreferenced, husr, hempty, hsymbol⟩ := h.exists_referenced hd
  rw [hreferenced]
  exact h.canonical_of_usr_eq hr husr hempty hsymbol

/-- The first declaration of the definition of a node, or of what it refers to. -/
theorem canonical_target (hc : c ∈ u.cursors) :
    u.canonical (((u.definition c).or (u.referenced c)).getD c) = u.primary c := by
  cases hdefinition : u.definition c with
  | none =>
    rw [Option.none_or]
    exact h.canonical_referenced hc
  | some x =>
    rw [Option.some_or, Option.getD_some]
    obtain ⟨d, hd, rfl⟩ := h.mem_cursors.1 hc
    obtain ⟨r, hr, rfl, husr, hkey, hsymbol⟩ := h.exists_definition hd hdefinition
    exact h.canonical_of_usr_eq hr husr (fun hempty => absurd hempty hkey) fun _ => hsymbol

/-- A node with a key has a name, so it is named where it stands. -/
theorem nameLength_pos {n : Node} (hn : n ∈ u.nodes) (husr : n.cursor.usr ≠ "") :
    0 < n.nameLength := by
  obtain ⟨d, hd, rfl⟩ := h.entities.mem_nodes.1 hn
  rcases List.mem_append.1 hd with hd | hd
  · exact Nat.pos_of_ne_zero ((h.of_mem_numberAll hd).2.2.2 husr)
  · obtain ⟨d', hd', i, rfl⟩ := mem_renumber hd
    obtain ⟨w, hw, hdraft⟩ := List.mem_filterMap.1 hd'
    obtain ⟨_, _, -, -, -, -, -, hlength, -⟩ := exists_draft_of_draft? hdraft
    obtain ⟨e, he, huse, -⟩ := mem_usesOf hw
    show 0 < d'.nameLength
    rw [hlength]
    exact h.worded e he _ huse

/-! ## Visits -/

/-- The nodes of a unit of texts are a forest. -/
theorem isForest : u.IsForest where
  numbered i n hn := by
    rw [h.entities, List.getElem?_map] at hn
    obtain ⟨d, hd, rfl⟩ := Option.map_eq_some_iff.1 hn
    exact (numbered_draftsOf es i d hd).trans (Nat.zero_add i)
  parent_lt n hn p hp := by
    obtain ⟨d, hd, rfl⟩ := h.entities.mem_nodes.1 hn
    exact parent_lt_of_mem_draftsOf h.owned hd hp

/-- A visit sees every node. -/
theorem mem_preorder (hc : c ∈ u.cursors) : ∃ parent, (c, parent) ∈ u.preorder := by
  obtain ⟨n, hn, rfl⟩ := List.mem_map.1 hc
  exact h.isForest.mem_preorder hn

end LinkedUnit

end Model

end SketchSense
