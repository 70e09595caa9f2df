import SketchSense.Proofs.Model.Declarations

/-!
# Heads of functions

A head is a type, a name and an opening parenthesis; everything that is read off it follows from
these three and from what stands behind.

* `IsHead` and `FunctionHead.ofParts`, with `read?_eq_some_iff`: what is read are heads;
* `FunctionHead.read?_map`: moving tokens moves the name and keeps the rest;
* `definedHeads`, the functions that a list of tokens defines.
-/

namespace SketchSense.Model

/-! ## What a head is -/

/-- Types, a name and an opening parenthesis make the start of a head. -/
structure IsHead (types : List Token) (name paren : Token) : Prop where
  opens : paren.isMark '(' = true
  plain : ∀ t ∈ types, t.isMark '(' = false ∧ t.isMark '=' = false
  named : ∃ word, name.word? = some word ∧ word ∉ notNames
  typed : types.filter (!·.isStorage) ≠ []

/-- The function that types, a name and what follows the parenthesis declare. -/
def FunctionHead.ofParts (types : List Token) (name paren : Token) (rest : List Token) :
    FunctionHead :=
  let pieces := parameterTokens rest
  { name
    resultType := typeText (types.filter (!·.isStorage))
    isStatic := types.any (·.isWord "static")
    isVariadic := pieces.any isEllipsis
    parameters := (pieces.filter (!isEllipsis ·)).filterMap Model.parameter?
    rest := paren :: rest }

theorem IsHead.not_isMark {types : List Token} {name paren : Token} (h : IsHead types name paren) :
    name.isMark '(' = false := by
  obtain ⟨word, hword, -⟩ := h.named
  unfold Token.word? at hword
  unfold Token.isMark
  cases hlexeme : name.lexeme <;> simp_all

theorem IsHead.takeWhile_eq {types : List Token} {name paren : Token} (h : IsHead types name paren)
    (rest : List Token) :
    (types ++ name :: paren :: rest).takeWhile (!·.isMark '(') = types ++ [name] := by
  rw [List.takeWhile_append_of_pos fun t ht => by simp [(h.plain t ht).1],
    List.takeWhile_cons_of_pos (by simp [h.not_isMark]),
    List.takeWhile_cons_of_neg (by simp [h.opens])]

/-- What is read off tokens is a head at their start. -/
theorem FunctionHead.read?_eq_some_iff {ts : List Token} {h : FunctionHead} :
    read? ts = some h ↔ ∃ types name paren rest, IsHead types name paren ∧
      ts = types ++ name :: paren :: rest ∧ h = ofParts types name paren rest := by
  constructor
  · intro hread
    unfold read? at hread
    dsimp only at hread
    have hwhole : ts.takeWhile (!·.isMark '(') ++ ts.dropWhile (!·.isMark '(') = ts :=
      List.takeWhile_append_dropWhile
    have hbefore := List.all_takeWhile (p := fun t : Token => !t.isMark '(') (l := ts)
    have hbehind := List.head?_dropWhile_not (fun t : Token => !t.isMark '(') ts
    generalize ts.takeWhile (!·.isMark '(') = before at hread hwhole hbefore
    generalize ts.dropWhile (!·.isMark '(') = behind at hwhole hbehind
    subst hwhole
    rw [List.drop_left] at hread
    split at hread
    · next paren rest name hname =>
      obtain ⟨types, rfl⟩ := List.getLast?_eq_some_iff.1 hname
      rw [List.dropLast_concat] at hread
      split at hread
      · cases hread
      · next word hword =>
        split at hread
        · cases hread
        · next hgood =>
          rw [not_or, not_or] at hgood
          obtain ⟨hmem, hequals, htyped⟩ := hgood
          refine ⟨types, name, paren, rest, ⟨?_, ?_, ⟨word, hword, hmem⟩, htyped⟩, by simp,
            (Option.some.inj hread).symm⟩
          · simpa using hbehind
          · intro t ht
            rw [List.all_eq_true] at hbefore
            have hparen := hbefore t (List.mem_append_left _ ht)
            have heq : t.isMark '=' ≠ true := fun h => hequals (List.any_eq_true.2 ⟨t, ht, h⟩)
            exact ⟨by simpa using hparen, by simpa using heq⟩
    · cases hread
  · rintro ⟨types, name, paren, rest, hhead, rfl, rfl⟩
    obtain ⟨word, hword, hname⟩ := hhead.named
    have hany : (types.any (·.isMark '=')) = false := by
      rw [List.any_eq_false]
      intro t ht
      simp [(hhead.plain t ht).2]
    have hdrop : (types ++ name :: paren :: rest).drop (types ++ [name]).length = paren :: rest := by
      simp
    unfold read?
    dsimp only
    rw [hhead.takeWhile_eq rest, hdrop, List.getLast?_concat]
    dsimp only
    rw [hword]
    dsimp only
    rw [List.dropLast_concat, if_neg]
    · rfl
    · rintro (hmem | heq | hnil)
      · exact hname hmem
      · simp [hany] at heq
      · exact hhead.typed hnil

/-- The name of a head stands among its tokens, and so does all that is behind it. -/
theorem FunctionHead.mem_of_read? {ts : List Token} {h : FunctionHead} (hread : read? ts = some h) :
    h.name ∈ ts ∧ (∀ t ∈ h.rest, t ∈ ts) ∧ ∃ word, h.name.word? = some word ∧ word ∉ notNames := by
  obtain ⟨types, name, paren, rest, hhead, rfl, rfl⟩ := read?_eq_some_iff.1 hread
  refine ⟨by simp [ofParts], fun t ht => ?_, hhead.named⟩
  exact List.mem_append_right _ (List.mem_cons_of_mem _ ht)

theorem typeText_singleton (t : Token) : typeText [t] = t.text := by simp [typeText]

/-! ## Moving tokens -/

section Moving

variable {f : Token → Token} (hf : ∀ t, (f t).lexeme = t.lexeme)

include hf

theorem typeText_map (ts : List Token) : typeText (ts.map f) = typeText ts := by
  unfold typeText
  rw [List.map_map]
  congr 1
  exact List.map_congr_left fun t _ => text_of_lexeme hf t

theorem isStorage_of_lexeme (t : Token) : (f t).isStorage = t.isStorage := by
  unfold Token.isStorage
  congr 1
  funext s
  exact isWord_of_lexeme hf t s

theorem isEllipsis_map (ts : List Token) : isEllipsis (ts.map f) = isEllipsis ts := by
  unfold isEllipsis
  rw [List.map_map]
  simp [Function.comp_def, hf]

theorem parameter?_map (ts : List Token) : parameter? (ts.map f) = parameter? ts := by
  have hword : Token.word? ∘ f = Token.word? := funext fun t => word?_of_lexeme hf t
  unfold parameter?
  rw [List.getLast?_map, Option.bind_map, hword, ← List.map_dropLast, typeText_map hf,
    typeText_map hf]
  simp

theorem splitCommas_map (depth : Nat) (current ts : List Token) :
    splitCommas depth (current.map f) (ts.map f) =
      (splitCommas depth current ts).map (List.map f) := by
  induction ts generalizing depth current with
  | nil => rfl
  | cons t ts ih =>
    simp only [List.map_cons, splitCommas, isMark_of_lexeme hf]
    split
    · have hnil := ih 0 []
      rw [List.map_nil] at hnil
      rw [hnil]
      rfl
    · have hmore := ih (if t.isMark '(' then depth + 1 else if t.isMark ')' then depth - 1 else depth)
        (current ++ [t])
      rw [List.map_append] at hmore
      exact hmore

theorem parameterTokens_map (ts : List Token) :
    parameterTokens (ts.map f) = (parameterTokens ts).map (List.map f) := by
  unfold parameterTokens
  rw [closing?_map hf]
  cases closing? '(' ')' 0 ts with
  | none => rfl
  | some x => exact splitCommas_map hf 0 [] x.1

omit hf in
/-- A function with its tokens moved. -/
def FunctionHead.map (f : Token → Token) (h : FunctionHead) : FunctionHead :=
  { h with name := f h.name, rest := h.rest.map f }

theorem FunctionHead.ofParts_map (types : List Token) (name paren : Token) (rest : List Token) :
    ofParts (types.map f) (f name) (f paren) (rest.map f) = (ofParts types name paren rest).map f := by
  have hfilter : (types.map f).filter (!·.isStorage) = (types.filter (!·.isStorage)).map f := by
    rw [List.filter_map]
    simp [Function.comp_def, isStorage_of_lexeme hf]
  unfold ofParts map
  simp only [hfilter, typeText_map hf, parameterTokens_map hf, List.any_map, List.filter_map,
    List.filterMap_map, Function.comp_def, isEllipsis_map hf, parameter?_map hf,
    isWord_of_lexeme hf, List.map_cons]

theorem isHead_map {types : List Token} {name paren : Token} :
    IsHead (types.map f) (f name) (f paren) ↔ IsHead types name paren := by
  have hfilter : (types.map f).filter (!·.isStorage) = (types.filter (!·.isStorage)).map f := by
    rw [List.filter_map]
    simp [Function.comp_def, isStorage_of_lexeme hf]
  constructor
  · rintro ⟨hopens, hplain, hnamed, htyped⟩
    refine ⟨by rwa [isMark_of_lexeme hf] at hopens, fun t ht => ?_, ?_, ?_⟩
    · simpa [isMark_of_lexeme hf] using hplain (f t) (List.mem_map_of_mem ht)
    · simpa [word?_of_lexeme hf] using hnamed
    · simpa [hfilter] using htyped
  · rintro ⟨hopens, hplain, hnamed, htyped⟩
    refine ⟨by rwa [isMark_of_lexeme hf], fun t ht => ?_, ?_, ?_⟩
    · obtain ⟨u, hu, rfl⟩ := List.mem_map.1 ht
      simpa [isMark_of_lexeme hf] using hplain u hu
    · simpa [word?_of_lexeme hf] using hnamed
    · simpa [hfilter] using htyped

/-- Tokens that are moved declare the same function, moved. -/
theorem FunctionHead.read?_map (ts : List Token) :
    read? (ts.map f) = (read? ts).map (FunctionHead.map f) := by
  cases hread : read? ts with
  | some h =>
    obtain ⟨types, name, paren, rest, hhead, rfl, rfl⟩ := read?_eq_some_iff.1 hread
    refine read?_eq_some_iff.2 ⟨types.map f, f name, f paren, rest.map f, (isHead_map hf).2 hhead,
      by simp, (ofParts_map hf ..).symm⟩
  | none =>
    cases hread' : read? (ts.map f) with
    | none => rfl
    | some h' =>
      obtain ⟨types', name', paren', rest', hhead, hts, -⟩ := read?_eq_some_iff.1 hread'
      obtain ⟨types, behind, rfl, rfl, hbehind⟩ := List.map_eq_append_iff.1 hts
      obtain ⟨name, behind', rfl, rfl, hbehind'⟩ := List.map_eq_cons_iff.1 hbehind
      obtain ⟨paren, rest, rfl, rfl, -⟩ := List.map_eq_cons_iff.1 hbehind'
      have hsome := read?_eq_some_iff.2 ⟨types, name, paren, rest, (isHead_map hf).1 hhead, rfl, rfl⟩
      rw [hread] at hsome
      cases hsome

end Moving

/-! ## Defined functions -/

/-- The function that a declaration defines. -/
def Declaration.defined? (d : Declaration) : Option FunctionHead :=
  d.block.bind fun _ => FunctionHead.read? d.tokens

/-- The functions that a list of tokens defines, in order. -/
def definedHeads (ts : List Token) : List FunctionHead :=
  (declarations false ts).filterMap Declaration.defined?

theorem Declaration.defined?_map {f : Token → Token} (hf : ∀ t, (f t).lexeme = t.lexeme)
    (d : Declaration) : (d.map f).defined? = d.defined?.map (FunctionHead.map f) := by
  simp only [defined?, map, FunctionHead.read?_map hf]
  cases d.block with
  | none => rfl
  | some b => rfl

/-- The name of a defined function is one of the tokens. -/
theorem name_mem_of_mem_definedHeads {ts : List Token} {h : FunctionHead}
    (hh : h ∈ definedHeads ts) : h.name ∈ ts := by
  obtain ⟨d, hd, hdefined⟩ := List.mem_filterMap.1 hh
  obtain ⟨b, -, hread⟩ := Option.bind_eq_some_iff.1 hdefined
  exact mem_of_mem_tokens hd (FunctionHead.mem_of_read? hread).1

end SketchSense.Model
