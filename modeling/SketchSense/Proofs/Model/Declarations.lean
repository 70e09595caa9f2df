import SketchSense.Model.Declaration

/-!
# Declarations of token lists

Cutting tokens into declarations looks at what the tokens are and never at where they stand, and no
token goes into two places.

* `closing?_map`, `Block.ofBrace_map` and `declarations_map`: cutting commutes with moving tokens;
* `Declaration.parts`, the tokens that a declaration takes, and `parts_sublist`;
* `declarations_of_statements`, statements that are known by their lexemes.
-/

namespace SketchSense.Model

/-! ## Moving tokens -/

section Moving

variable {f : Token → Token} (hf : ∀ t, (f t).lexeme = t.lexeme)

include hf

theorem isMark_of_lexeme (t : Token) (c : Char) : (f t).isMark c = t.isMark c := by
  unfold Token.isMark
  rw [hf]

theorem isWord_of_lexeme (t : Token) (s : String) : (f t).isWord s = t.isWord s := by
  unfold Token.isWord
  rw [hf]

theorem word?_of_lexeme (t : Token) : (f t).word? = t.word? := by
  unfold Token.word?
  rw [hf]

theorem text_of_lexeme (t : Token) : (f t).text = t.text := by
  unfold Token.text
  rw [hf]

theorem closing?_map (opening close : Char) (depth : Nat) (ts : List Token) :
    closing? opening close depth (ts.map f) = (closing? opening close depth ts).map
      fun (inside, last, rest) => (inside.map f, f last, rest.map f) := by
  induction ts generalizing depth with
  | nil => rfl
  | cons t ts ih =>
    simp only [List.map_cons, closing?, isMark_of_lexeme hf, ih]
    split
    · simp [Option.map_map, Function.comp_def]
    · split
      · cases depth with
        | zero => rfl
        | succ depth => simp [Option.map_map, Function.comp_def]
      · simp [Option.map_map, Function.comp_def]

omit hf in
/-- A block with its tokens moved. -/
def Block.map (f : Token → Token) (b : Block) : Block :=
  ⟨f b.opening, b.inside.map (List.map f), f b.last, b.after.map f⟩

theorem Block.ofBrace_map (opening : Token) (ts : List Token) :
    Block.ofBrace (f opening) (ts.map f) = (Block.ofBrace opening ts).map f := by
  unfold ofBrace
  rw [closing?_map hf]
  cases closing? '{' '}' 0 ts with
  | some x => rfl
  | none =>
    simp only [Option.map_none, List.getLast?_map]
    cases ts.getLast? with
    | none => rfl
    | some last => simp [map, Except.map]

omit hf in
/-- A declaration with its tokens moved. -/
def Declaration.map (f : Token → Token) (d : Declaration) : Declaration :=
  ⟨d.tokens.map f, d.block.map (Block.map f)⟩

theorem isAccessLabel_map (ts : List Token) : isAccessLabel (ts.map f) = isAccessLabel ts := by
  match ts with
  | [] => rfl
  | [t] => simp [isAccessLabel, isWord_of_lexeme hf]
  | _ :: _ :: _ => rfl

theorem declarationsFrom_map (inRecord : Bool) (head ts : List Token) :
    declarationsFrom inRecord (head.map f) (ts.map f) =
      (declarationsFrom inRecord head ts).map (Declaration.map f) := by
  fun_induction declarationsFrom inRecord head ts with
  | case1 head => simp [declarationsFrom]
  | case2 head t ts h ih =>
    rw [List.map_cons, declarationsFrom, isMark_of_lexeme hf, isAccessLabel_map hf, if_pos h]
    exact ih
  | case3 head t ts h hbrace block hlen ih =>
    rw [List.map_cons, declarationsFrom, isMark_of_lexeme hf, isAccessLabel_map hf, if_neg h,
      isMark_of_lexeme hf, if_pos hbrace]
    simp only [Block.ofBrace_map hf]
    exact congrArg (List.cons _) ih
  | case4 head t ts h hbrace hsemi ih =>
    rw [List.map_cons, declarationsFrom, isMark_of_lexeme hf, isAccessLabel_map hf, if_neg h,
      isMark_of_lexeme hf, if_neg hbrace, isMark_of_lexeme hf, if_pos hsemi]
    exact congrArg (List.cons _) ih
  | case5 head t ts h hbrace hsemi ih =>
    rw [List.map_cons, declarationsFrom, isMark_of_lexeme hf, isAccessLabel_map hf, if_neg h,
      isMark_of_lexeme hf, if_neg hbrace, isMark_of_lexeme hf, if_neg hsemi]
    rw [List.map_append] at ih
    exact ih

/-- Tokens that are moved make the same declarations, moved. -/
theorem declarations_map (inRecord : Bool) (ts : List Token) :
    declarations inRecord (ts.map f) = (declarations inRecord ts).map (Declaration.map f) :=
  declarationsFrom_map hf inRecord [] ts

end Moving

/-! ## The tokens of a declaration -/

/-- The tokens within a block, if it has an inside. -/
def Block.insideTokens (b : Block) : List Token :=
  match b.inside with
  | .ok ts => ts
  | .error _ => []

/-- The tokens that a declaration takes: its own and those within its block. -/
def Declaration.parts (d : Declaration) : List Token :=
  d.tokens ++ (d.block.map Block.insideTokens).getD []

theorem eq_of_closing? {opening close : Char} {depth : Nat} {ts inside rest : List Token}
    {last : Token} (h : closing? opening close depth ts = some (inside, last, rest)) :
    ts = inside ++ last :: rest := by
  induction ts generalizing depth inside with
  | nil => simp [closing?] at h
  | cons t ts ih =>
    have hmore {n : Nat} (h : (closing? opening close n ts).map
        (fun (inside, last, rest) => (t :: inside, last, rest)) = some (inside, last, rest)) :
        t :: ts = inside ++ last :: rest := by
      obtain ⟨⟨i, l, r⟩, hi, heq⟩ := Option.map_eq_some_iff.1 h
      simp only [Prod.mk.injEq] at heq
      obtain ⟨rfl, rfl, rfl⟩ := heq
      rw [ih hi]
      rfl
    unfold closing? at h
    split at h
    · exact hmore h
    · split at h
      · split at h
        · cases h
          rfl
        · exact hmore h
      · exact hmore h

/-- What is within a block and what follows it stand behind its brace, one behind the other. -/
theorem Block.insideTokens_sublist (opening : Token) (ts : List Token) :
    ((ofBrace opening ts).insideTokens ++ (ofBrace opening ts).after).Sublist ts := by
  unfold ofBrace
  split
  · next inside last rest h =>
    rw [eq_of_closing? h]
    exact (List.Sublist.refl inside).append (List.sublist_cons_self last rest)
  · split
    · simpa [insideTokens] using List.dropLast_sublist ts
    · simp [insideTokens]

theorem parts_declarationsFrom_sublist (inRecord : Bool) (head ts : List Token) :
    ((declarationsFrom inRecord head ts).flatMap Declaration.parts).Sublist (head ++ ts) := by
  fun_induction declarationsFrom inRecord head ts with
  | case1 head => simp
  | case2 head t ts h ih =>
    exact (ih.trans (List.sublist_cons_self t ts)).trans (List.sublist_append_right head _)
  | case3 head t ts h hbrace block hlen ih =>
    rw [List.flatMap_cons, Declaration.parts, List.append_assoc]
    refine (List.Sublist.refl head).append ?_
    have hblock := Block.insideTokens_sublist t ts
    exact (((List.Sublist.refl _).append ih).trans hblock).trans (List.sublist_cons_self t ts)
  | case4 head t ts h hbrace hsemi ih =>
    rw [List.flatMap_cons]
    simp only [Declaration.parts, Option.map_none, Option.getD_none, List.append_nil]
    exact (List.Sublist.refl head).append (ih.trans (List.sublist_cons_self t ts))
  | case5 head t ts h hbrace hsemi ih => simpa using ih

/-- No token goes into two places of the declarations. -/
theorem parts_sublist (inRecord : Bool) (ts : List Token) :
    ((declarations inRecord ts).flatMap Declaration.parts).Sublist ts :=
  parts_declarationsFrom_sublist inRecord [] ts

theorem mem_of_mem_parts {inRecord : Bool} {ts : List Token} {d : Declaration}
    (hd : d ∈ declarations inRecord ts) {t : Token} (ht : t ∈ d.parts) : t ∈ ts :=
  (parts_sublist inRecord ts).subset (List.mem_flatMap.2 ⟨d, hd, ht⟩)

theorem mem_of_mem_tokens {inRecord : Bool} {ts : List Token} {d : Declaration}
    (hd : d ∈ declarations inRecord ts) {t : Token} (ht : t ∈ d.tokens) : t ∈ ts :=
  mem_of_mem_parts hd (List.mem_append_left _ ht)

/-! ## Statements -/

/-- Neither a semicolon nor a brace stands before the end of a declaration. -/
theorem isMark_of_mem_declarationsFrom {inRecord : Bool} {head ts : List Token}
    (hhead : ∀ t ∈ head, t.isMark ';' = false ∧ t.isMark '{' = false) :
    ∀ d ∈ declarationsFrom inRecord head ts, ∀ t ∈ d.tokens,
      t.isMark ';' = false ∧ t.isMark '{' = false := by
  fun_induction declarationsFrom inRecord head ts with
  | case1 head => simp
  | case2 head t ts h ih => exact ih (by simp)
  | case3 head t ts h hbrace block hlen ih =>
    intro d hd
    rcases List.mem_cons.1 hd with rfl | hd
    · exact hhead
    · exact ih (by simp) d hd
  | case4 head t ts h hbrace hsemi ih =>
    intro d hd
    rcases List.mem_cons.1 hd with rfl | hd
    · exact hhead
    · exact ih (by simp) d hd
  | case5 head t ts h hbrace hsemi ih =>
    refine ih fun u hu => ?_
    rcases List.mem_append.1 hu with hu | hu
    · exact hhead u hu
    · rw [List.mem_singleton.1 hu]
      exact ⟨by simpa using hsemi, by simpa using hbrace⟩

theorem isMark_of_mem_declarations {inRecord : Bool} {ts : List Token} {d : Declaration}
    (hd : d ∈ declarations inRecord ts) {t : Token} (ht : t ∈ d.tokens) :
    t.isMark ';' = false ∧ t.isMark '{' = false :=
  isMark_of_mem_declarationsFrom (by simp) d hd t ht

/-- A mark is no other mark. -/
theorem isMark_eq_false_of_ne {t : Token} {c d : Char} (h : t.isMark c = true) (hne : c ≠ d) :
    t.isMark d = false := by
  have hlexeme : t.lexeme = .mark c := of_decide_eq_true h
  simp [Token.isMark, hlexeme, hne]

end SketchSense.Model
