import SketchSense.Cursor.Basic
import SketchSense.Model.Lexer

/-!
# Declarations of the model language

A list of tokens is cut into declarations: statements that end with a `;` and heads that a block in
braces follows. What a head declares is read off its tokens.

* `closing?`, the token that matches an opening one, and `Block`, what a brace opens;
* `declarations`, a list of tokens in declarations;
* `FunctionHead.read?`, the function that a statement or a head declares.
-/

namespace SketchSense.Model

/-! ## Matching -/

/-- Behind an opening mark: the tokens up to the mark that matches it, that one, and what follows.
`depth` marks have been opened since. -/
def closing? (opening close : Char) : Nat → List Token → Option (List Token × Token × List Token)
  | _, [] => none
  | depth, t :: ts =>
    let more (depth : Nat) := (closing? opening close depth ts).map
      fun (inside, last, rest) => (t :: inside, last, rest)
    if t.isMark opening then more (depth + 1)
    else if t.isMark close then
      match depth with
      | 0 => some ([], t, ts)
      | depth + 1 => more depth
    else more depth

theorem length_of_closing? {opening close : Char} {depth : Nat} {ts inside rest : List Token}
    {last : Token} (h : closing? opening close depth ts = some (inside, last, rest)) :
    ts.length = inside.length + 1 + rest.length := by
  induction ts generalizing depth inside with
  | nil => simp [closing?] at h
  | cons t ts ih =>
    simp only [closing?] at h
    split at h
    · obtain ⟨⟨i, l, r⟩, hi, heq⟩ := Option.map_eq_some_iff.1 h
      simp only [Prod.mk.injEq] at heq
      obtain ⟨rfl, rfl, rfl⟩ := heq
      have := ih hi
      simp only [List.length_cons]
      omega
    · split at h
      · split at h
        · simp only [Option.some.injEq, Prod.mk.injEq] at h
          obtain ⟨rfl, rfl, rfl⟩ := h
          simp only [List.length_cons, List.length_nil]
          omega
        · obtain ⟨⟨i, l, r⟩, hi, heq⟩ := Option.map_eq_some_iff.1 h
          simp only [Prod.mk.injEq] at heq
          obtain ⟨rfl, rfl, rfl⟩ := heq
          have := ih hi
          simp only [List.length_cons]
          omega
      · obtain ⟨⟨i, l, r⟩, hi, heq⟩ := Option.map_eq_some_iff.1 h
        simp only [Prod.mk.injEq] at heq
        obtain ⟨rfl, rfl, rfl⟩ := heq
        have := ih hi
        simp only [List.length_cons]
        omega

/-- What a brace opens. -/
structure Block where
  opening : Token
  /-- The tokens inside; a brace that is the last token of all has no inside. -/
  inside : Except Fault (List Token)
  /-- The token that closes the block. -/
  last : Token
  /-- What follows the block. -/
  after : List Token

/-- The block of a brace behind which `ts` stands. Without a matching brace the last token closes
it. -/
def Block.ofBrace (opening : Token) (ts : List Token) : Block :=
  match closing? '{' '}' 0 ts with
  | some (inside, last, after) => ⟨opening, .ok inside, last, after⟩
  | none =>
    match ts.getLast? with
    | some last => ⟨opening, .ok ts.dropLast, last, []⟩
    | none => ⟨opening, .error .openBlockAtEnd, opening, []⟩

theorem Block.length_after_le (opening : Token) (ts : List Token) :
    (Block.ofBrace opening ts).after.length ≤ ts.length := by
  unfold Block.ofBrace
  split
  · next h => have := length_of_closing? h; simp only; omega
  · split <;> simp

/-! ## Cutting -/

/-- A statement, or a head with its block. -/
structure Declaration where
  tokens : List Token
  block : Option Block

/-- An access label standing alone: `public`, `private` or `protected`. -/
def isAccessLabel : List Token → Bool
  | [t] => t.isWord "public" || t.isWord "private" || t.isWord "protected"
  | _ => false

/-- The declarations of a list of tokens. `head` holds the tokens since the last one ended; tokens
at the end that nothing ends are left out. In a record an access label with its colon says
nothing. -/
def declarationsFrom (inRecord : Bool) (head : List Token) : List Token → List Declaration
  | [] => []
  | t :: ts =>
    if inRecord ∧ t.isMark ':' ∧ isAccessLabel head then declarationsFrom inRecord [] ts
    else if t.isMark '{' then
      let block := Block.ofBrace t ts
      have := Block.length_after_le t ts
      ⟨head, some block⟩ :: declarationsFrom inRecord [] block.after
    else if t.isMark ';' then ⟨head, none⟩ :: declarationsFrom inRecord [] ts
    else declarationsFrom inRecord (head ++ [t]) ts
  termination_by ts => ts.length

def declarations (inRecord : Bool) (ts : List Token) : List Declaration :=
  declarationsFrom inRecord [] ts

/-! ## Function heads -/

/-- Words that stand before a parenthesis without being the name of a function. -/
def notNames : List String :=
  ["if", "while", "for", "switch", "return", "sizeof", "else", "do", "case"]

/-- Words that are no part of a type. -/
def storageWords : List String := ["static", "inline", "extern", "constexpr", "virtual"]

def Token.isStorage (t : Token) : Bool := storageWords.any t.isWord

/-- Tokens as a type is written, one space between. -/
def typeText (ts : List Token) : String := " ".intercalate (ts.map Token.text)

/-- The function that a head declares. -/
structure FunctionHead where
  name : Token
  resultType : String
  isStatic : Bool
  isVariadic : Bool
  parameters : List Parameter
  /-- The tokens behind the name. -/
  rest : List Token

/-- Cuts tokens at the commas that stand in no parenthesis. -/
def splitCommas (depth : Nat) (current : List Token) : List Token → List (List Token)
  | [] => [current]
  | t :: ts =>
    if t.isMark ',' ∧ depth = 0 then current :: splitCommas 0 [] ts
    else
      let depth :=
        if t.isMark '(' then depth + 1 else if t.isMark ')' then depth - 1 else depth
      splitCommas depth (current ++ [t]) ts

/-- A parameter as it is written: a type and a name, or a type alone. -/
def parameter? (ts : List Token) : Option Parameter :=
  match ts.getLast?.bind Token.word? with
  | some name =>
    if ts.length ≥ 2 then some ⟨typeText ts.dropLast, name⟩
    else if name = "void" then none
    else some ⟨name, ""⟩
  | none => if ts = [] then none else some ⟨typeText ts, ""⟩

def isEllipsis (ts : List Token) : Bool := ts.map (·.lexeme) = [.ellipsis]

/-- The tokens of every parameter of a list in parentheses; none if it is not closed. -/
def parameterTokens (ts : List Token) : List (List Token) :=
  match closing? '(' ')' 0 ts with
  | some (inside, _, _) => splitCommas 0 [] inside
  | none => []

/-- Reads a head: a type, a name and a parenthesis, with no `=` before the name. -/
def FunctionHead.read? (ts : List Token) : Option FunctionHead :=
  let before := ts.takeWhile (!·.isMark '(')
  match ts.drop before.length, before.getLast? with
  | _ :: rest, some name =>
    let types := before.dropLast
    let result := types.filter (!·.isStorage)
    match name.word? with
    | none => none
    | some word =>
      if word ∈ notNames ∨ types.any (·.isMark '=') ∨ result = [] then none
      else
        let pieces := parameterTokens rest
        some {
          name
          resultType := typeText result
          isStatic := types.any (·.isWord "static")
          isVariadic := pieces.any isEllipsis
          parameters := (pieces.filter (!isEllipsis ·)).filterMap parameter?
          rest := ts.drop before.length }
  | _, _ => none

end SketchSense.Model
