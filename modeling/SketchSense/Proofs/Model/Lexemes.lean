import SketchSense.Model.Declaration
import SketchSense.Proofs.Model.Places

/-!
# Reading tokens back

A token that is written out is read back as what it was, as long as something follows that cannot
become part of it. Texts are built from their end, so each lemma adds one token in front.

* `Lexeme.IsRead`, what the lexer can make of a text, with `Cuts.isRead`;
* `Reads`, that a text within a line is read as some lexemes before any delimiter;
* `reads_token`, `reads_typeText` and `reads_intercalate`, how such texts are built.
-/

namespace SketchSense.Model

/-! ## What can be read -/

/-- What the lexer can make of a text. -/
def Lexeme.IsRead : Lexeme → Prop
  | .word s => ∃ c cs, s = String.ofList (c :: cs) ∧ isWordStart c = true ∧
      ∀ d ∈ cs, isWordPart d = true
  | .mark c => c ≠ '\n' ∧ isSpace c = false ∧ ¬ (c = '"' ∨ c = '\'') ∧ isWordStart c = false ∧
      c.isDigit = false ∧ isAscii c = true
  | .ellipsis | .literal => True

theorem isRead_of_front {b : Bool} {c : Char} {cs : List Char} {kind : PieceKind} {split : Split}
    (h : front b c cs = .ok (kind, split)) {x : Lexeme}
    (hx : Piece.lexeme? ⟨kind, c :: split.1⟩ = some x) : x.IsRead := by
  unfold front at h
  by_cases hnewline : c = '\n'
  · rw [if_pos hnewline] at h
    cases h
    cases hx
  rw [if_neg hnewline] at h
  by_cases hspace : isSpace c = true
  · rw [if_pos hspace] at h
    cases h
    cases hx
  rw [if_neg hspace] at h
  split at h
  · cases h
    cases hx
  split at h
  · cases h
    cases hx
  split at h
  · cases h
    cases hx
  by_cases hquote : c = '"' ∨ c = '\''
  · rw [if_pos hquote] at h
    cases h
    cases hx
    trivial
  rw [if_neg hquote] at h
  by_cases hword : isWordStart c = true
  · rw [if_pos hword] at h
    cases h
    cases hx
    have hall := List.all_takeWhile (p := isWordPart) (l := cs)
    exact ⟨c, _, rfl, hword, List.all_eq_true.1 hall⟩
  rw [if_neg hword] at h
  by_cases hdigit : c.isDigit = true
  · rw [if_pos hdigit] at h
    cases h
    cases hx
    trivial
  rw [if_neg hdigit] at h
  split at h
  · cases h
    cases hx
    trivial
  · by_cases hascii : isAscii c = true
    · rw [if_pos hascii] at h
      cases h
      cases hx
      exact ⟨hnewline, by simpa using hspace, hquote, by simpa using hword, by simpa using hdigit,
        hascii⟩
    · rw [if_neg hascii] at h
      cases h

/-- Pieces that are cut off a text are what the lexer can make of it. -/
theorem Cuts.isRead {b b' : Bool} {s rest : List Char} {ps : List Piece} (h : Cuts b s ps b' rest)
    {p : Piece} (hp : p ∈ ps) {x : Lexeme} (hx : p.lexeme? = some x) : x.IsRead := by
  induction h with
  | done => simp at hp
  | piece hfront _ ih =>
    rcases List.mem_cons.1 hp with rfl | hp
    · exact isRead_of_front hfront hx
    · exact ih hp

/-- A token is what the lexer can make of a text, and a mark is one of its characters. -/
theorem isRead_of_mem_tokens {code : String} {lx : Lexed} (hlex : lex code = .ok lx) {t : Token}
    (ht : t ∈ lx.tokens) :
    t.lexeme.IsRead ∧ ∀ c, t.lexeme = .mark c → c ∈ code.toList := by
  obtain ⟨ps, b, hcuts, rfl⟩ := exists_cuts_of_lex hlex
  obtain ⟨e, he, het⟩ := List.mem_filterMap.1 ht
  obtain ⟨lexeme, hlexeme, rfl⟩ := exists_piece_of_token? het
  have hmem := (le_of_mem_placed he).2.2
  refine ⟨hcuts.isRead hmem hlexeme, ?_⟩
  rintro c rfl
  rw [hcuts.text_eq, List.append_nil]
  refine List.mem_flatMap.2 ⟨e.2, hmem, ?_⟩
  unfold Piece.lexeme? at hlexeme
  split at hlexeme
  any_goals cases hlexeme
  next htext =>
    rw [htext]
    exact List.mem_cons_self

/-! ## Before a delimiter -/

/-- Characters that end what stands before them. -/
def isDelimiter (c : Char) : Bool := c == ' ' || c == '(' || c == ')' || c == ',' || c == ';'

/-- A text that starts with a delimiter. -/
def Delimited (s : List Char) : Prop := ∃ d rest, s = d :: rest ∧ isDelimiter d = true

/-- The text, behind something on its line and before a delimiter, is read as the lexemes. -/
def Reads (s : List Char) (xs : List Lexeme) : Prop :=
  ∀ X, Delimited X → ∃ ps, Cuts false (s ++ X) ps false X ∧ ps.filterMap Piece.lexeme? = xs ∧
    ∀ p ∈ ps, p.kind ≠ .directive

theorem Reads.piece {s t : List Char} {xs : List Lexeme} {p : Piece} {c : Char} {cs : List Char}
    (hp : p.text = c :: cs) (hfalse : p.kind.lineStartAfter false = false)
    (hdirective : p.kind ≠ .directive) (ht : t = p.text ++ s) (hs : Reads s xs)
    (hfront : ∀ X, Delimited X → front false c (cs ++ (s ++ X)) = .ok (p.kind, cs, s ++ X)) :
    Reads t (p.lexeme?.toList ++ xs) := by
  intro X hX
  obtain ⟨ps, hcuts, hlexemes, hnone⟩ := hs X hX
  refine ⟨p :: ps, ?_, ?_, ?_⟩
  · obtain ⟨kind, text⟩ := p
    simp only at hp hfalse hfront ht
    subst hp ht
    rw [List.append_assoc]
    refine .piece (x := (cs, s ++ X)) (hfront X hX) ?_
    rw [hfalse]
    exact hcuts
  · rw [List.filterMap_cons, hlexemes]
    cases p.lexeme? <;> rfl
  · intro q hq
    rcases List.mem_cons.1 hq with rfl | hq
    · exact hdirective
    · exact hnone q hq

end SketchSense.Model
