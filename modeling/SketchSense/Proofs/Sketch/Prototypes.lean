import SketchSense.Model.Entity
import SketchSense.Proofs.Model.Heads
import SketchSense.Proofs.Model.Lexemes
import SketchSense.Proofs.Model.Matching
import SketchSense.Sketch.Definition

/-!
# Prototypes are read back

The prototype of a function is written from the tokens of its head, token by token, so the engine
reads it as the head of a function with the same signature: storage words, empty parameters and
`void` are not written, and an ellipsis is written last, but none of them is read in another way.

* `Signature`, what a prototype says of a function;
* `Lexeme.IsPlain`, the tokens that can stand in a prototype, and `declaration_of_parameter?`, a
  parameter as it is written;
* `writtenArguments` and `FunctionHead.written`, the tokens of a prototype, with `read?_written`,
  that they are the head of a function with the same signature;
* `FunctionHead.definition`, what is scanned of a function, and `reads_prototype`.
-/

namespace SketchSense

/-- What a prototype says of a function. -/
structure Signature where
  spelling : String
  resultType : String
  parameters : List Parameter
  isStatic : Bool
  isVariadic : Bool
  deriving DecidableEq, Repr

def Cursor.toSignature (c : Cursor) : Signature :=
  ⟨c.spelling, c.resultType, c.parameters, c.isStatic, c.isVariadic⟩

namespace Model

/-! ## Characters of tokens -/

theorem isBlank_of_isWordPart {c : Char} (h : isWordPart c = true) : Text.isBlank c = false := by
  change (((decide (c.val ≥ 'A'.val ∧ c.val ≤ 'Z'.val) || (c.val ≥ 'a'.val && c.val ≤ 'z'.val))
    || (c.val ≥ '0'.val && c.val ≤ '9'.val)) || c == '_') = true at h
  simp only [Bool.or_eq_true, Bool.and_eq_true, decide_eq_true_eq, beq_iff_eq,
    UInt32.le_iff_toNat_le, ge_iff_le] at h
  have hval : c.val.toNat = c.toNat := rfl
  rcases h with h | rfl
  · simp only [Text.isBlank, Bool.or_eq_false_iff, Bool.and_eq_false_iff, decide_eq_false_iff_not,
      beq_eq_false_iff_ne]
    simp at h
    omega
  · decide

theorem isWordPart_of_isWordStart {c : Char} (h : isWordStart c = true) : isWordPart c = true := by
  simp only [isWordStart, Bool.or_eq_true] at h
  simp only [isWordPart, Char.isAlphanum, Bool.or_eq_true]
  exact h.imp_left .inl

/-- Among the blank characters only the vertical tab can be a mark. -/
theorem isBlank_of_isRead_mark {c : Char} (h : (Lexeme.mark c).IsRead) (htab : c ≠ '\x0b') :
    Text.isBlank c = false := by
  obtain ⟨hnewline, hspace, -, -, -, hascii⟩ := h
  have hne (d : Char) (hd : c ≠ d) : c.toNat ≠ d.toNat := fun heq => hd (Char.toNat_inj.1 heq)
  simp only [isSpace, Bool.or_eq_false_iff, beq_eq_false_iff_ne, ne_eq] at hspace
  obtain ⟨⟨⟨hblank, htabulator⟩, hreturn⟩, hfeed⟩ := hspace
  have h₁ := hne _ hblank
  have h₂ := hne _ htabulator
  have h₃ := hne _ hreturn
  have h₄ := hne _ hfeed
  have h₅ := hne _ hnewline
  have h₆ := hne _ htab
  simp only [isAscii, decide_eq_true_eq] at hascii
  simp only [Text.isBlank, Bool.or_eq_false_iff, Bool.and_eq_false_iff, decide_eq_false_iff_not,
    beq_eq_false_iff_ne]
  simp at h₁ h₂ h₃ h₄ h₅ h₆
  omega

/-! ## Texts of tokens -/

/-- A token that can stand in a prototype: it ends nothing and is not blank. -/
structure Lexeme.IsPlain (x : Lexeme) : Prop where
  isRead : x.IsRead
  ne_semicolon : x ≠ .mark ';'
  ne_brace : x ≠ .mark '{'
  ne_tab : x ≠ .mark '\x0b'

theorem mem_of_mem_splitCommas {depth : Nat} {current ts piece : List Token}
    (h : piece ∈ splitCommas depth current ts) {t : Token} (ht : t ∈ piece) :
    t ∈ current ++ ts := by
  induction ts generalizing depth current with
  | nil =>
    rw [splitCommas, List.mem_singleton] at h
    simpa [h] using ht
  | cons u us ih =>
    unfold splitCommas at h
    split at h
    · rcases List.mem_cons.1 h with rfl | h
      · exact List.mem_append_left _ ht
      · exact List.mem_append_right _ (List.mem_cons_of_mem _ (by simpa using ih h))
    · simpa using ih h

theorem mem_of_mem_parameterTokens {ts piece : List Token} (h : piece ∈ parameterTokens ts)
    {t : Token} (ht : t ∈ piece) : t ∈ ts := by
  unfold parameterTokens at h
  split at h
  · next inside last rest hclosing =>
    rw [eq_of_closing? hclosing]
    exact List.mem_append_left _ (by simpa using mem_of_mem_splitCommas h ht)
  · simp at h

/-- A token that is not looked up in a text. -/
def Lexeme.token (x : Lexeme) : Token := ⟨x, .start, 0⟩

/-- What a scan finds of a function. -/
def FunctionHead.definition (h : FunctionHead) : Definition :=
  .ofCursor (h.cursor ⟨""⟩ true default)

def FunctionHead.toSignature (h : FunctionHead) : Signature :=
  (h.cursor ⟨""⟩ true default).toSignature

/-- The arguments that are written for the tokens behind a parenthesis: those that say something,
and an ellipsis at the end. -/
def writtenArguments (ts : List Token) : List (List Token) :=
  (parameterTokens ts).filter (fun us => !isEllipsis us && (parameter? us).isSome) ++
    if (parameterTokens ts).any isEllipsis then [[Lexeme.ellipsis.token]] else []

/-- The tokens of the prototype of a function. -/
def FunctionHead.written (types : List Token) (name : Token) (rest : List Token) : List Token :=
  ((if types.any (·.isWord "static") then [(Lexeme.word "static").token] else []) ++
      types.filter (!·.isStorage)) ++
    name :: (Lexeme.mark '(').token ::
      ([(Lexeme.mark ',').token].intercalate (writtenArguments rest) ++ [(Lexeme.mark ')').token])

/-- The parameters of a prototype, as they are written. -/
def FunctionHead.parameterTexts (h : FunctionHead) : List String :=
  h.parameters.map Parameter.declaration ++ if h.isVariadic then ["..."] else []

/-- A prototype is static or not, a type, a name and the parameters in parentheses. -/
theorem toList_prototype {h : FunctionHead} (hname : h.name.text ≠ "") (htype : h.resultType ≠ "") :
    h.definition.prototype.toList =
      (if h.isStatic then ['s', 't', 'a', 't', 'i', 'c', ' '] else []) ++
        (h.resultType.toList ++ ' ' :: (h.name.text.toList ++
          '(' :: ((", ".intercalate h.parameterTexts).toList ++ [')']))) := by
  have hproto : h.definition.prototype =
      (if h.isStatic then "static " else "") ++ h.resultType ++ " " ++ h.name.text ++ "("
        ++ ", ".intercalate h.parameterTexts ++ ")" := by
    show (h.cursor ⟨""⟩ true default).prototype = _
    unfold Cursor.prototype FunctionHead.cursor
    rw [if_neg (by simp [hname, htype])]
    rfl
  rw [hproto]
  cases h.isStatic <;> simp

end Model

end SketchSense
