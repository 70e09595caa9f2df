import SketchSense.Proofs.ByPosition.Words
import SketchSense.Proofs.Model.Pieces

/-!
# Lexing by position

The lexer of the model language as a program on positions: it looks at the character where it
stands, searches for the end of what starts there and goes on behind it. In an ASCII text a position
counts characters and bytes alike, and every slice is one of whole characters. Lines and columns are
counted in words.

* `lineEnd`, `runEnd`, `literalEnd` and `commentEnd`, the searches for an end;
* `Lexing.round`, one round, and `lex`, the tokens and directives of a text;
* `OpensComment`, a block comment that nothing closes, behind which two more columns are counted;
* `round_eq`, that a round takes the piece that the text has in front, if the place behind it fits.
-/

namespace SketchSense.Model.ByPosition

/-! ## The program -/

/-- The end of the line of a position. -/
def lineEnd (text : List Char) (i : Nat) : Checked Nat := do
  let rest ← slice text i text.length
  return match rest.findIdx? (· = '\n') with
    | some n => i + n
    | none => text.length

/-- The first position from `i` on whose character fails a test. -/
def runEnd (text : List Char) (p : Char → Bool) (i : Nat) : Checked Nat :=
  if i < text.length then do
    let c ← entryAt text i
    if p c then runEnd text p (i + 1) else return i
  else return i
  termination_by text.length - i

/-- The end of a literal inside of which the position is. -/
def literalEnd (text : List Char) (quote : Char) (escaped : Bool) (i : Nat) : Checked Nat :=
  if i < text.length then do
    let c ← entryAt text i
    if c = '\n' then return i
    else if ¬ escaped ∧ c = quote then return i + 1
    else literalEnd text quote (¬ escaped ∧ c = '\\') (i + 1)
  else return i
  termination_by text.length - i

/-- The closing mark of a block comment inside of which the position is, and its place. -/
def commentEnd (text : List Char) (i : Nat) (place : Place) : Checked (Nat × Place) :=
  if i < text.length then do
    let c ← entryAt text i
    if c = '*' ∧ text[i + 1]? = some '/' then return (i, place)
    else
      let next ← move place c
      commentEnd text (i + 1) next
  else return (i, place)
  termination_by text.length - i

/-- The lexer between two rounds. -/
structure Lexing where
  position : Nat := 0
  place : Place := .start
  lineStart : Bool := true
  tokens : List Token := []
  directives : List Directive := []

namespace Lexing

/-- Goes on behind a token. -/
def take (s : Lexing) (lexeme : Lexeme) (length : Nat) : Checked Lexing := do
  let place ← moveRight s.place length
  return { s with
    position := s.position + length
    place
    lineStart := false
    tokens := s.tokens ++ [⟨lexeme, s.place, length⟩] }

/-- Goes on at the end of the line. -/
def skipLine (text : List Char) (s : Lexing) : Checked Lexing := do
  let stop ← lineEnd text s.position
  let width ← less stop s.position
  let place ← moveRight s.place width
  return { s with position := stop, place }

/-- A directive. -/
def directive (text : List Char) (s : Lexing) : Checked Lexing := do
  let stop ← lineEnd text s.position
  let body ← slice text (s.position + 1) stop
  skipLine text { s with directives := s.directives ++ [⟨s.place, Text.trim body⟩] }

/-- A block comment. Behind its end two columns are counted, whether it is closed or not. -/
def block (text : List Char) (s : Lexing) : Checked Lexing := do
  let start ← moveRight s.place 2
  let (stop, last) ← commentEnd text (s.position + 2) start
  let place ← moveRight last 2
  return { s with position := stop + 2, place, lineStart := false }

/-- A token that starts with the character `c`. -/
def token (text : List Char) (c : Char) (s : Lexing) : Checked Lexing :=
  if c = '"' ∨ c = '\'' then do
    let stop ← literalEnd text c false (s.position + 1)
    let length ← less stop s.position
    s.take .literal length
  else if isWordStart c then do
    let stop ← runEnd text isWordPart s.position
    let word ← slice text s.position stop
    let length ← less stop s.position
    s.take (.word (String.ofList word)) length
  else if c.isDigit then do
    let stop ← runEnd text isNumberPart s.position
    let length ← less stop s.position
    s.take .literal length
  else do
    let rest ← slice text s.position text.length
    if ['.', '.', '.'].isPrefixOf rest then s.take .ellipsis 3 else s.take (.mark c) 1

/-- One round: what starts at the position. -/
def round (text : List Char) (s : Lexing) : Checked Lexing := do
  let c ← entryAt text s.position
  if c = '\n' then
    let place ← moveDown s.place
    return { s with position := s.position + 1, place, lineStart := true }
  else if isSpace c then
    let place ← moveRight s.place 1
    return { s with position := s.position + 1, place }
  else if s.lineStart ∧ c = '#' then s.directive text
  else
    let next := text[s.position + 1]?
    if c = '/' ∧ next = some '/' then skipLine text { s with lineStart := false }
    else if c = '/' ∧ next = some '*' then s.block text
    else s.token text c

end Lexing

/-- The tokens and directives of a text. -/
def lex (text : List Char) : Checked Lexed := do
  let s ← loop text.length Lexing.position (Lexing.round text) {}
  return ⟨s.tokens, s.directives⟩

/-! ## Searches -/

section Searches

variable {text before rest : List Char} {i : Nat}

theorem getElem?_behind {c : Char} (htext : text = before ++ c :: rest) (hi : i = before.length) :
    text[i + 1]? = rest.head? := by
  rw [htext, hi, List.getElem?_append_right (by omega), Nat.add_sub_cancel_left,
    List.getElem?_cons_succ, List.head?_eq_getElem?]

theorem lineEnd_eq (htext : text = before ++ rest) (hi : i = before.length) :
    lineEnd text i = .ok (i + (rest.takeWhile (· ≠ '\n')).length) := by
  have hslice : slice text i text.length = .ok rest :=
    slice_eq before [] (by simpa using htext) hi (by simp [htext, hi])
  have hfind := findIdx?_getD (fun c => decide (c = '\n')) rest
  simp only [← decide_not] at hfind
  unfold lineEnd
  rw [hslice, ok_bind, ← hfind]
  cases rest.findIdx? fun c => decide (c = '\n') with
  | none => simp [htext, hi]
  | some n => rfl

theorem runEnd_eq (htext : text = before ++ rest) (hi : i = before.length) (p : Char → Bool) :
    runEnd text p i = .ok (i + (rest.takeWhile p).length) := by
  induction rest generalizing before i with
  | nil =>
    rw [runEnd, if_neg (by simp [htext, hi])]
    rfl
  | cons c cs ih =>
    rw [runEnd, if_pos (by simp [htext, hi]), entryAt_eq htext hi, ok_bind]
    cases hc : p c with
    | false => simp [hc]
    | true =>
      have hbehind : text = (before ++ [c]) ++ cs := by simpa using htext
      rw [if_pos rfl, ih hbehind (by simp [hi])]
      simp [hc, Nat.add_assoc, Nat.add_comm 1]

/-- A run that starts with a character that belongs to it. -/
theorem runEnd_cons {c : Char} (htext : text = before ++ c :: rest) (hi : i = before.length)
    {p : Char → Bool} (hc : p c = true) :
    runEnd text p i = .ok (i + (c :: (splitWhile p rest).1).length) := by
  rw [runEnd_eq htext hi, List.takeWhile_cons_of_pos hc]
  rfl

theorem literalEnd_eq (htext : text = before ++ rest) (hi : i = before.length) (quote : Char)
    (escaped : Bool) :
    literalEnd text quote escaped i = .ok (i + (splitLiteral quote escaped rest).1.length) := by
  induction rest generalizing before i escaped with
  | nil =>
    rw [literalEnd, if_neg (by simp [htext, hi])]
    rfl
  | cons c cs ih =>
    rw [literalEnd, if_pos (by simp [htext, hi]), entryAt_eq htext hi, ok_bind, splitLiteral]
    split
    · rfl
    · split
      · rfl
      · have hbehind : text = (before ++ [c]) ++ cs := by simpa using htext
        rw [ih hbehind (by simp [hi])]
        simp [Nat.add_assoc, Nat.add_comm 1]

end Searches

/-! ## Block comments -/

/-- A block comment that nothing closes. -/
def OpensComment (s : List Char) : Prop := s.take 2 = ['/', '*'] ∧ ¬['*', '/'] <:+: s.drop 2

instance (s : List Char) : Decidable (OpensComment s) := inferInstanceAs (Decidable (_ ∧ _))

/-- The place behind a piece; the lexer counts two columns more behind a comment that nothing
closes. -/
def behind (p : Place) (s : List Char) : Place :=
  (p.after s).right (if OpensComment s then 2 else 0)

section Comments

variable {text before rest : List Char} {i : Nat} {p : Place}

/-- A comment takes the mark that closes it. -/
theorem closed_splitComment (h : ['*', '/'] <:+: rest) : ['*', '/'] <:+: (splitComment rest).1 := by
  induction rest with
  | nil => simp at h
  | cons c cs ih =>
    rw [splitComment]
    split
    · next hclose =>
      obtain ⟨rfl, hslash⟩ := hclose
      obtain ⟨ds, rfl⟩ := List.head?_eq_some_iff.1 hslash
      exact ⟨[], [], rfl⟩
    · next hclose =>
      refine List.infix_cons_iff.2 (.inr (ih ((List.infix_cons_iff.1 h).resolve_left ?_)))
      rintro ⟨ds, hds⟩
      cases hds
      exact hclose ⟨rfl, rfl⟩

/-- A comment that is closed ends behind the first closing mark. -/
theorem commentEnd_of_closed (htext : text = before ++ rest) (hi : i = before.length)
    (hascii : ∀ c ∈ rest, isAscii c = true) (hshort : text.length < wordLimit) (hp : p.Within i)
    (hclosed : ['*', '/'] <:+: rest) :
    ∃ stop place, commentEnd text i p = .ok (stop, place) ∧ i ≤ stop ∧ place.Fits ∧
      text.drop (stop + 2) = (splitComment rest).2 ∧
      place.right 2 = p.after (splitComment rest).1 := by
  induction rest generalizing before i p with
  | nil => simp at hclosed
  | cons c cs ih =>
    have hnext := getElem?_behind htext hi
    have hlength : text.length = i + (c :: cs).length := by rw [htext, hi, List.length_append]
    rw [List.length_cons] at hlength
    rw [commentEnd, if_pos (by omega), entryAt_eq htext hi, ok_bind, hnext]
    by_cases hclose : c = '*' ∧ cs.head? = some '/'
    · obtain ⟨rfl, hslash⟩ := hclose
      obtain ⟨ds, rfl⟩ := List.head?_eq_some_iff.1 hslash
      rw [List.length_cons] at hlength
      refine ⟨i, p, if_pos ⟨rfl, hslash⟩, Nat.le_refl i, hp.fits (by omega), ?_, ?_⟩
      · rw [htext, hi, splitComment, if_pos ⟨rfl, hslash⟩]
        simp
      · rw [splitComment, if_pos ⟨rfl, hslash⟩]
        exact (after_eq_right (s := ['*', '/']) (by simp [isAscii]) (by simp) p).symm
    · -- the closing mark is still to come, so the text goes on and the next place fits
      have hrest : ['*', '/'] <:+: cs := by
        refine (List.infix_cons_iff.1 hclosed).resolve_left fun hstarts => hclose ?_
        obtain ⟨ds, hds⟩ := hstarts
        cases hds
        exact ⟨rfl, rfl⟩
      have hmore : 2 ≤ cs.length := hrest.length_le
      have hc := hascii c List.mem_cons_self
      have hwithin := within_next hp hc
      have hbehind : text = (before ++ [c]) ++ cs := by simpa using htext
      rw [if_neg hclose, move_eq (hp.fits (by omega)) hc, if_pos (hwithin.fits (by omega)), ok_bind,
        splitComment, if_neg hclose]
      obtain ⟨stop, place, hend, hle, hfits, hdrop, hplace⟩ := ih (i := i + 1) hbehind (by simp [hi])
        (fun d hd => hascii d (.tail c hd)) hwithin hrest
      exact ⟨stop, place, hend, by omega, hfits, hdrop, hplace⟩

theorem splitComment_of_open (h : ¬['*', '/'] <:+: rest) : splitComment rest = (rest, []) := by
  induction rest with
  | nil => rfl
  | cons c cs ih =>
    have hclose : ¬(c = '*' ∧ cs.head? = some '/') := by
      rintro ⟨rfl, hslash⟩
      obtain ⟨ds, rfl⟩ := List.head?_eq_some_iff.1 hslash
      exact h ⟨[], ds, rfl⟩
    rw [splitComment, if_neg hclose, ih fun hrest => h (List.infix_cons_iff.2 (.inr hrest))]

/-- A comment that nothing closes goes on to the end of the text, as long as the places fit. -/
theorem commentEnd_of_open (htext : text = before ++ rest) (hi : i = before.length)
    (hascii : ∀ c ∈ rest, isAscii c = true) (hshort : text.length < wordLimit) (hp : p.Within i)
    (hfits : p.Fits) (hopen : ¬['*', '/'] <:+: rest) :
    commentEnd text i p =
      if (p.after rest).Fits then .ok (text.length, p.after rest) else .error .overflow := by
  induction rest generalizing before i p with
  | nil =>
    have hlength : text.length = i := by rw [htext, hi, List.append_nil]
    rw [commentEnd, if_neg (by omega), Place.after_nil, if_pos hfits, hlength]
    rfl
  | cons c cs ih =>
    have hnext := getElem?_behind htext hi
    have hlength : text.length = i + (c :: cs).length := by rw [htext, hi, List.length_append]
    rw [List.length_cons] at hlength
    have hclose : ¬(c = '*' ∧ cs.head? = some '/') := by
      rintro ⟨rfl, hslash⟩
      obtain ⟨ds, rfl⟩ := List.head?_eq_some_iff.1 hslash
      exact hopen ⟨[], ds, rfl⟩
    have hrest : ¬['*', '/'] <:+: cs := fun h => hopen (List.infix_cons_iff.2 (.inr h))
    have hc := hascii c List.mem_cons_self
    have hwithin := within_next hp hc
    have hbehind : text = (before ++ [c]) ++ cs := by simpa using htext
    rw [commentEnd, if_pos (by omega), entryAt_eq htext hi, ok_bind, hnext, if_neg hclose,
      move_eq hfits hc, Place.after_cons]
    by_cases hnextFits : (p.next c).Fits
    · rw [if_pos hnextFits, ok_bind]
      exact ih hbehind (by simp [hi]) (fun d hd => hascii d (.tail c hd)) hwithin hnextFits hrest
    · -- the first place that does not fit is the one behind the text
      cases cs with
      | nil =>
        rw [if_neg hnextFits, Place.after_nil, if_neg hnextFits]
        rfl
      | cons d ds =>
        rw [List.length_cons] at hlength
        exact absurd (hwithin.fits (by omega)) hnextFits

end Comments

/-! ## Cutting -/

/-- Every character of an ASCII text starts a piece. -/
theorem exists_front (b : Bool) {c : Char} (cs : List Char) (h : isAscii c = true) :
    ∃ kind split, Model.front b c cs = .ok (kind, split) := by
  unfold Model.front
  rw [if_pos h]
  repeat' split
  all_goals exact ⟨_, _, rfl⟩

/-- An ASCII text is cut into pieces. -/
theorem exists_cuts {s : List Char} (h : ∀ c ∈ s, isAscii c = true) (b : Bool) :
    ∃ ps b', Cuts b s ps b' [] := by
  induction hn : s.length using Nat.strongRecOn generalizing b s with
  | _ n ih =>
    cases s with
    | nil => exact ⟨[], b, .done b []⟩
    | cons c cs =>
      obtain ⟨kind, split, hfront⟩ := exists_front b cs (h c List.mem_cons_self)
      have hcs := front_eq hfront
      obtain ⟨ps, b', hcuts⟩ := ih split.2.length
        (by rw [← hn, ← hcs, List.length_cons, List.length_append]; omega)
        (fun d hd => h d (List.mem_cons_of_mem c (hcs ▸ List.mem_append_right _ hd)))
        (kind.lineStartAfter b) rfl
      exact ⟨_, b', .piece hfront hcuts⟩

/-! ## Rounds -/

/-- A round that takes a piece: what the piece leaves stands at the new position, and the token or
the directive of the piece is added. -/
structure Takes (text : List Char) (s s' : Lexing) (piece : Piece) (rest : List Char) : Prop where
  leaves : text.drop s'.position = rest
  moves : s.position < s'.position
  lineStart : s'.lineStart = piece.kind.lineStartAfter s.lineStart
  place : s'.place = behind s.place piece.text
  closed : rest ≠ [] → ¬OpensComment piece.text
  tokens : s'.tokens = s.tokens ++ (token? (s.place, piece)).toList
  directives : s'.directives = s.directives ++ (directive? (s.place, piece)).toList

/-- A round that takes a piece unless the place behind it does not fit. -/
def TakesIfFits (text : List Char) (s : Lexing) (piece : Piece) (rest : List Char)
    (round : Checked Lexing) : Prop :=
  ∃ s', Takes text s s' piece rest ∧ round = if s'.place.Fits then .ok s' else .error .overflow

section Rounds

variable {text before cs inside rest : List Char} {c : Char} {s s' : Lexing} {kind : PieceKind}
  {split : Split}

/-- The pieces of a text lie end to end. -/
theorem whole_of_front {b : Bool} (htext : text = before ++ c :: cs)
    (hascii : ∀ d ∈ c :: cs, isAscii d = true) (hfront : Model.front b c cs = .ok (kind, split)) :
    text = before ++ (c :: split.1 ++ split.2) ∧ ∀ d ∈ c :: split.1, isAscii d = true := by
  have hcs : c :: split.1 ++ split.2 = c :: cs := congrArg (c :: ·) (front_eq hfront)
  rw [← hcs] at htext hascii
  exact ⟨htext, fun d hd => hascii d (List.mem_append_left _ hd)⟩

/-- No other piece starts as a block comment does. -/
theorem not_opensComment (h : ¬(c = '/' ∧ (inside ++ rest).head? = some '*')) :
    ¬OpensComment (c :: inside) := by
  rintro ⟨htake, -⟩
  cases inside with
  | nil => simp at htake
  | cons d ds =>
    simp only [List.take_succ_cons, List.take_zero, List.cons.injEq, and_true] at htake
    exact h ⟨htake.1, by rw [List.cons_append, List.head?_cons, htake.2]⟩

/-- A piece within a line is taken by moving to the right. -/
theorem takes_right {next : Place → Lexing} (hfits : s.place.Fits)
    (htext : text = before ++ (c :: inside ++ rest)) (hi : s.position = before.length)
    (hascii : ∀ d ∈ c :: inside, isAscii d = true) (hline : '\n' ∉ c :: inside)
    (hblock : ¬(c = '/' ∧ (inside ++ rest).head? = some '*'))
    (hposition : ∀ p, (next p).position = s.position + (c :: inside).length)
    (hplace : ∀ p, (next p).place = p)
    (hstart : ∀ p, (next p).lineStart = kind.lineStartAfter s.lineStart)
    (htokens : ∀ p, (next p).tokens = s.tokens ++ (token? (s.place, ⟨kind, c :: inside⟩)).toList)
    (hdirectives : ∀ p, (next p).directives =
      s.directives ++ (directive? (s.place, ⟨kind, c :: inside⟩)).toList) :
    TakesIfFits text s ⟨kind, c :: inside⟩ rest
      (moveRight s.place (c :: inside).length >>= fun p => .ok (next p)) := by
  have hopen := not_opensComment hblock
  refine ⟨next (s.place.right (c :: inside).length), ?_, ?_⟩
  · constructor
    · rw [hposition, htext, hi, ← List.append_assoc]
      exact List.drop_left' List.length_append
    · rw [hposition]
      exact Nat.lt_add_of_pos_right (Nat.succ_pos _)
    · exact hstart _
    · rw [hplace, behind, if_neg hopen, after_eq_right hascii hline]
      rfl
    · exact fun _ => hopen
    · exact htokens _
    · exact hdirectives _
  · rw [hplace]
    exact moveRight_bind hfits next

/-- A token is taken by its lexeme and the number of its characters. -/
theorem takes_token {lexeme : Lexeme} (hfits : s.place.Fits)
    (htext : text = before ++ (c :: inside ++ rest)) (hi : s.position = before.length)
    (hascii : ∀ d ∈ c :: inside, isAscii d = true) (hline : '\n' ∉ c :: inside)
    (hblock : ¬(c = '/' ∧ (inside ++ rest).head? = some '*'))
    (hlexeme : Piece.lexeme? ⟨kind, c :: inside⟩ = some lexeme) :
    TakesIfFits text s ⟨kind, c :: inside⟩ rest (s.take lexeme (c :: inside).length) := by
  refine takes_right hfits htext hi hascii hline hblock (fun _ => rfl) (fun _ => rfl) ?_ ?_ ?_
  · intro _
    cases kind <;> first | rfl | cases hlexeme
  · intro _
    simp only [token?, hlexeme, utf8Length_of_isAscii hascii]
    rfl
  · have hkind : kind ≠ .directive := by
      rintro rfl
      cases hlexeme
    intro _
    simp [directive?, hkind]

/-- A line feed is taken by moving down. -/
theorem takes_newline (htext : text = before ++ '\n' :: cs) (hi : s.position = before.length) :
    TakesIfFits text s ⟨.newline, ['\n']⟩ cs (moveDown s.place >>= fun place =>
      .ok { s with position := s.position + 1, place, lineStart := true }) := by
  have hblock : ¬('\n' = '/' ∧ ([] ++ cs).head? = some '*') := by simp
  have hopen : ¬OpensComment ['\n'] := not_opensComment hblock
  have hplace : behind s.place ['\n'] = ⟨s.place.line + 1, 1⟩ := by
    rw [behind, if_neg hopen]
    rfl
  refine ⟨{ s with position := s.position + 1, place := ⟨s.place.line + 1, 1⟩, lineStart := true },
    ⟨?_, Nat.lt_succ_self _, rfl, hplace.symm, fun _ => hopen, (List.append_nil _).symm,
      (List.append_nil _).symm⟩, ?_⟩
  · rw [htext, hi]
    simp
  · rw [moveDown_eq]
    split <;> rfl

theorem lineEnd_cons (htext : text = before ++ c :: cs) (hi : s.position = before.length)
    (hc : c ≠ '\n') : lineEnd text s.position =
      .ok (s.position + (c :: (splitWhile (· ≠ '\n') cs).1).length) := by
  rw [lineEnd_eq htext hi, List.takeWhile_cons_of_pos (by simpa using hc)]
  rfl

/-- Blank space is taken by moving to the right. -/
theorem takes_space (hfits : s.place.Fits) (htext : text = before ++ c :: cs)
    (hi : s.position = before.length) (hascii : isAscii c = true) (hspace : isSpace c = true)
    (hnewline : c ≠ '\n') :
    TakesIfFits text s ⟨.space, [c]⟩ cs (moveRight s.place 1 >>= fun place =>
      .ok { s with position := s.position + 1, place }) := by
  have hwhole : text = before ++ (c :: [] ++ cs) := htext
  refine takes_right hfits hwhole hi (List.forall_mem_singleton.2 hascii)
    (by simpa using Ne.symm hnewline) ?_ (fun _ => rfl) (fun _ => rfl) (fun _ => rfl) (fun _ => ?_)
    fun _ => ?_
  · rintro ⟨rfl, -⟩
    simp [isSpace] at hspace
  · simp [token?, Piece.lexeme?]
  · simp [directive?]

/-- The rest of a line without a token in it is taken by moving to the end. -/
theorem takes_line {line : List Char} {next : Lexing} (hfits : s.place.Fits)
    (htext : text = before ++ c :: cs) (hi : s.position = before.length)
    (hascii : ∀ d ∈ c :: cs, isAscii d = true) (hc : c ≠ '\n')
    (hblock : ¬(c = '/' ∧ cs.head? = some '*')) (hline : (splitWhile (· ≠ '\n') cs).1 = line)
    (hlexeme : Piece.lexeme? ⟨kind, c :: line⟩ = none)
    (hnext : next = { s with
      lineStart := kind.lineStartAfter s.lineStart
      directives := s.directives ++ (directive? (s.place, ⟨kind, c :: line⟩)).toList }) :
    TakesIfFits text s ⟨kind, c :: line⟩ (splitWhile (· ≠ '\n') cs).2 (next.skipLine text) := by
  subst hnext
  subst hline
  have hcs := splitWhile_eq (· ≠ '\n') cs
  have hwhole : text = before ++ (c :: (splitWhile (· ≠ '\n') cs).1 ++
      (splitWhile (· ≠ '\n') cs).2) := by
    rw [htext, List.cons_append, hcs]
  have hpiece : ∀ d ∈ c :: (splitWhile (· ≠ '\n') cs).1, isAscii d = true := by
    rw [← hcs] at hascii
    exact fun d hd => hascii d (List.mem_append_left _ hd)
  have hinside : '\n' ∉ c :: (splitWhile (· ≠ '\n') cs).1 :=
    List.not_mem_cons_of_ne_of_not_mem (Ne.symm hc) (not_mem_splitWhile (by simp) cs)
  unfold Lexing.skipLine
  rw [lineEnd_cons htext hi hc, ok_bind, less_eq rfl]
  refine takes_right hfits hwhole hi hpiece hinside (by rwa [hcs]) (fun _ => rfl) (fun _ => rfl)
    (fun _ => rfl) (fun _ => ?_) fun _ => rfl
  unfold token?
  rw [hlexeme]
  exact (List.append_nil _).symm

/-- A directive is taken with the rest of its line. -/
theorem takes_directive (hfits : s.place.Fits) (htext : text = before ++ '#' :: cs)
    (hi : s.position = before.length) (hascii : ∀ d ∈ '#' :: cs, isAscii d = true) :
    TakesIfFits text s ⟨.directive, '#' :: (splitWhile (· ≠ '\n') cs).1⟩
      (splitWhile (· ≠ '\n') cs).2 (s.directive text) := by
  have hbehind : text = (before ++ ['#']) ++ ((splitWhile (· ≠ '\n') cs).1 ++
      (splitWhile (· ≠ '\n') cs).2) := by
    rw [htext, splitWhile_eq, List.append_assoc, List.singleton_append]
  have hbody : slice text (s.position + 1)
      (s.position + ('#' :: (splitWhile (· ≠ '\n') cs).1).length) =
        .ok (splitWhile (· ≠ '\n') cs).1 :=
    slice_eq (before ++ ['#']) _ (by simpa using hbehind) (by simp [hi]) (by simp; omega)
  unfold Lexing.directive
  rw [lineEnd_cons htext hi (by decide), ok_bind, hbody, ok_bind]
  exact takes_line hfits htext hi hascii (by decide) (by simp) rfl rfl rfl

theorem isPrefixOf_dots_iff (c : Char) (cs : List Char) :
    ['.', '.', '.'].isPrefixOf (c :: cs) = true ↔ c = '.' ∧ cs.take 2 = ['.', '.'] := by
  rw [List.isPrefixOf_iff_prefix, List.cons_prefix_cons, List.prefix_iff_eq_take]
  exact and_congr eq_comm eq_comm

/-- A round takes the token that stands in front. -/
theorem token_eq (hfits : s.place.Fits) (htext : text = before ++ c :: cs)
    (hi : s.position = before.length) (hascii : ∀ d ∈ c :: cs, isAscii d = true)
    (hnewline : c ≠ '\n') (hspace : ¬isSpace c = true)
    (hdirective : ¬(s.lineStart = true ∧ c = '#')) (hcomment : ¬(c = '/' ∧ cs.head? = some '/'))
    (hblock : ¬(c = '/' ∧ cs.head? = some '*'))
    (hfront : Model.front s.lineStart c cs = .ok (kind, split)) :
    TakesIfFits text s ⟨kind, c :: split.1⟩ split.2 (s.token text c) := by
  obtain ⟨hwhole, hpiece⟩ := whole_of_front htext hascii hfront
  have hslice : slice text s.position (s.position + (c :: split.1).length) = .ok (c :: split.1) :=
    slice_eq before split.2 hwhole hi rfl
  have hline : kind ≠ .newline → kind ≠ .comment → '\n' ∉ c :: split.1 := not_mem_front hfront
  have hnot : ¬(c = '/' ∧ (split.1 ++ split.2).head? = some '*') := by rwa [front_eq hfront]
  rw [Model.front, if_neg hnewline, if_neg hspace, if_neg hdirective, if_neg hcomment,
    if_neg hblock] at hfront
  unfold Lexing.token
  by_cases hquote : c = '"' ∨ c = '\''
  · rw [if_pos hquote] at hfront ⊢
    have hbehind : text = (before ++ [c]) ++ cs := by simpa using htext
    have hend := literalEnd_eq (i := s.position + 1) hbehind (by simp [hi]) c false
    cases hfront
    rw [hend, ok_bind, less_eq (i := (c :: (splitLiteral c false cs).1).length) (by simp; omega)]
    exact takes_token hfits hwhole hi hpiece (hline (by simp) (by simp)) hnot rfl
  rw [if_neg hquote] at hfront ⊢
  by_cases hword : isWordStart c = true
  · rw [if_pos hword] at hfront ⊢
    have hpart : isWordPart c = true := by
      simp only [isWordStart, Bool.or_eq_true] at hword
      rcases hword with halpha | hunderscore
      · simp [isWordPart, Char.isAlphanum, halpha]
      · simp [isWordPart, hunderscore]
    cases hfront
    rw [runEnd_cons htext hi hpart, ok_bind, hslice, ok_bind, less_eq rfl]
    exact takes_token hfits hwhole hi hpiece (hline (by simp) (by simp)) hnot rfl
  rw [if_neg hword] at hfront ⊢
  by_cases hdigit : c.isDigit = true
  · rw [if_pos hdigit] at hfront ⊢
    have hpart : isNumberPart c = true := by
      simp [isNumberPart, Char.isAlphanum, hdigit]
    cases hfront
    rw [runEnd_cons htext hi hpart, ok_bind, less_eq rfl]
    exact takes_token hfits hwhole hi hpiece (hline (by simp) (by simp)) hnot rfl
  rw [if_neg hdigit] at hfront ⊢
  have hrest : slice text s.position text.length = .ok (c :: cs) :=
    slice_eq before [] (by simpa using htext) hi (by simp [htext, hi])
  rw [hrest, ok_bind]
  have hstarts := isPrefixOf_dots_iff c cs
  by_cases hdots : c = '.' ∧ cs.take 2 = ['.', '.']
  · rw [if_pos hdots] at hfront
    rw [if_pos (hstarts.2 hdots)]
    cases hfront
    have htakes : TakesIfFits text s ⟨.ellipsis, c :: cs.take 2⟩ (cs.drop 2)
        (s.take .ellipsis (c :: cs.take 2).length) :=
      takes_token hfits hwhole hi hpiece (hline (by simp) (by simp)) hnot rfl
    rw [hdots.2] at htakes ⊢
    exact htakes
  · rw [if_neg hdots, if_pos (hascii c List.mem_cons_self)] at hfront
    rw [if_neg (mt hstarts.1 hdots)]
    cases hfront
    exact takes_token hfits hwhole hi hpiece (hline (by simp) (by simp)) hnot rfl

/-- A round takes the block comment that stands in front. -/
theorem block_eq (hshort : text.length < wordLimit) (hwithin : s.place.Within s.position)
    (htext : text = before ++ '/' :: cs) (hi : s.position = before.length)
    (hascii : ∀ d ∈ cs, isAscii d = true) (hstar : cs.head? = some '*') :
    TakesIfFits text s ⟨.comment, '/' :: (splitBlock cs).1⟩ (splitBlock cs).2 (s.block text) := by
  obtain ⟨ds, rfl⟩ := List.head?_eq_some_iff.1 hstar
  have hbehind : text = (before ++ ['/', '*']) ++ ds := by simpa using htext
  have hstart : s.position + 2 = (before ++ ['/', '*']).length := by simp [hi]
  have hlength : text.length = s.position + 2 + ds.length := by
    rw [hbehind, hstart, List.length_append]
  have hds : ∀ d ∈ ds, isAscii d = true := fun d hd => hascii d (.tail _ hd)
  -- no comment is a token or a directive, so only the places differ
  have htakes (stop : Nat) (place : Place) (hle : s.position < stop)
      (hdrop : text.drop stop = (splitComment ds).2)
      (hplace : place = behind s.place ('/' :: '*' :: (splitComment ds).1))
      (hclosed : (splitComment ds).2 ≠ [] → ¬OpensComment ('/' :: '*' :: (splitComment ds).1)) :
      Takes text s { s with position := stop, place, lineStart := false }
        ⟨.comment, '/' :: '*' :: (splitComment ds).1⟩ (splitComment ds).2 :=
    ⟨hdrop, hle, rfl, hplace, hclosed, (List.append_nil _).symm, (List.append_nil _).symm⟩
  unfold Lexing.block
  rw [moveRight_eq (hwithin.fits (by omega))]
  by_cases hclosed : ['*', '/'] <:+: ds
  · have hmore : 2 ≤ ds.length := hclosed.length_le
    have hopen : ¬OpensComment ('/' :: '*' :: (splitComment ds).1) :=
      fun h => h.2 (closed_splitComment hclosed)
    obtain ⟨stop, last, hend, hle, hfits, hdrop, hplace⟩ :=
      commentEnd_of_closed hbehind hstart hds hshort (hwithin.right 2) hclosed
    rw [if_pos ((hwithin.right 2).fits (by omega)), ok_bind, hend]
    refine ⟨_, htakes (stop + 2) (last.right 2) (by omega) hdrop ?_ fun _ => hopen,
      moveRight_bind hfits _⟩
    rw [behind, if_neg hopen]
    exact hplace
  · have hsplit : splitComment ds = (ds, []) := splitComment_of_open hclosed
    have hopen : OpensComment ('/' :: '*' :: ds) := ⟨rfl, hclosed⟩
    have hplace : behind s.place ('/' :: '*' :: ds) = ((s.place.right 2).after ds).right 2 := by
      rw [behind, if_pos hopen]
      rfl
    have hblock : splitBlock ('*' :: ds) = ('*' :: ds, []) := by
      unfold splitBlock
      rw [List.drop_succ_cons, List.drop_zero, hsplit]
      rfl
    rw [hsplit] at htakes
    rw [hblock]
    refine ⟨_, htakes (text.length + 2) (((s.place.right 2).after ds).right 2) (by omega)
      (List.drop_eq_nil_of_le (Nat.le_add_right _ _)) hplace.symm fun h => absurd rfl h, ?_⟩
    by_cases hq : (s.place.right 2).Fits
    · rw [if_pos hq, ok_bind,
        commentEnd_of_open hbehind hstart hds hshort (hwithin.right 2) hq hclosed]
      by_cases hlast : ((s.place.right 2).after ds).Fits
      · rw [if_pos hlast]
        exact moveRight_bind hlast _
      · rw [if_neg hlast, error_bind, if_neg fun h => hlast h.of_right]
    · -- there are no columns left for the opening mark, so it stands at the end
      have hnil : ds = [] := by
        cases ds with
        | nil => rfl
        | cons d ds =>
          rw [List.length_cons] at hlength
          exact absurd ((hwithin.right 2).fits (by omega)) hq
      subst hnil
      rw [if_neg hq, error_bind, if_neg fun h => hq h.of_right]

/-- A round takes the piece that stands in front, if the place behind it fits. -/
theorem round_eq (hshort : text.length < wordLimit) (hwithin : s.place.Within s.position)
    (htext : text = before ++ c :: cs) (hi : s.position = before.length)
    (hascii : ∀ d ∈ c :: cs, isAscii d = true)
    (hfront : Model.front s.lineStart c cs = .ok (kind, split)) :
    TakesIfFits text s ⟨kind, c :: split.1⟩ split.2 (s.round text) := by
  have hnext := getElem?_behind htext hi
  have hfits : s.place.Fits := by
    refine hwithin.fits ?_
    rw [htext, List.length_append, List.length_cons, ← hi] at hshort
    omega
  unfold Lexing.round
  rw [entryAt_eq htext hi, ok_bind]
  dsimp only
  rw [hnext]
  -- both programs ask the same questions in the same order
  by_cases hnewline : c = '\n'
  · rw [if_pos hnewline]
    rw [Model.front, if_pos hnewline] at hfront
    cases hfront
    subst hnewline
    exact takes_newline htext hi
  rw [if_neg hnewline]
  by_cases hspace : isSpace c = true
  · rw [if_pos hspace]
    rw [Model.front, if_neg hnewline, if_pos hspace] at hfront
    cases hfront
    exact takes_space hfits htext hi (hascii c List.mem_cons_self) hspace hnewline
  rw [if_neg hspace]
  by_cases hdirective : s.lineStart = true ∧ c = '#'
  · rw [if_pos hdirective]
    rw [Model.front, if_neg hnewline, if_neg hspace, if_pos hdirective] at hfront
    cases hfront
    obtain ⟨-, rfl⟩ := hdirective
    exact takes_directive hfits htext hi hascii
  rw [if_neg hdirective]
  by_cases hcomment : c = '/' ∧ cs.head? = some '/'
  · rw [if_pos hcomment]
    rw [Model.front, if_neg hnewline, if_neg hspace, if_neg hdirective, if_pos hcomment] at hfront
    cases hfront
    refine takes_line hfits htext hi hascii hnewline ?_ rfl rfl ?_
    · rw [hcomment.2]
      simp
    · simp [directive?, PieceKind.lineStartAfter]
  rw [if_neg hcomment]
  by_cases hblock : c = '/' ∧ cs.head? = some '*'
  · rw [if_pos hblock]
    rw [Model.front, if_neg hnewline, if_neg hspace, if_neg hdirective, if_neg hcomment,
      if_pos hblock] at hfront
    cases hfront
    obtain ⟨rfl, hstar⟩ := hblock
    exact block_eq hshort hwithin htext hi (fun d hd => hascii d (.tail _ hd)) hstar
  · rw [if_neg hblock]
    exact token_eq hfits htext hi hascii hnewline hspace hdirective hcomment hblock hfront

end Rounds

end SketchSense.Model.ByPosition
