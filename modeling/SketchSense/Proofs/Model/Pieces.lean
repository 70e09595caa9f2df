import SketchSense.Model.Lexer

/-!
# Cutting texts line by line

Pieces are cut off the start of a text, and only a block comment goes on past the end of a line. So
what whole lines are cut into does not depend on the text behind them, unless they leave a comment
open.

* `Cuts`, that pieces are cut off the start of a text, with `exists_cuts_of_piecesFrom` and
  `piecesFrom_of_cuts`;
* `FirstPiece` and `firstPiece`, the piece at the start of whole lines;
* `Opening`, what whole lines leave behind, and `exists_opening`;
* `Idle`, lines that declare nothing: directives that define nothing, blank lines.
-/

namespace SketchSense.Model

/-! ## Cutting pieces off -/

/-- The pieces are cut off the start of a text and leave `rest`. The flags say whether only blank
space stands on the line before the text and before the rest. -/
inductive Cuts : Bool → List Char → List Piece → Bool → List Char → Prop
  | done (lineStart : Bool) (s : List Char) : Cuts lineStart s [] lineStart s
  | piece {lineStart lineStart' : Bool} {c : Char} {cs rest : List Char} {kind : PieceKind}
      {x : Split} {ps : List Piece} (h : front lineStart c cs = .ok (kind, x))
      (hrest : Cuts (kind.lineStartAfter lineStart) x.2 ps lineStart' rest) :
      Cuts lineStart (c :: cs) (⟨kind, c :: x.1⟩ :: ps) lineStart' rest

namespace Cuts

variable {b b' b'' : Bool} {s t rest : List Char} {ps qs : List Piece}

theorem append (h : Cuts b s ps b' t) (h' : Cuts b' t qs b'' rest) :
    Cuts b s (ps ++ qs) b'' rest := by
  induction h with
  | done => exact h'
  | piece hfront _ ih => exact .piece hfront (ih h')

/-- The pieces and the rest make up the text. -/
theorem text_eq (h : Cuts b s ps b' rest) : s = ps.flatMap (·.text) ++ rest := by
  induction h with
  | done => rfl
  | piece hfront _ ih =>
    rw [← front_eq hfront, ih]
    simp

end Cuts

/-- A text that is cut without fault is cut into these pieces, and nothing is left. -/
theorem exists_cuts_of_piecesFrom {b : Bool} {s : List Char} {ps : List Piece}
    (h : piecesFrom b s = .ok ps) : ∃ b', Cuts b s ps b' [] := by
  fun_induction piecesFrom b s generalizing ps with
  | case1 b =>
    cases h
    exact ⟨b, .done b []⟩
  | case2 => cases h
  | case3 => cases h
  | case4 b c cs kind split hfront _ rest _ ih =>
    cases h
    obtain ⟨b', hrest⟩ := ih ‹_›
    exact ⟨b', .piece hfront hrest⟩

theorem piecesFrom_of_cuts {b b' : Bool} {s : List Char} {ps : List Piece}
    (h : Cuts b s ps b' []) : piecesFrom b s = .ok ps := by
  generalize hrest : ([] : List Char) = rest at h
  induction h with
  | done => rw [← hrest, piecesFrom]
  | piece hfront _ ih =>
    have hcut := ih hrest
    rw [piecesFrom]
    split
    · simp_all
    · simp_all

/-! ## Whole lines -/

/-- What is taken while a test holds does not depend on what follows the first failure. -/
theorem splitWhile_append {p : Char → Bool} {s : List Char} (h : ∃ c ∈ s, p c = false)
    (X : List Char) :
    splitWhile p (s ++ X) = ((splitWhile p s).1, (splitWhile p s).2 ++ X) ∧
      (splitWhile p s).2 ≠ [] := by
  unfold splitWhile
  induction s with
  | nil => simp at h
  | cons c s ih =>
    cases hc : p c with
    | false => simp [hc]
    | true =>
      obtain ⟨d, hd, hpd⟩ := h
      have hrest := ih ⟨d, (List.mem_cons.1 hd).resolve_left (by rintro rfl; simp_all), hpd⟩
      simpa [hc] using hrest

/-- A literal ends with its line at the latest. -/
theorem splitLiteral_append (quote : Char) {s : List Char} (h : '\n' ∈ s) (escaped : Bool)
    (X : List Char) :
    splitLiteral quote escaped (s ++ X) =
        ((splitLiteral quote escaped s).1, (splitLiteral quote escaped s).2 ++ X) ∧
      (splitLiteral quote escaped s).2 ≠ [] := by
  induction s generalizing escaped with
  | nil => simp at h
  | cons c s ih =>
    by_cases hc : c = '\n'
    · simp [splitLiteral, hc]
    · have hs : '\n' ∈ s := (List.mem_cons.1 h).resolve_left (Ne.symm hc)
      by_cases hq : ¬ escaped ∧ c = quote
      · have hne : s ≠ [] := List.ne_nil_of_mem hs
        rw [List.cons_append, splitLiteral, splitLiteral, if_neg hc, if_neg hc, if_pos hq, if_pos hq]
        exact ⟨rfl, hne⟩
      · obtain ⟨hrest, hne⟩ := ih hs (¬ escaped ∧ c = '\\')
        rw [List.cons_append, splitLiteral, splitLiteral, if_neg hc, if_neg hc, if_neg hq, if_neg hq,
          hrest]
        exact ⟨rfl, hne⟩

/-- A block comment that is entered in whole lines is closed in them, or else it goes on. -/
theorem splitComment_append {s : List Char} (h : s = [] ∨ s.getLast? = some '\n') :
    ((splitComment s).2 ≠ [] ∧
        ∀ X, splitComment (s ++ X) = ((splitComment s).1, (splitComment s).2 ++ X)) ∨
      ∀ X, splitComment (s ++ X) = (s ++ (splitComment X).1, (splitComment X).2) := by
  induction s with
  | nil => exact .inr fun X => rfl
  | cons c s ih =>
    have hlast : (c :: s).getLast? = some '\n' := h.resolve_left (List.cons_ne_nil c s)
    cases s with
    | nil =>
      simp only [List.getLast?_singleton, Option.some.injEq] at hlast
      subst hlast
      exact .inr fun X => by simp [splitComment]
    | cons d s =>
      rw [List.getLast?_cons_cons] at hlast
      by_cases hclose : c = '*' ∧ d = '/'
      · have hne : s ≠ [] := by
          rintro rfl
          simp_all
        exact .inl ⟨by simp [splitComment, hclose, hne], fun X => by simp [splitComment, hclose]⟩
      · have hstep (t : List Char) : splitComment (c :: d :: t) =
            (c :: (splitComment (d :: t)).1, (splitComment (d :: t)).2) := by
          rw [splitComment, if_neg (by simpa using hclose)]
        rcases ih (.inr hlast) with ⟨hne, hclosed⟩ | hopen
        · refine .inl ⟨by rwa [hstep], fun X => ?_⟩
          rw [List.cons_append, List.cons_append, hstep, hstep, ← List.cons_append, hclosed]
        · refine .inr fun X => ?_
          rw [List.cons_append, List.cons_append, hstep, ← List.cons_append, hopen]
          rfl

/-- Three dots that start in a line are within it. -/
theorem take_two_append {s : List Char} (h : s.getLast? = some '\n') (X : List Char) :
    (s ++ X).take 2 = ['.', '.'] ↔ ∃ es, s = '.' :: '.' :: es ∧ es ≠ [] := by
  constructor
  · intro hdots
    match s, h with
    | [c], hlast => simp_all
    | [c, d], hlast => simp_all
    | c :: d :: e :: es, _ => exact ⟨e :: es, by simpa using hdots, List.cons_ne_nil e es⟩
  · rintro ⟨es, rfl, -⟩
    rfl

/-- What is at the start of a text when another one follows: a piece that ends in the text, a block
comment that goes on, or no piece. -/
inductive FirstPiece (b : Bool) (c : Char) (cs : List Char) : Prop
  | ended (kind : PieceKind) (split : Split) (hend : split.2 = [] → kind = .newline)
      (hfront : ∀ X, front b c (cs ++ X) = .ok (kind, split.1, split.2 ++ X))
  | opened (hfront : ∀ X, front b c (cs ++ X) =
      .ok (.comment, cs ++ (splitComment X).1, (splitComment X).2))
  | fault (e : Fault) (hfront : ∀ X, front b c (cs ++ X) = .error e)

namespace FirstPiece

variable {b : Bool} {c : Char} {cs : List Char}

/-- A block comment. -/
theorem of_block (h : (c :: '*' :: cs).getLast? = some '\n')
    (hfront : ∀ X, front b c ('*' :: cs ++ X) = .ok (.comment, splitBlock ('*' :: cs ++ X))) :
    FirstPiece b c ('*' :: cs) := by
  have hlast : cs = [] ∨ cs.getLast? = some '\n' := by
    cases cs with
    | nil => exact .inl rfl
    | cons => exact .inr (by rwa [List.getLast?_cons_cons, List.getLast?_cons_cons] at h)
  rcases splitComment_append hlast with ⟨hclosed, hsplit⟩ | hopen
  · refine .ended .comment ('*' :: (splitComment cs).1, (splitComment cs).2)
      (fun hnil => absurd hnil hclosed) fun X => ?_
    rw [hfront, splitBlock, List.cons_append, List.drop_one, List.tail_cons, hsplit]
    rfl
  · refine .opened fun X => ?_
    rw [hfront, splitBlock, List.cons_append, List.drop_one, List.tail_cons, hopen]
    rfl

/-- A piece of a line that is neither blank nor a comment nor a directive. -/
theorem of_plain (h : cs.getLast? = some '\n')
    (hfront : ∀ X, front b c (cs ++ X) =
      if c = '"' ∨ c = '\'' then .ok (.literal, splitLiteral c false (cs ++ X))
      else if isWordStart c then .ok (.word, splitWhile isWordPart (cs ++ X))
      else if c.isDigit then .ok (.literal, splitWhile isNumberPart (cs ++ X))
      else if c = '.' ∧ (cs ++ X).take 2 = ['.', '.'] then
        .ok (.ellipsis, (cs ++ X).take 2, (cs ++ X).drop 2)
      else if isAscii c then .ok (.mark, [], cs ++ X)
      else .error .splitCharacter) :
    FirstPiece b c cs := by
  have hmem : '\n' ∈ cs := List.mem_of_getLast? h
  by_cases hquote : c = '"' ∨ c = '\''
  · have hliteral (X : List Char) := splitLiteral_append c hmem false X
    refine .ended .literal _ (fun hnil => absurd hnil (hliteral []).2) fun X => ?_
    rw [hfront, if_pos hquote, (hliteral X).1]
  by_cases hword : isWordStart c = true
  · have hsplit (X : List Char) := splitWhile_append (p := isWordPart) ⟨'\n', hmem, by decide⟩ X
    refine .ended .word _ (fun hnil => absurd hnil (hsplit []).2) fun X => ?_
    rw [hfront, if_neg hquote, if_pos hword, (hsplit X).1]
  by_cases hdigit : c.isDigit = true
  · have hsplit (X : List Char) := splitWhile_append (p := isNumberPart) ⟨'\n', hmem, by decide⟩ X
    refine .ended .literal _ (fun hnil => absurd hnil (hsplit []).2) fun X => ?_
    rw [hfront, if_neg hquote, if_neg hword, if_pos hdigit, (hsplit X).1]
  by_cases hellipsis : c = '.' ∧ ∃ es, cs = '.' :: '.' :: es ∧ es ≠ []
  · obtain ⟨hdot, es, hes, hne⟩ := hellipsis
    refine .ended .ellipsis (['.', '.'], es) (fun hnil => absurd hnil hne) fun X => ?_
    rw [hfront, if_neg hquote, if_neg hword, if_neg hdigit,
      if_pos ⟨hdot, (take_two_append h X).2 ⟨es, hes, hne⟩⟩, hes]
    rfl
  have hmark (X : List Char) : front b c (cs ++ X) =
      if isAscii c then .ok (.mark, [], cs ++ X) else .error .splitCharacter := by
    rw [hfront, if_neg hquote, if_neg hword, if_neg hdigit,
      if_neg fun hdots => hellipsis ⟨hdots.1, (take_two_append h X).1 hdots.2⟩]
  by_cases hascii : isAscii c = true
  · exact .ended .mark ([], cs) (fun hnil => absurd hnil (List.ne_nil_of_mem hmem)) fun X => by
      rw [hmark, if_pos hascii]
  · exact .fault .splitCharacter fun X => by rw [hmark, if_neg hascii]

end FirstPiece

/-- A piece that starts in whole lines ends in them, or else it is a block comment that goes on. -/
theorem firstPiece (b : Bool) {c : Char} {cs : List Char} (h : (c :: cs).getLast? = some '\n') :
    FirstPiece b c cs := by
  by_cases hnewline : c = '\n'
  · exact .ended .newline ([], cs) (fun _ => rfl) fun X => by simp [front, hnewline]
  have hne : cs ≠ [] := by
    rintro rfl
    simp_all
  obtain ⟨d, ds, rfl⟩ := List.exists_cons_of_ne_nil hne
  have hlast : (d :: ds).getLast? = some '\n' := by rwa [List.getLast?_cons_cons] at h
  by_cases hspace : isSpace c = true
  · exact .ended .space ([], d :: ds) (by simp) fun X => by simp [front, hnewline, hspace]
  have hline (X : List Char) :=
    splitWhile_append (p := (· ≠ '\n')) ⟨'\n', List.mem_of_getLast? hlast, by decide⟩ X
  by_cases hdirective : b = true ∧ c = '#'
  · refine .ended .directive _ (fun hnil => absurd hnil (hline []).2) fun X => ?_
    rw [front, if_neg hnewline, if_neg hspace, if_pos hdirective, (hline X).1]
  by_cases hcomment : c = '/' ∧ d = '/'
  · refine .ended .comment _ (fun hnil => absurd hnil (hline []).2) fun X => ?_
    rw [front, if_neg hnewline, if_neg hspace, if_neg hdirective, if_pos (by simpa using hcomment),
      (hline X).1]
  by_cases hblock : c = '/' ∧ d = '*'
  · obtain ⟨hslash, rfl⟩ := hblock
    refine .of_block h fun X => ?_
    rw [front, if_neg hnewline, if_neg hspace, if_neg hdirective,
      if_neg (by simp), if_pos (by simp [hslash])]
  · refine .of_plain hlast fun X => ?_
    rw [front, if_neg hnewline, if_neg hspace, if_neg hdirective, if_neg (by simpa using hcomment),
      if_neg (by simpa using hblock)]

/-! ## What whole lines leave behind -/

/-- What whole lines leave behind: nothing, or a comment that is still open. -/
inductive Opening where
  | code (ps : List Piece)
  | comment (ps : List Piece) (inside : List Char)

namespace Opening

/-- The text that was read so far. -/
def text : Opening → List Char
  | code ps => ps.flatMap (·.text)
  | comment ps inside => ps.flatMap (·.text) ++ inside

/-- The pieces of a text behind: a comment that is open goes on first. -/
def pieces : Opening → List Char → List Piece
  | code ps, _ => ps
  | comment ps inside, s => ps ++ [⟨.comment, inside ++ (splitComment s).1⟩]

/-- What is left of a text behind, to be cut into pieces of its own. -/
def rest : Opening → List Char → List Char
  | code _, s => s
  | comment _ _, s => (splitComment s).2

/-- Whether a piece that follows is the first on its line. -/
def lineStart : Opening → Bool
  | code _ => true
  | comment _ _ => false

/-- What is left behind if another piece comes first. -/
def behind (p : Piece) : Opening → Opening
  | code ps => code (p :: ps)
  | comment ps inside => comment (p :: ps) inside

@[simp] theorem text_behind (p : Piece) (o : Opening) : (o.behind p).text = p.text ++ o.text := by
  cases o <;> simp [behind, text]

@[simp] theorem pieces_behind (p : Piece) (o : Opening) (s : List Char) :
    (o.behind p).pieces s = p :: o.pieces s := by
  cases o <;> rfl

@[simp] theorem rest_behind (p : Piece) (o : Opening) (s : List Char) :
    (o.behind p).rest s = o.rest s := by
  cases o <;> rfl

@[simp] theorem lineStart_behind (p : Piece) (o : Opening) :
    (o.behind p).lineStart = o.lineStart := by
  cases o <;> rfl

end Opening

/-- What whole lines are cut into does not depend on what follows, except for an open comment. -/
theorem exists_opening {b b' : Bool} {A X : List Char} {ps : List Piece}
    (hA : A = [] ∧ b = true ∨ A.getLast? = some '\n') (h : Cuts b (A ++ X) ps b' []) :
    ∃ o : Opening, o.text = A ∧
      ∀ X, Cuts b (A ++ X) (o.pieces X) o.lineStart (o.rest X) := by
  induction hn : A.length using Nat.strongRecOn generalizing b A ps with
  | _ n ih =>
    cases A with
    | nil =>
      have hb : b = true := by simpa using hA
      exact ⟨.code [], rfl, fun X => hb ▸ .done true X⟩
    | cons c cs =>
      have hlast : (c :: cs).getLast? = some '\n' := by simpa using hA
      rw [List.cons_append] at h
      cases firstPiece b hlast with
      | ended kind split hend hfront =>
        have hcs : cs = split.1 ++ split.2 := by simpa using (front_eq (hfront [])).symm
        have hsplit : split.2 = [] ∧ kind.lineStartAfter b = true ∨
            split.2.getLast? = some '\n' := by
          by_cases hnil : split.2 = []
          · exact .inl ⟨hnil, by rw [hend hnil]; rfl⟩
          · refine .inr ?_
            rw [hcs, ← List.cons_append, List.getLast?_append] at hlast
            cases hs : split.2.getLast? with
            | none => exact absurd (List.getLast?_eq_none_iff.1 hs) hnil
            | some d => simpa [hs] using hlast
        cases h with
        | piece hfirst hrest =>
          rw [hfront X] at hfirst
          cases hfirst
          obtain ⟨o, htext, hcuts⟩ := ih split.2.length (by simp_all; omega) hsplit hrest rfl
          refine ⟨o.behind ⟨kind, c :: split.1⟩, by simp [htext, hcs], fun X => ?_⟩
          rw [Opening.pieces_behind, Opening.rest_behind, Opening.lineStart_behind]
          exact .piece (x := (split.1, split.2 ++ X)) (hfront X) (hcuts X)
      | opened hfront =>
        refine ⟨.comment [] (c :: cs), rfl, fun X => ?_⟩
        exact .piece (hfront X) (.done false _)
      | fault e hfront =>
        cases h with
        | piece hfirst _ =>
          rw [hfront X] at hfirst
          cases hfirst

/-! ## Lines that declare nothing -/

/-- A directive that starts neither blank nor like one that defines or reports something. -/
def Piece.IsSilent (p : Piece) : Prop :=
  ∃ c rest, p.text = '#' :: c :: rest ∧ Text.isBlank c = false ∧ c ∉ ['d', 'e', 'w']

/-- A piece that is no token and neither defines nor reports anything. -/
def Piece.IsIdle (p : Piece) : Prop := p.lexeme? = none ∧ (p.kind = .directive → p.IsSilent)

/-- Whole lines that declare nothing: cut on their own they leave nothing open, and within a comment
they are part of it. -/
structure Idle (M : List Char) (ps : List Piece) : Prop where
  cuts : ∀ X, Cuts true (M ++ X) ps true X
  idle : ∀ p ∈ ps, p.IsIdle
  inComment : ∀ X, splitComment (M ++ X) = (M ++ (splitComment X).1, (splitComment X).2)

theorem idle_nil : Idle [] [] := ⟨fun X => .done true X, by simp, fun X => rfl⟩

/-- Without a `/` no comment is closed. -/
theorem splitComment_of_not_mem {M : List Char} (h : M = [] ∨ M.getLast? = some '\n')
    (hslash : '/' ∉ M) (X : List Char) :
    splitComment (M ++ X) = (M ++ (splitComment X).1, (splitComment X).2) := by
  rcases splitComment_append h with ⟨hne, -⟩ | hopen
  · exfalso
    apply hne
    clear h hne
    induction M with
    | nil => rfl
    | cons c cs ih =>
      simp only [List.mem_cons, not_or] at hslash
      have hcs : cs.head? ≠ some '/' := fun hhead => hslash.2 (List.mem_of_mem_head? hhead)
      rw [splitComment, if_neg fun hclose => hcs hclose.2]
      exact ih hslash.2
  · exact hopen X

theorem cuts_newline (b : Bool) (X : List Char) :
    Cuts b ('\n' :: X) [⟨.newline, ['\n']⟩] true X :=
  .piece (x := ([], X)) (by simp [front]) (.done true X)

/-- A directive is cut off with its line. -/
theorem cuts_directive {D : List Char} (hline : '\n' ∉ D) (X : List Char) :
    Cuts true ('#' :: D ++ ['\n'] ++ X) [⟨.directive, '#' :: D⟩, ⟨.newline, ['\n']⟩] true X := by
  have hne : ∀ c ∈ D, decide (c ≠ '\n') = true := by
    intro c hc
    rw [decide_eq_true_eq]
    rintro rfl
    exact hline hc
  have hsplit : splitWhile (· ≠ '\n') (D ++ ['\n'] ++ X) = (D, '\n' :: X) := by
    unfold splitWhile
    rw [List.append_assoc, List.takeWhile_append_of_pos hne, List.dropWhile_append_of_pos hne]
    simp
  refine .piece (x := (D, '\n' :: X)) ?_ (cuts_newline true X)
  rw [front, if_neg (by decide), if_neg (by decide), if_pos ⟨rfl, rfl⟩, ← hsplit]
  rfl

theorem Piece.isIdle_newline : (Piece.mk .newline ['\n']).IsIdle := ⟨rfl, nofun⟩

/-- A directive is no token. -/
theorem idle_directive {c : Char} {rest : List Char} (hline : '\n' ∉ c :: rest)
    (hslash : '/' ∉ c :: rest) (hblank : Text.isBlank c = false) (hsilent : c ∉ ['d', 'e', 'w']) :
    Idle ('#' :: (c :: rest) ++ ['\n']) [⟨.directive, '#' :: c :: rest⟩, ⟨.newline, ['\n']⟩] where
  cuts := cuts_directive hline
  idle := by
    intro p hp
    rcases List.mem_cons.1 hp with rfl | hp
    · exact ⟨rfl, fun _ => ⟨c, rest, rfl, hblank, hsilent⟩⟩
    · rw [List.mem_singleton.1 hp]
      exact Piece.isIdle_newline
  inComment := by
    refine splitComment_of_not_mem (.inr List.getLast?_concat) ?_
    rw [List.mem_append, List.mem_cons, not_or, not_or]
    exact ⟨⟨by decide, hslash⟩, by decide⟩

/-- A blank line is no token. -/
theorem idle_blank {L : List Char} (h : ∀ c ∈ L, isSpace c = true) :
    Idle (L ++ ['\n']) (L.map (fun c => ⟨.space, [c]⟩) ++ [⟨.newline, ['\n']⟩]) where
  cuts X := by
    induction L with
    | nil => exact cuts_newline true X
    | cons c cs ih =>
      have hc : isSpace c = true := h c List.mem_cons_self
      have hne : c ≠ '\n' := by
        rintro rfl
        exact absurd hc (by decide)
      refine .piece (x := ([], cs ++ ['\n'] ++ X)) ?_ (ih fun d hd => h d (List.mem_cons_of_mem _ hd))
      rw [front, if_neg hne, if_pos hc]
      rfl
  idle := by
    intro p hp
    rcases List.mem_append.1 hp with hp | hp
    · obtain ⟨c, -, rfl⟩ := List.mem_map.1 hp
      exact ⟨rfl, nofun⟩
    · rw [List.mem_singleton.1 hp]
      exact Piece.isIdle_newline
  inComment := by
    refine splitComment_of_not_mem (.inr (by simp)) ?_
    simp only [List.mem_append, List.mem_singleton, not_or]
    exact ⟨fun hmem => absurd (h _ hmem) (by decide), by decide⟩

end SketchSense.Model
