import SketchSense.Proofs.Model.Pieces

/-!
# Places of tokens

Pieces lie end to end, so their places grow; a token ends on its line; and a directive has its line
for itself.

* the order of places, and `Place.after` for texts that are put together;
* `InOrder`, that tokens stand one behind the other, with `inOrder_tokens`;
* `line_of_mem_tokens`, that the tokens of a text stand on its lines, and
  `line_ne_of_mem_directives`.
-/

namespace SketchSense.Model

/-! ## Places behind texts -/

namespace Place

/-- Places are ordered by line, and on a line by column. -/
instance : LE Place :=
  ⟨fun p q => p.line < q.line ∨ p.line = q.line ∧ p.column ≤ q.column⟩

theorem le_def {p q : Place} :
    p ≤ q ↔ p.line < q.line ∨ p.line = q.line ∧ p.column ≤ q.column := Iff.rfl

theorem le_refl (p : Place) : p ≤ p := .inr ⟨rfl, Nat.le_refl _⟩

theorem le_trans {p q r : Place} (h : p ≤ q) (h' : q ≤ r) : p ≤ r := by
  rw [le_def] at *
  omega

theorem line_le {p q : Place} (h : p ≤ q) : p.line ≤ q.line := by
  rw [le_def] at h
  omega

@[simp] theorem after_nil (p : Place) : p.after [] = p := rfl

theorem after_append (p : Place) (s t : List Char) : p.after (s ++ t) = (p.after s).after t :=
  List.foldl_append

theorem after_cons (p : Place) (c : Char) (s : List Char) :
    p.after (c :: s) = (p.next c).after s := rfl

theorem line_after (p : Place) (s : List Char) : (p.after s).line = p.line + s.count '\n' := by
  induction s generalizing p with
  | nil => rfl
  | cons c s ih =>
    rw [after_cons, ih]
    by_cases hc : c = '\n'
    · simp [next, hc]
      omega
    · simp [next, hc]

/-- A text without a line feed stays on its line. -/
theorem after_of_not_mem {s : List Char} (h : '\n' ∉ s) (p : Place) :
    p.after s = ⟨p.line, p.column + Text.utf8Length s⟩ := by
  induction s generalizing p with
  | nil => rfl
  | cons c s ih =>
    simp only [List.mem_cons, not_or] at h
    rw [after_cons, ih h.2, next, if_neg (Ne.symm h.1), Text.utf8Length, Nat.add_assoc]

theorem le_after (p : Place) (s : List Char) : p ≤ p.after s := by
  induction s generalizing p with
  | nil => exact le_refl p
  | cons c s ih =>
    refine le_trans ?_ (ih (p.next c))
    unfold next
    split
    · exact .inl (Nat.lt_succ_self _)
    · exact .inr ⟨rfl, Nat.le_add_right _ _⟩

/-- The place so many lines below. -/
def down (p : Place) (n : Nat) : Place := ⟨p.line + n, p.column⟩

/-- Behind whole lines a new line starts. -/
theorem start_after_wholeLines {s : List Char} (h : s = [] ∨ s.getLast? = some '\n') :
    start.after s = ⟨1 + s.count '\n', 1⟩ := by
  have hcolumn : (start.after s).column = 1 := by
    rcases h with rfl | h
    · rfl
    · obtain ⟨t, rfl⟩ := List.getLast?_eq_some_iff.1 h
      rw [after_append]
      rfl
  have hline : (start.after s).line = 1 + s.count '\n' := line_after start s
  calc start.after s = ⟨(start.after s).line, (start.after s).column⟩ := rfl
    _ = ⟨1 + s.count '\n', 1⟩ := by rw [hline, hcolumn]

end Place

/-! ## Pieces within a line -/

theorem not_mem_splitWhile {p : Char → Bool} (h : p '\n' = false) (s : List Char) :
    '\n' ∉ (splitWhile p s).1 := by
  intro hmem
  have hall := List.all_takeWhile (p := p) (l := s)
  rw [List.all_eq_true] at hall
  rw [hall _ hmem] at h
  cases h

theorem not_mem_splitLiteral (quote : Char) (escaped : Bool) (s : List Char) :
    '\n' ∉ (splitLiteral quote escaped s).1 := by
  induction s generalizing escaped with
  | nil => simp [splitLiteral]
  | cons c s ih =>
    unfold splitLiteral
    split
    · simp
    · next hc =>
      split
      · simpa using Ne.symm hc
      · simpa using ⟨Ne.symm hc, ih _⟩

/-- Only line feeds and comments reach past the end of a line. -/
theorem not_mem_front {b : Bool} {c : Char} {cs : List Char} {kind : PieceKind} {split : Split}
    (h : front b c cs = .ok (kind, split)) (hnewline : kind ≠ .newline) (hcomment : kind ≠ .comment) :
    '\n' ∉ c :: split.1 := by
  unfold front at h
  by_cases hc : c = '\n'
  · rw [if_pos hc] at h
    simp_all
  rw [if_neg hc] at h
  repeat' split at h
  all_goals simp only [Except.ok.injEq, Prod.mk.injEq, reduceCtorEq] at h
  all_goals obtain ⟨hkind, rfl⟩ := h
  all_goals simp_all [Ne.symm hc, not_mem_splitWhile, not_mem_splitLiteral, isWordPart, isNumberPart]

/-- What the parser sees, and a directive, stay on their line. -/
def Piece.isOnLine (p : Piece) : Bool := p.lexeme?.isSome || p.kind = .directive

theorem Cuts.text_of_isOnLine {b b' : Bool} {s rest : List Char} {ps : List Piece}
    (h : Cuts b s ps b' rest) {p : Piece} (hp : p ∈ ps) (hline : p.isOnLine = true) :
    '\n' ∉ p.text ∧ p.text ≠ [] := by
  induction h with
  | done => simp at hp
  | piece hfront _ ih =>
    rcases List.mem_cons.1 hp with rfl | hp
    · refine ⟨not_mem_front hfront ?_ ?_, List.cons_ne_nil _ _⟩
      · rintro rfl
        simp [Piece.isOnLine, Piece.lexeme?] at hline
      · rintro rfl
        simp [Piece.isOnLine, Piece.lexeme?] at hline
    · exact ih hp

/-! ## Tokens in order -/

theorem placed_append (p : Place) (ps qs : List Piece) :
    placed p (ps ++ qs) = placed p ps ++ placed (p.after (ps.flatMap (·.text))) qs := by
  induction ps generalizing p with
  | nil => rfl
  | cons x ps ih => simp [placed, ih, Place.after_append]

/-- Each piece stands between the start and the end of the text. -/
theorem le_of_mem_placed {p : Place} {ps : List Piece} {e : Place × Piece} (h : e ∈ placed p ps) :
    p ≤ e.1 ∧ e.1.after e.2.text ≤ p.after (ps.flatMap (·.text)) ∧ e.2 ∈ ps := by
  induction ps generalizing p with
  | nil => simp [placed] at h
  | cons x ps ih =>
    rw [List.flatMap_cons, Place.after_append]
    rcases List.mem_cons.1 h with rfl | h
    · exact ⟨Place.le_refl p, Place.le_after _ _, List.mem_cons_self⟩
    · obtain ⟨hle, hend, hmem⟩ := ih h
      exact ⟨Place.le_trans (Place.le_after _ _) hle, hend, List.mem_cons_of_mem _ hmem⟩

/-- What stands before a piece leads to its place. -/
theorem exists_append_of_mem_placed {p : Place} {ps : List Piece} {e : Place × Piece}
    (h : e ∈ placed p ps) :
    ∃ before behind, ps.flatMap (·.text) = before ++ (e.2.text ++ behind) ∧ e.1 = p.after before := by
  induction ps generalizing p with
  | nil => cases h
  | cons x ps ih =>
    rw [List.flatMap_cons]
    rcases List.mem_cons.1 h with rfl | h
    · exact ⟨[], _, rfl, rfl⟩
    · obtain ⟨before, behind, htext, hplace⟩ := ih h
      refine ⟨x.text ++ before, behind, ?_, ?_⟩
      · rw [htext, List.append_assoc]
      · rw [hplace, Place.after_append]

theorem exists_piece_of_token? {e : Place × Piece} {t : Token} (h : token? e = some t) :
    ∃ lexeme, e.2.lexeme? = some lexeme ∧ t = ⟨lexeme, e.1, Text.utf8Length e.2.text⟩ := by
  obtain ⟨lexeme, hlexeme, rfl⟩ := Option.map_eq_some_iff.1 h
  exact ⟨lexeme, hlexeme, rfl⟩

/-- A token takes the place of its piece. -/
theorem Cuts.stop_of_token? {b b' : Bool} {s rest : List Char} {ps : List Piece}
    (h : Cuts b s ps b' rest) {e : Place × Piece} (he : e.2 ∈ ps) {t : Token}
    (ht : token? e = some t) : t.place = e.1 ∧ t.stop = e.1.after e.2.text ∧ 0 < t.length := by
  obtain ⟨lexeme, hlexeme, rfl⟩ := exists_piece_of_token? ht
  obtain ⟨hline, hne⟩ := h.text_of_isOnLine he (by simp [Piece.isOnLine, hlexeme])
  refine ⟨rfl, (Place.after_of_not_mem hline e.1).symm, ?_⟩
  obtain ⟨c, cs, htext⟩ := List.exists_cons_of_ne_nil hne
  simp only [htext, Text.utf8Length]
  exact Nat.add_pos_left c.utf8Size_pos _

/-- Tokens that stand one behind the other, and take some place. -/
def InOrder (ts : List Token) : Prop :=
  ts.Pairwise (fun t u => t.stop ≤ u.place) ∧ ∀ t ∈ ts, 0 < t.length

theorem inOrder_of_cuts {b b' : Bool} {s rest : List Char} {ps : List Piece}
    (h : Cuts b s ps b' rest) (p : Place) : InOrder ((placed p ps).filterMap token?) := by
  induction h generalizing p with
  | done => exact ⟨by simp [placed], by simp [placed]⟩
  | @piece b b' c cs rest kind split ps hfront hrest ih =>
    have hall : Cuts b (c :: cs) (⟨kind, c :: split.1⟩ :: ps) b' rest := .piece hfront hrest
    obtain ⟨hpairs, hpos⟩ := ih (p.after (c :: split.1))
    rw [placed, List.filterMap_cons]
    cases ht : token? (p, ⟨kind, c :: split.1⟩) with
    | none => exact ⟨hpairs, hpos⟩
    | some t =>
      obtain ⟨-, hstop, hlength⟩ := hall.stop_of_token? List.mem_cons_self ht
      refine ⟨List.pairwise_cons.2 ⟨fun u hu => ?_, hpairs⟩, fun u hu => ?_⟩
      · obtain ⟨e, he, heu⟩ := List.mem_filterMap.1 hu
        obtain ⟨hle, -, hmem⟩ := le_of_mem_placed he
        rw [hstop, (hrest.stop_of_token? hmem heu).1]
        exact hle
      · rcases List.mem_cons.1 hu with rfl | hu
        · exact hlength
        · exact hpos u hu

/-- A place within a token. -/
def Token.Covers (t : Token) (line column : Nat) : Prop :=
  t.place.line = line ∧ t.place.column ≤ column ∧ column < t.place.column + t.length

theorem Token.not_covers_of_stop_le {t u : Token} (h : t.stop ≤ u.place) {line column : Nat}
    (ht : t.Covers line column) : ¬ u.Covers line column := by
  rintro ⟨hline, hle, -⟩
  obtain ⟨hline', -, hlt⟩ := ht
  rcases h with h | ⟨-, h⟩
  · simp only [stop] at h
    omega
  · simp only [stop] at h
    omega

/-- No place is within two tokens. -/
theorem InOrder.eq_of_covers {ts : List Token} (h : InOrder ts) {t u : Token} (ht : t ∈ ts)
    (hu : u ∈ ts) {line column : Nat} (htc : t.Covers line column) (huc : u.Covers line column) :
    t = u := by
  have hpairs := List.pairwise_iff_getElem.1 h.1
  obtain ⟨i, hi, rfl⟩ := List.getElem_of_mem ht
  obtain ⟨j, hj, rfl⟩ := List.getElem_of_mem hu
  rcases Nat.lt_trichotomy i j with hij | rfl | hij
  · exact absurd huc (Token.not_covers_of_stop_le (hpairs i j hi hj hij) htc)
  · rfl
  · exact absurd htc (Token.not_covers_of_stop_le (hpairs j i hj hi hij) huc)

/-- No token stands twice. -/
theorem InOrder.nodup {ts : List Token} (h : InOrder ts) : ts.Nodup := by
  refine List.Pairwise.imp_of_mem ?_ h.1
  rintro t u ht - hle rfl
  have hcovers : t.Covers t.place.line t.place.column :=
    ⟨rfl, Nat.le_refl _, Nat.lt_add_of_pos_right (h.2 t ht)⟩
  exact Token.not_covers_of_stop_le hle hcovers hcovers

/-! ## Lines -/

/-- The pieces of a whole text stand on its lines. -/
theorem line_of_mem_placed {ps : List Piece} {e : Place × Piece} (h : e ∈ placed .start ps) :
    1 ≤ e.1.line ∧ e.1.line ≤ (ps.flatMap (·.text)).count '\n' + 1 := by
  obtain ⟨hstart, hend, -⟩ := le_of_mem_placed h
  have hline := Place.line_le (Place.le_trans (Place.le_after e.1 e.2.text) hend)
  rw [Place.line_after] at hline
  exact ⟨Place.line_le hstart, by simpa [Place.start, Nat.add_comm] using hline⟩

theorem lt_line_of_mem_placed {p : Place} {x : Piece} {ps : List Piece} {e : Place × Piece}
    (h : e ∈ placed (p.after x.text) ps) (hx : '\n' ∈ x.text) : p.line < e.1.line := by
  have hline := Place.line_le (le_of_mem_placed h).1
  have hcount := List.one_le_count_iff.2 hx
  rw [Place.line_after] at hline
  omega

theorem front_newline (b : Bool) (cs : List Char) : front b '\n' cs = .ok (.newline, [], cs) := by
  simp [front]

theorem eq_newline_of_front {b : Bool} {c : Char} {cs : List Char} {split : Split}
    (h : front b c cs = .ok (.newline, split)) : c = '\n' := by
  by_cases hc : c = '\n'
  · exact hc
  · unfold front at h
    rw [if_neg hc] at h
    repeat' split at h
    all_goals simp at h

/-- Behind a directive its line ends. -/
theorem rest_of_directive {b : Bool} {c : Char} {cs : List Char} {split : Split}
    (h : front b c cs = .ok (.directive, split)) :
    b = true ∧ ∀ d, split.2.head? = some d → d = '\n' := by
  unfold front at h
  repeat' split at h
  all_goals simp only [Except.ok.injEq, Prod.mk.injEq, reduceCtorEq, false_and] at h
  next hdirective =>
    refine ⟨hdirective.1, fun d hd => ?_⟩
    have hnot := List.head?_dropWhile_not (fun c => decide (c ≠ '\n')) cs
    obtain ⟨-, rfl⟩ := h
    rw [splitWhile] at hd
    rw [hd] at hnot
    simpa using hnot

/-- No token stands on the line of a directive. Where a line has something on it already, no
directive follows. -/
theorem Cuts.line_of_directive {b b' : Bool} {s rest : List Char} {ps : List Piece}
    (h : Cuts b s ps b' rest) {p : Place} {e : Place × Piece} (he : e ∈ placed p ps)
    (hdirective : e.2.kind = .directive) :
    (b = false → p.line < e.1.line) ∧
      ∀ f ∈ placed p ps, f.2.lexeme?.isSome → f.1.line ≠ e.1.line := by
  induction h generalizing p with
  | done => simp [placed] at he
  | @piece b b' c cs rest kind split ps hfront hrest ih =>
    rw [placed] at he
    rcases List.mem_cons.1 he with rfl | he
    · -- the directive comes first: behind it there is nothing, or a line feed
      simp only at hdirective
      subst hdirective
      obtain ⟨rfl, hend⟩ := rest_of_directive hfront
      refine ⟨by simp, fun f hf hlexeme => ?_⟩
      rcases List.mem_cons.1 hf with rfl | hf
      · simp [Piece.lexeme?] at hlexeme
      · have hle := Place.line_le (Place.le_after p (c :: split.1))
        generalize hsplit : split.2 = behind at hrest
        cases hrest with
        | done => simp [placed] at hf
        | piece hfront' _ =>
          rw [hsplit] at hend
          have hd := hend _ rfl
          subst hd
          rw [front_newline] at hfront'
          cases hfront'
          rcases List.mem_cons.1 hf with rfl | hf
          · simp [Piece.lexeme?] at hlexeme
          · have hlt := lt_line_of_mem_placed hf List.mem_cons_self
            exact Nat.ne_of_gt (Nat.lt_of_le_of_lt hle hlt)
    · obtain ⟨hafter, hother⟩ := ih he
      have hle := Place.line_le (Place.le_after p (c :: split.1))
      refine ⟨fun hb => ?_, fun f hf hlexeme => ?_⟩
      · cases kind with
        | newline =>
          rw [eq_newline_of_front hfront] at he
          exact lt_line_of_mem_placed (x := ⟨.newline, '\n' :: split.1⟩) he List.mem_cons_self
        | space | directive => exact Nat.lt_of_le_of_lt hle (hafter hb)
        | _ => exact Nat.lt_of_le_of_lt hle (hafter rfl)
      · rcases List.mem_cons.1 hf with rfl | hf
        · have hfalse : kind.lineStartAfter b = false := by
            cases kind <;> first | rfl | simp [Piece.lexeme?] at hlexeme
          exact Nat.ne_of_lt (Nat.lt_of_le_of_lt hle (hafter hfalse))
        · exact hother f hf hlexeme

/-! ## Texts -/

/-- The tokens and directives of a text are those of its pieces. -/
theorem exists_cuts_of_lex {text : String} {lx : Lexed} (h : lex text = .ok lx) :
    ∃ ps b, Cuts true text.toList ps b [] ∧
      lx = ⟨(placed .start ps).filterMap token?, (placed .start ps).filterMap directive?⟩ := by
  unfold lex pieces at h
  split at h
  · cases h
  · next ps hps =>
    cases h
    obtain ⟨b, hcuts⟩ := exists_cuts_of_piecesFrom hps
    exact ⟨ps, b, hcuts, rfl⟩

theorem lex_of_cuts {text : String} {ps : List Piece} {b : Bool}
    (h : Cuts true text.toList ps b []) :
    lex text =
      .ok ⟨(placed .start ps).filterMap token?, (placed .start ps).filterMap directive?⟩ := by
  unfold lex pieces
  rw [piecesFrom_of_cuts h]

variable {text : String} {lx : Lexed}

theorem inOrder_tokens (h : lex text = .ok lx) : InOrder lx.tokens := by
  obtain ⟨ps, b, hcuts, rfl⟩ := exists_cuts_of_lex h
  exact inOrder_of_cuts hcuts .start

/-- The tokens of a text stand on its lines. -/
theorem line_of_mem_tokens (h : lex text = .ok lx) {t : Token} (ht : t ∈ lx.tokens) :
    1 ≤ t.place.line ∧ t.place.line ≤ text.toList.count '\n' + 1 := by
  obtain ⟨ps, b, hcuts, rfl⟩ := exists_cuts_of_lex h
  obtain ⟨e, he, het⟩ := List.mem_filterMap.1 ht
  obtain ⟨lexeme, -, rfl⟩ := exists_piece_of_token? het
  rw [hcuts.text_eq, List.append_nil]
  exact line_of_mem_placed he

/-- The directives of a text stand on its lines. -/
theorem line_of_mem_directives (h : lex text = .ok lx) {d : Directive} (hd : d ∈ lx.directives) :
    1 ≤ d.place.line := by
  obtain ⟨ps, b, hcuts, rfl⟩ := exists_cuts_of_lex h
  obtain ⟨e, he, hed⟩ := List.mem_filterMap.1 hd
  unfold directive? at hed
  split at hed
  · cases hed
    exact (line_of_mem_placed he).1
  · cases hed

/-- No token stands on the line of a directive. -/
theorem line_ne_of_mem_directives (h : lex text = .ok lx) {d : Directive} (hd : d ∈ lx.directives)
    {t : Token} (ht : t ∈ lx.tokens) : t.place.line ≠ d.place.line := by
  obtain ⟨ps, b, hcuts, rfl⟩ := exists_cuts_of_lex h
  obtain ⟨e, he, hed⟩ := List.mem_filterMap.1 hd
  obtain ⟨f, hf, hft⟩ := List.mem_filterMap.1 ht
  unfold directive? at hed
  split at hed
  · next hkind =>
    obtain ⟨lexeme, hlexeme, rfl⟩ := exists_piece_of_token? hft
    cases hed
    exact (hcuts.line_of_directive he hkind).2 f hf (by simp [hlexeme])
  · cases hed

end SketchSense.Model
