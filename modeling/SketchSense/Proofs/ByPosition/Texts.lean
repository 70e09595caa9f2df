import Mathlib.Data.List.Induction
import SketchSense.Proofs.ByPosition.Lexing
import SketchSense.Proofs.Text.Positions
import SketchSense.Proofs.Text.Search

/-!
# Whole texts by position

A text is lexed piece by piece, and the only thing that can go wrong is that the place behind the last
piece does not fit its words: where more is to come, the text is not long enough for that.

* `lastPlace`, the place behind the last piece, and `loop_eq`, the lexer from any round on;
* `Overlong`, the texts on which the lexer stops, with `overlong_iff`;
* `lex_eq`, the tokens and directives of all other texts, which end at places that fit.
-/

namespace SketchSense.Model.ByPosition

/-! ## The last place -/

/-- The place behind the last piece. -/
def lastPlace (p : Place) : List Piece → Place
  | [] => p
  | [x] => behind p x.text
  | x :: y :: ps => lastPlace (p.after x.text) (y :: ps)

theorem lastPlace_append (p : Place) (ps : List Piece) (x : Piece) :
    lastPlace p (ps ++ [x]) = behind (p.after (ps.flatMap (·.text))) x.text := by
  induction ps generalizing p with
  | nil => rfl
  | cons y ps ih =>
    obtain ⟨z, zs, hcons⟩ : ∃ z zs, ps ++ [x] = z :: zs := List.exists_cons_of_ne_nil (by simp)
    rw [List.cons_append, hcons, lastPlace, ← hcons, ih, List.flatMap_cons, Place.after_append]

variable {text left : List Char} {ps : List Piece} {b b' : Bool}

theorem eq_nil_of_cuts_nil {rest : List Char} (h : Cuts b [] ps b' rest) : ps = [] := by
  cases h
  rfl

/-- Where a piece leaves more to come, the next place is the one behind the piece, and it fits. -/
theorem Takes.goes_on {s s' : Lexing} {piece : Piece} {rest : List Char}
    (htakes : Takes text s s' piece rest) (hshort : text.length < wordLimit)
    (hwithin : s.place.Within s.position) (hleft : text.drop s.position = piece.text ++ rest)
    (hascii : ∀ d ∈ piece.text, isAscii d = true) (hne : rest ≠ []) :
    s'.place = s.place.after piece.text ∧ s'.place.Within s'.position ∧ s'.place.Fits := by
  have hplace : s'.place = s.place.after piece.text := by
    rw [htakes.place, behind, if_neg (htakes.closed hne)]
    rfl
  have hposition : s'.position = s.position + piece.text.length ∧ s'.position < text.length := by
    have hleaves := congrArg List.length htakes.leaves
    have hlength := congrArg List.length hleft
    have hpos := List.length_pos_iff.2 hne
    rw [List.length_drop] at hleaves hlength
    rw [List.length_append] at hlength
    omega
  have hafter := within_after hwithin hascii
  rw [← hposition.1, ← hplace] at hafter
  exact ⟨hplace, hafter, hafter.fits (by omega)⟩

/-- What is read of the first piece stands in front of what is read of the others. -/
theorem filterMap_placed_cons {β : Type} (f : Place × Piece → Option β) (p : Place) (x : Piece)
    (ps : List Piece) : (placed p (x :: ps)).filterMap f =
      (f (p, x)).toList ++ (placed (p.after x.text) ps).filterMap f := by
  rw [placed, List.filterMap_cons]
  cases f (p, x) <;> rfl

/-- From any round on the lexer takes the pieces that are left, unless the last place does not fit. -/
theorem loop_eq (hshort : text.length < wordLimit) (hascii : ∀ d ∈ text, isAscii d = true)
    (hcuts : Cuts b left ps b' []) {s : Lexing} (hleft : text.drop s.position = left)
    (hstart : s.lineStart = b) (hfits : s.place.Fits)
    (hwithin : left ≠ [] → s.place.Within s.position) :
    ∃ s', loop text.length Lexing.position (Lexing.round text) s =
        (if (lastPlace s.place ps).Fits then .ok s' else .error .overflow) ∧
      s'.tokens = s.tokens ++ (placed s.place ps).filterMap token? ∧
      s'.directives = s.directives ++ (placed s.place ps).filterMap directive? := by
  generalize hnil : ([] : List Char) = rest at hcuts
  -- one round for each piece: what the piece leaves is what stands at the next position
  induction hcuts generalizing s with
  | done b left =>
    subst hnil
    have hstop : text.length ≤ s.position := List.drop_eq_nil_iff.1 hleft
    exact ⟨s, by rw [loop_done hstop, lastPlace, if_pos hfits], by simp [placed], by simp [placed]⟩
  | @piece b b' c cs rest kind split ps hfront hrest ih =>
    have hlt : s.position < text.length := by
      rw [← Nat.not_le, ← List.drop_eq_nil_iff, hleft]
      exact List.cons_ne_nil c cs
    have htext : text = text.take s.position ++ c :: cs := by
      rw [← hleft, List.take_append_drop]
    have hpiece : ∀ d ∈ c :: cs, isAscii d = true :=
      fun d hd => hascii d (htext ▸ List.mem_append_right _ hd)
    have hcs : c :: split.1 ++ split.2 = c :: cs := congrArg (c :: ·) (front_eq hfront)
    obtain ⟨s', htakes, hround⟩ := round_eq hshort (hwithin (List.cons_ne_nil c cs)) htext
      (List.length_take_of_le (Nat.le_of_lt hlt)).symm hpiece (hstart ▸ hfront)
    have hmore := htakes.goes_on hshort (hwithin (List.cons_ne_nil c cs)) (hleft.trans hcs.symm)
      fun d hd => hpiece d (hcs ▸ List.mem_append_left _ hd)
    have hsame : lastPlace s'.place ps = lastPlace s.place (⟨kind, c :: split.1⟩ :: ps) ∧
        placed s'.place ps = placed (s.place.after (c :: split.1)) ps := by
      cases ps with
      | nil => exact ⟨htakes.place, rfl⟩
      | cons x ps =>
        have hne : split.2 ≠ [] := fun heq => by
          rw [heq] at hrest
          cases eq_nil_of_cuts_nil hrest
        rw [(hmore hne).1]
        exact ⟨rfl, rfl⟩
    rw [← hsame.1, filterMap_placed_cons, filterMap_placed_cons, ← hsame.2, ← List.append_assoc,
      ← htakes.tokens, ← List.append_assoc, ← htakes.directives]
    by_cases hend : s'.place.Fits
    · rw [if_pos hend] at hround
      rw [loop_round hlt hround htakes.moves]
      exact ih htakes.leaves (by rw [htakes.lineStart, hstart]) hend (fun hne => (hmore hne).2.1) hnil
    · rw [if_neg hend] at hround
      have hlast : split.2 = [] := Classical.byContradiction fun hne => hend (hmore hne).2.2
      rw [hlast] at hrest
      obtain rfl := eq_nil_of_cuts_nil hrest
      refine ⟨s', ?_, by simp [placed], by simp [placed]⟩
      rw [loop_misstep hlt hround, lastPlace, if_neg hend]

/-! ## Overlong texts -/

/-- A text that ends in a block comment that nothing closes. -/
def EndsInComment (text : List Char) : Prop :=
  ∃ ps x b, Cuts true text (ps ++ [x]) b [] ∧ OpensComment x.text

/-- A text with too many lines or too long a line: it is as long as a text shorter than a word can be,
and it is a single line or only line feeds; or it ends in a comment that nothing closes, behind which
two more columns are counted. -/
def Overlong (text : List Char) : Prop :=
  Text.OverlongEnd text ∨ EndsInComment text ∧ ∃ above line, text = above ++ line ∧ '\n' ∉ line ∧
    wordLimit ≤ line.length + 2 + 1

theorem start_within : Place.start.Within 0 := ⟨Nat.le_refl 1, Nat.le_refl 1⟩

theorem start_fits : Place.start.Fits := start_within.fits (by decide)

theorem one_le_column_after (s : List Char) : 1 ≤ (Place.start.after s).column := by
  have hnext (p : Place) (hp : 1 ≤ p.column) : 1 ≤ (p.after s).column := by
    induction s generalizing p with
    | nil => exact hp
    | cons c s ih =>
      refine ih (p.next c) ?_
      unfold Place.next
      split
      · exact Nat.le_refl 1
      · exact Nat.le_trans hp (Nat.le_add_right _ _)
  exact hnext .start (Nat.le_refl 1)

/-- The last line of a text, and the column behind it. -/
theorem exists_lastLine (text : List Char) (hascii : ∀ c ∈ text, isAscii c = true) :
    ∃ above line, text = above ++ line ∧ '\n' ∉ line ∧
      (Place.start.after text).column = line.length + 1 := by
  induction text using List.reverseRecOn with
  | nil => exact ⟨[], [], rfl, List.not_mem_nil, rfl⟩
  | append_singleton s c ih =>
    have hc := hascii c (by simp)
    obtain ⟨above, line, htext, hline, hcolumn⟩ := ih fun d hd => hascii d (by simp [hd])
    rw [Place.after_append, Place.after_cons, Place.after_nil, next_of_isAscii hc]
    by_cases hfeed : c = '\n'
    · exact ⟨s ++ [c], [], (List.append_nil _).symm, List.not_mem_nil, by rw [if_pos hfeed]; rfl⟩
    · refine ⟨above, line ++ [c], by rw [htext, List.append_assoc], ?_, ?_⟩
      · simp [hline, Ne.symm hfeed]
      · rw [if_neg hfeed, List.length_append, Place.right, hcolumn]
        rfl

/-- The last place is the one behind the text, unless the text ends in a comment that nothing closes. -/
theorem lastPlace_eq (hcuts : Cuts true text ps b []) :
    (EndsInComment text ∧ lastPlace .start ps = (Place.start.after text).right 2) ∨
      ¬EndsInComment text ∧ lastPlace .start ps = Place.start.after text := by
  have htext : text = ps.flatMap (·.text) := by rw [hcuts.text_eq, List.append_nil]
  have hunique {qs : List Piece} {b' : Bool} (h : Cuts true text qs b' []) : qs = ps :=
    Except.ok.inj ((piecesFrom_of_cuts h).symm.trans (piecesFrom_of_cuts hcuts))
  rcases List.eq_nil_or_concat ps with rfl | ⟨init, x, rfl⟩
  · refine .inr ⟨?_, by rw [htext]; rfl⟩
    rintro ⟨qs, y, _, hqs, -⟩
    simpa using hunique hqs
  · rw [List.concat_eq_append] at hcuts htext hunique ⊢
    have hplace : lastPlace .start (init ++ [x]) =
        (Place.start.after text).right (if OpensComment x.text then 2 else 0) := by
      rw [lastPlace_append, behind, ← Place.after_append, htext, List.flatMap_append,
        List.flatMap_singleton]
    rw [hplace]
    by_cases hopen : OpensComment x.text
    · rw [if_pos hopen]
      exact .inl ⟨⟨init, x, b, hcuts, hopen⟩, rfl⟩
    · rw [if_neg hopen]
      refine .inr ⟨?_, rfl⟩
      rintro ⟨qs, y, _, hqs, hy⟩
      obtain ⟨-, heq⟩ := List.append_inj' (hunique hqs) rfl
      cases heq
      exact hopen hy

/-- The lexer stops on overlong texts, and on no others. -/
theorem overlong_iff (hshort : text.length < wordLimit) (hascii : ∀ c ∈ text, isAscii c = true)
    (hcuts : Cuts true text ps b []) : Overlong text ↔ ¬(lastPlace .start ps).Fits := by
  have hlength := utf8Length_of_isAscii hascii
  have hlines : (Place.start.after text).line = 1 + text.count '\n' := Place.line_after _ _
  have hcount : text.count '\n' ≤ text.length := List.count_le_length
  obtain ⟨above, line, htext, hline, hcolumn⟩ := exists_lastLine text hascii
  have hfeeds : text.count '\n' = above.count '\n' := by
    rw [htext, List.count_append, List.count_eq_zero_of_not_mem hline, Nat.add_zero]
  have hwhole : text.length = above.length + line.length := by rw [htext, List.length_append]
  have habove : above.count '\n' ≤ above.length := List.count_le_length
  rw [Overlong, Text.OverlongEnd, hlength]
  constructor
  · intro hoverlong hfits
    have hafter : (Place.start.after text).Fits := by
      rcases lastPlace_eq hcuts with ⟨-, hlast⟩ | ⟨-, hlast⟩
      · exact Place.Fits.of_right (hlast ▸ hfits)
      · exact hlast ▸ hfits
    rcases hoverlong with ⟨hlong, hone | hempty⟩ | ⟨hends, above', line', rfl, hline', hlong⟩
    · -- a single line has a column too many, and line feeds alone are a line too many
      have hcolumn := hafter.column
      rw [after_eq_right hascii (List.count_eq_zero.1 hone)] at hcolumn
      simp only [Place.right, Place.start] at hcolumn
      omega
    · have := hafter.line
      omega
    · have hcolumn := hfits.column
      have hpos := one_le_column_after above'
      obtain ⟨-, hlast⟩ := (lastPlace_eq hcuts).resolve_right fun h => h.1 hends
      rw [hlast, Place.after_append, after_eq_right (fun d hd => hascii d (by simp [hd])) hline']
        at hcolumn
      simp only [Place.right] at hcolumn
      omega
  · intro hfits
    have hend (k : Nat) (h : ¬((Place.start.after text).right k).Fits) :
        (text.length + 1 = wordLimit ∧ (text.count '\n' = 0 ∨ text.count '\n' = text.length)) ∨
          wordLimit ≤ line.length + k + 1 := by
      by_cases hlineFits : (Place.start.after text).line < wordLimit
      · have hover : ¬(Place.start.after text).column + k < wordLimit :=
          fun hlt => h ⟨hlineFits, hlt⟩
        exact .inr (by omega)
      · exact .inl (by omega)
    rcases lastPlace_eq hcuts with ⟨hends, hlast⟩ | ⟨-, hlast⟩
    · rw [hlast] at hfits
      rcases hend 2 hfits with hlong | hlong
      · exact .inl hlong
      · exact .inr ⟨hends, above, line, htext, hline, hlong⟩
    · rw [hlast] at hfits
      rcases hend 0 hfits with hlong | hlong
      · exact .inl hlong
      · exact .inl (by omega)

/-! ## Tokens and directives -/

/-- The body of a directive ends at a column that is a word. -/
def DirectiveFits (d : Directive) : Prop :=
  d.place.column + 1 + Text.utf8Length d.body < wordLimit

/-- The tokens and directives that a text is lexed to end at places that fit. -/
structure LexedFits (lx : Lexed) : Prop where
  tokens : ∀ t ∈ lx.tokens, t.stop.Fits
  directives : ∀ d ∈ lx.directives, DirectiveFits d

/-- A piece ends at a place that fits, unless it is the last one of an overlong text. -/
theorem fits_of_mem_placed (hshort : text.length < wordLimit)
    (hascii : ∀ c ∈ text, isAscii c = true) (hcuts : Cuts true text ps b [])
    (hfits : (lastPlace .start ps).Fits) {e : Place × Piece} (he : e ∈ placed .start ps) :
    (e.1.after e.2.text).Fits := by
  have htext : text = ps.flatMap (·.text) := by rw [hcuts.text_eq, List.append_nil]
  obtain ⟨before, behind, hwhole, hplace⟩ := exists_append_of_mem_placed he
  rw [← htext, ← List.append_assoc] at hwhole
  rw [hplace, ← Place.after_append]
  cases behind with
  | nil =>
    rw [List.append_nil] at hwhole
    rw [← hwhole]
    rcases lastPlace_eq hcuts with ⟨-, hlast⟩ | ⟨-, hlast⟩
    · exact Place.Fits.of_right (hlast ▸ hfits)
    · exact hlast ▸ hfits
  | cons c cs =>
    have hlength := congrArg List.length hwhole
    rw [List.length_append, List.length_cons] at hlength
    refine (within_after start_within fun d hd => hascii d ?_).fits (by omega)
    rw [hwhole]
    exact List.mem_append_left _ hd

theorem lexedFits_of_cuts (hshort : text.length < wordLimit) (hascii : ∀ c ∈ text, isAscii c = true)
    (hcuts : Cuts true text ps b []) (hfits : (lastPlace .start ps).Fits) :
    LexedFits ⟨(placed .start ps).filterMap token?, (placed .start ps).filterMap directive?⟩ := by
  constructor
  · intro t ht
    obtain ⟨e, he, hte⟩ := List.mem_filterMap.1 ht
    rw [(hcuts.stop_of_token? (le_of_mem_placed he).2.2 hte).2.1]
    exact fits_of_mem_placed hshort hascii hcuts hfits he
  · intro d hd
    obtain ⟨⟨p, kind, s⟩, he, hde⟩ := List.mem_filterMap.1 hd
    obtain ⟨hkind, hd⟩ := Option.ite_none_right_eq_some.1 hde
    cases hd
    have honline : Piece.isOnLine ⟨kind, s⟩ = true := by
      simp only at hkind
      simp [Piece.isOnLine, hkind]
    obtain ⟨hline, hne⟩ := hcuts.text_of_isOnLine (le_of_mem_placed he).2.2 honline
    have hend := (fits_of_mem_placed hshort hascii hcuts hfits he).column
    obtain ⟨c, cs, rfl⟩ := List.exists_cons_of_ne_nil hne
    rw [Place.after_of_not_mem hline, Text.utf8Length] at hend
    have hpos := c.utf8Size_pos
    obtain ⟨front, behind, hwhole⟩ := Text.trim_isInfix cs
    have hlength := congrArg Text.utf8Length hwhole
    rw [Text.utf8Length_append, Text.utf8Length_append] at hlength
    change p.column + 1 + Text.utf8Length (Text.trim cs) < wordLimit
    dsimp only at hend
    omega

/-- An ASCII text is lexed to its tokens and directives, unless it is overlong. -/
theorem lex_eq {text : String} (hascii : ∀ c ∈ text.toList, isAscii c = true)
    (hshort : text.toList.length < wordLimit) :
    ∃ lx, Model.lex text = .ok lx ∧ lex text.toList = overflowIf (Overlong text.toList) (.ok lx) ∧
      (¬Overlong text.toList → LexedFits lx) := by
  obtain ⟨ps, b, hcuts⟩ := exists_cuts hascii true
  have hoverlong := overlong_iff hshort hascii hcuts
  obtain ⟨s, hloop, htokens, hdirectives⟩ :=
    loop_eq (s := {}) hshort hascii hcuts rfl rfl start_fits fun _ => start_within
  refine ⟨_, lex_of_cuts hcuts, ?_, fun h => ?_⟩
  · unfold lex
    rw [hloop]
    by_cases h : Overlong text.toList
    · rw [overflowIf_of h, if_neg (hoverlong.1 h)]
      rfl
    · rw [overflowIf_of_not h, if_pos (Classical.not_not.1 fun hnot => h (hoverlong.2 hnot)), ok_bind,
        htokens, hdirectives]
      rfl
  · exact lexedFits_of_cuts hshort hascii hcuts
      (Classical.not_not.1 fun hnot => h (hoverlong.2 hnot))

end SketchSense.Model.ByPosition
