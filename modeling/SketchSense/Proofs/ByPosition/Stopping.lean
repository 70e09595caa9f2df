import Mathlib
import SketchSense.Proofs.ByPosition.Building

/-!
# Where building stops

Of all the entries, slices and differences that lexing and building ask for, only one can be missing,
the inside of a block that opens with the last token of its file. All else that can stop them is a
number that gets too large for its word: a line or a column of a text that is about as long as a word
can say, or the marks that are open where about 2^31 of them are.

* `build_stops_iff`: lexing and building stop for these reasons, and for no others;
* `stops_iff_of_short`: in a text that is not half as long only the open block is left;
* `build_overflows_without_brace`, a text without a single token that stops the lexer.
-/

namespace SketchSense.Model.ByPosition

/-! ## Units -/

section Units

variable {main : FilePath} {unsaved : List FileBuffer}

/-- Lexing stops on overlong texts and on no others. Building stops exactly if the scan of some file
does, for the reason that it has: an overlong text, too many open marks, or an open block at the end.
Every other entry, slice and difference is there, every other number fits, and every loop goes on. -/
theorem build_stops_iff (hascii : ∀ b ∈ unsaved, ∀ c ∈ b.code.toList, isAscii c = true)
    (hlength : ∀ b ∈ unsaved, Text.utf8Length b.code.toList < wordLimit) :
    (∀ b ∈ unsaved, ∃ lx, Model.lex b.code = .ok lx ∧
        lex b.code.toList = overflowIf (Overlong b.code.toList) (.ok lx)) ∧
      (∀ u, build main unsaved = .ok u → buildUnit main unsaved = .ok u) ∧
      (∀ e, build main unsaved = .error e → ∃ b ∈ unsaved, Stops b.code e) ∧
      ((∃ e, build main unsaved = .error e) ↔ ∃ b ∈ unsaved, ∃ e, Stops b.code e) := by
  have hshort : ∀ b ∈ unsaved, b.code.toList.length < wordLimit := fun b hb => by
    rw [← utf8Length_of_isAscii (hascii b hb)]
    exact hlength b hb
  have hbuilds := build_builds main hascii hshort
  refine ⟨fun b hb => ?_, fun u hu => ?_, fun e he => ?_, ?_, ?_⟩
  · obtain ⟨lx, hmodel, hlex, -⟩ := lex_eq (hascii b hb) (hshort b hb)
    exact ⟨lx, hmodel, hlex⟩
  · rw [hu] at hbuilds
    cases hbuilds with
    | builds hunit _ => exact hunit
  · rw [he] at hbuilds
    cases hbuilds with
    | stops hb h => exact ⟨_, hb, h⟩
  · rintro ⟨e, he⟩
    rw [he] at hbuilds
    cases hbuilds with
    | stops hb h => exact ⟨_, hb, e, h⟩
  · rintro ⟨b, hb, e, h⟩
    generalize build main unsaved = x at hbuilds
    cases hbuilds with
    | stops _ _ => exact ⟨_, rfl⟩
    | builds _ hgoes => exact absurd h (hgoes b hb e)

/-- No file of a unit of the model ends with an open block. -/
theorem not_stops_of_buildUnit {u : CompilationUnit} (hu : buildUnit main unsaved = .ok u)
    {b : FileBuffer} (hb : b ∈ unsaved) : ¬Stops b.code .openBlock := by
  rintro (_ | _ | ⟨hlex, hopens⟩)
  obtain ⟨files, hfiles, -⟩ := buildUnit_eq_ok.1 hu
  obtain ⟨m, -, hm⟩ := (mem_of_mapM_eq_ok hfiles).1 b (mem_mainLast.2 hb)
  obtain ⟨lx, declared, hlex', hdeclared, -⟩ := ofBuffer_eq_ok.1 hm
  rw [hlex] at hlex'
  cases hlex'
  obtain ⟨d, hd, e, herror⟩ := (exists_error_iff b.path).2 hopens
  obtain ⟨x, -, hx⟩ := (mem_of_mapM_eq_ok hdeclared).1 d hd
  rw [herror] at hx
  cases hx

end Units

/-! ## Short texts -/

section Short

variable {text : String} {lx : Lexed} {ts : List Token} {d : Declaration}

theorem length_le_of_cuts {s rest : List Char} {ps : List Piece} {b b' : Bool}
    (h : Cuts b s ps b' rest) : ps.length ≤ s.length := by
  induction h with
  | done => exact Nat.zero_le _
  | @piece _ _ c cs _ _ x ps hfront _ ih =>
    have hwhole := congrArg List.length (front_eq hfront)
    rw [List.length_append] at hwhole
    rw [List.length_cons, List.length_cons]
    omega

theorem length_placed (p : Place) (ps : List Piece) : (placed p ps).length = ps.length := by
  induction ps generalizing p with
  | nil => rfl
  | cons x ps ih => rw [placed, List.length_cons, List.length_cons, ih]

/-- A text has no more tokens than characters. -/
theorem length_tokens_le (hlex : Model.lex text = .ok lx) :
    lx.tokens.length ≤ text.toList.length := by
  obtain ⟨ps, b, hcuts, rfl⟩ := exists_cuts_of_lex hlex
  calc ((placed .start ps).filterMap token?).length
      ≤ (placed .start ps).length := List.length_filterMap_le _ _
    _ = ps.length := length_placed .start ps
    _ ≤ text.toList.length := length_le_of_cuts hcuts

theorem length_parts_le {inRecord : Bool} (hd : d ∈ declarations inRecord ts) :
    d.parts.length ≤ ts.length := by
  have hparts : d.parts.Sublist ((declarations inRecord ts).flatMap Declaration.parts) := by
    rw [List.flatMap_def]
    exact List.sublist_flatten_of_mem (List.mem_map_of_mem hd)
  exact (hparts.trans (parts_sublist inRecord ts)).length_le

/-- A declaration that nests too deep has too many tokens. -/
theorem TooDeep.le_length (hd : d ∈ declarations false ts) (h : TooDeep d) :
    signLimit ≤ ts.length + 2 := by
  have hlength := length_parts_le hd
  rw [Declaration.parts, List.length_append] at hlength
  rcases h with hdeep | ⟨block, hblock, ⟨inside, hinside, hdeep⟩ | ⟨-, -, inside, hinside, m, hm, hdeep⟩⟩
  · have hle := hdeep.le_length
    omega
  · have hle := hdeep.le_length
    rw [insideTokens_of_block hblock hinside] at hlength
    rw [List.length_append, List.length_singleton] at hle
    omega
  · have hle := hdeep.le_length
    have hmember := length_parts_le hm
    rw [insideTokens_of_block hblock hinside] at hlength
    rw [Declaration.parts, List.length_append] at hmember
    omega

/-- In a text shorter than 2^31 - 2 bytes no number gets too large, and only an open block at its end
stops the scan. -/
theorem stops_iff_of_short (hshort : Text.utf8Length text.toList + 2 < signLimit) {e : Misstep} :
    Stops text e ↔ e = .openBlock ∧ ∃ lx, Model.lex text = .ok lx ∧ OpensAtEnd lx.tokens := by
  have hlimit : signLimit + signLimit = wordLimit := rfl
  have hlength := Text.length_le_utf8Length text.toList
  constructor
  · intro h
    cases h with
    | overlong h =>
      rcases h with ⟨hlong, -⟩ | ⟨-, above, line, htext, -, hlong⟩
      · omega
      · have hwhole := congrArg List.length htext
        rw [List.length_append] at hwhole
        omega
    | tooDeep hlex hd hdeep =>
      have htokens := length_tokens_le hlex
      have hle := hdeep.le_length hd
      omega
    | openBlock hlex hopens => exact ⟨rfl, _, hlex, hopens⟩
  · rintro ⟨rfl, lx, hlex, hopens⟩
    exact .openBlock hlex hopens

end Short

/-- A function whose block is never begun stops the building, behind an enumeration that is closed; a
brace at the end that stands in an open block does not. -/
theorem build_stops_behind_enumeration :
    build ⟨"/s/m.c"⟩ [⟨⟨"/s/m.c"⟩, "enum e \x7b a \x7d; int f() \x7b"⟩] = .error .openBlock ∧
      ∃ u, build ⟨"/s/m.c"⟩ [⟨⟨"/s/m.c"⟩, "union u \x7b int a; struct s \x7b"⟩] = .ok u := by
  obtain ⟨-, -, hreason, hstops⟩ := @build_stops_iff ⟨"/s/m.c"⟩
    [⟨⟨"/s/m.c"⟩, "enum e \x7b a \x7d; int f() \x7b"⟩]
    (List.forall_mem_singleton.2 (List.all_eq_true.1 (by decide))) (by decide)
  obtain ⟨-, -, hnested, -⟩ := @build_stops_iff ⟨"/s/m.c"⟩
    [⟨⟨"/s/m.c"⟩, "union u \x7b int a; struct s \x7b"⟩]
    (List.forall_mem_singleton.2 (List.all_eq_true.1 (by decide))) (by decide)
  constructor
  · have hlex : Model.lex "enum e \x7b a \x7d; int f() \x7b" = .ok ⟨
        [⟨.word "enum", ⟨1, 1⟩, 4⟩, ⟨.word "e", ⟨1, 6⟩, 1⟩, ⟨.mark '{', ⟨1, 8⟩, 1⟩,
          ⟨.word "a", ⟨1, 10⟩, 1⟩, ⟨.mark '}', ⟨1, 12⟩, 1⟩, ⟨.mark ';', ⟨1, 13⟩, 1⟩,
          ⟨.word "int", ⟨1, 15⟩, 3⟩, ⟨.word "f", ⟨1, 19⟩, 1⟩, ⟨.mark '(', ⟨1, 20⟩, 1⟩,
          ⟨.mark ')', ⟨1, 21⟩, 1⟩, ⟨.mark '{', ⟨1, 23⟩, 1⟩], []⟩ := by cbv
    have henumeration : Outside
        [⟨.word "enum", ⟨1, 1⟩, 4⟩, ⟨.word "e", ⟨1, 6⟩, 1⟩, ⟨.mark '{', ⟨1, 8⟩, 1⟩,
          ⟨.word "a", ⟨1, 10⟩, 1⟩, ⟨.mark '}', ⟨1, 12⟩, 1⟩] [] :=
      have hinside : depth? '{' '}' 0 [⟨.word "a", ⟨1, 10⟩, 1⟩] = some 0 := rfl
      ((Outside.start.token rfl rfl).token rfl rfl).block rfl hinside rfl
    have hhead := ((((henumeration.semicolon (t := ⟨.mark ';', ⟨1, 13⟩, 1⟩) rfl).token
      (t := ⟨.word "int", ⟨1, 15⟩, 3⟩) rfl rfl).token (t := ⟨.word "f", ⟨1, 19⟩, 1⟩) rfl rfl).token
      (t := ⟨.mark '(', ⟨1, 20⟩, 1⟩) rfl rfl).token (t := ⟨.mark ')', ⟨1, 21⟩, 1⟩) rfl rfl
    obtain ⟨e, he⟩ := hstops.2 ⟨_, List.mem_singleton_self _, _, .openBlock hlex
      ⟨_, _, ⟨.mark '{', ⟨1, 23⟩, 1⟩, rfl, rfl, hhead, .inl (by decide)⟩⟩
    obtain ⟨b, hb, h⟩ := hreason e he
    rw [List.mem_singleton.1 hb] at h
    rw [he, ((stops_iff_of_short (by decide)).1 h).1]
  · have hunit : (buildUnit ⟨"/s/m.c"⟩
        [⟨⟨"/s/m.c"⟩, "union u \x7b int a; struct s \x7b"⟩]).isOk = true := by cbv
    obtain ⟨u, hu⟩ := exists_of_isOk hunit
    cases hbuild : build ⟨"/s/m.c"⟩ [⟨⟨"/s/m.c"⟩, "union u \x7b int a; struct s \x7b"⟩] with
    | ok u => exact ⟨u, rfl⟩
    | error e =>
      obtain ⟨b, hb, h⟩ := hnested e hbuild
      have hgoes := not_stops_of_buildUnit hu hb
      rw [List.mem_singleton.1 hb] at h hgoes
      rw [((stops_iff_of_short (by decide)).1 h).1] at h
      exact absurd h hgoes

/-! ## Long texts -/

/-- An overlong file is not even lexed. -/
theorem build_overlong {path : FilePath} {code : String}
    (hascii : ∀ c ∈ code.toList, isAscii c = true) (hshort : code.toList.length < wordLimit)
    (h : Overlong code.toList) : build path [⟨path, code⟩] = .error .overflow := by
  obtain ⟨lx, -, hlex, -⟩ := lex_eq hascii hshort
  have honly : mainLast path [⟨path, code⟩] = [⟨path, code⟩] := by simp [mainLast]
  unfold build scan
  rw [honly, List.foldlM_cons, hlex, overflowIf_of h]
  rfl

/-- Blank space holds no token. -/
theorem lex_of_isSpace {s : List Char} (h : ∀ c ∈ s, isSpace c = true) :
    Model.lex (String.ofList s) = .ok ⟨[], []⟩ := by
  have hcuts : Cuts true s (s.map fun c => ⟨.space, [c]⟩) true [] := by
    induction s with
    | nil => exact .done true []
    | cons c s ih =>
      rw [List.forall_mem_cons] at h
      have hne : c ≠ '\n' := by
        rintro rfl
        exact absurd h.1 (by decide)
      refine .piece (x := ([], s)) ?_ (ih h.2)
      rw [front, if_neg hne, if_pos h.1]
  have hnone : ∀ x ∈ placed .start (s.map fun c => (⟨.space, [c]⟩ : Piece)),
      token? x = none ∧ directive? x = none := by
    intro x hx
    obtain ⟨c, -, hc⟩ := List.mem_map.1 (le_of_mem_placed hx).2.2
    unfold token? directive?
    rw [← hc]
    exact ⟨rfl, rfl⟩
  have hlex := @lex_of_cuts (String.ofList s) _ _ (by rwa [String.toList_ofList])
  rw [hlex, List.filterMap_eq_nil_iff.2 fun x hx => (hnone x hx).1,
    List.filterMap_eq_nil_iff.2 fun x hx => (hnone x hx).2]

/-- A line of spaces that is as long as a text shorter than a word can be: there is no brace in it, and
no other token, and yet its last space overflows the column. -/
theorem build_overflows_without_brace :
    Text.utf8Length (List.replicate (wordLimit - 1) ' ') < wordLimit ∧
      (∀ c ∈ List.replicate (wordLimit - 1) ' ', isAscii c = true) ∧
      Model.lex (String.ofList (List.replicate (wordLimit - 1) ' ')) = .ok ⟨[], []⟩ ∧
      build ⟨"/s/m.c"⟩ [⟨⟨"/s/m.c"⟩, String.ofList (List.replicate (wordLimit - 1) ' ')⟩] =
        .error .overflow := by
  have hlength : Text.utf8Length (List.replicate (wordLimit - 1) ' ') = wordLimit - 1 := by
    rw [Text.utf8Length_replicate]
    exact Nat.mul_one _
  have hspace : ∀ c ∈ List.replicate (wordLimit - 1) ' ', c = ' ' :=
    fun c hc => List.eq_of_mem_replicate hc
  have hchars : (List.replicate (wordLimit - 1) ' ').length = wordLimit - 1 := List.length_replicate
  generalize List.replicate (wordLimit - 1) ' ' = s at hlength hspace hchars ⊢
  have hascii : ∀ c ∈ s, isAscii c = true := fun c hc => by rw [hspace c hc]; rfl
  have hone : s.count '\n' = 0 := List.count_eq_zero.2 fun hmem => absurd (hspace _ hmem) (by decide)
  have hover : Overlong (String.ofList s).toList := by
    rw [String.toList_ofList]
    exact .inl ⟨by rw [hlength]; rfl, .inl hone⟩
  refine ⟨by rw [hlength]; decide, hascii, ?_, ?_⟩
  · exact lex_of_isSpace fun c hc => by rw [hspace c hc]; rfl
  · refine build_overlong ?_ ?_ hover
    · rwa [String.toList_ofList]
    · rw [String.toList_ofList, hchars]
      decide

end SketchSense.Model.ByPosition
