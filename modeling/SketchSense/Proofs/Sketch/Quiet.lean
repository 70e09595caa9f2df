import Mathlib
import SketchSense.Proofs.Model.Lexemes
import SketchSense.Proofs.Model.Places
import SketchSense.Proofs.Model.Scan
import SketchSense.Proofs.Sketch.Header
import SketchSense.Proofs.Text.Search

/-!
# The generated header can be read

Whatever functions a text defines, their prototypes are written from its tokens with spaces between
them. Such a line holds no quote, opens no comment and no block, so the engine reads the header
without a fault, even where it makes something else of a prototype than the function.

* `IsQuiet`, a line that opens nothing, with `exists_cuts_of_isQuiet`;
* `isQuiet_prototype`, that prototypes are such lines;
* `exists_ofBuffer_prototypeHeader`, that the header is read.
-/

namespace SketchSense.Model

/-! ## Quiet lines -/

def isQuietChar (c : Char) : Bool :=
  isAscii c && c != '\n' && c != '"' && c != '\'' && c != '{'

/-- Whether two neighbours open no comment. -/
def isQuietPair (c d : Char) : Bool := c != '/' || d != '/' && d != '*'

/-- A piece of a line that opens nothing. -/
structure IsQuiet (s : List Char) : Prop where
  chars : ∀ c ∈ s, isQuietChar c = true
  pairs : s.IsChain fun c d => isQuietPair c d = true

theorem isQuiet_nil : IsQuiet [] := ⟨by simp, .nil⟩

namespace IsQuiet

variable {s t : List Char}

theorem part (h : IsQuiet t) (hpart : s <:+: t) : IsQuiet s := by
  obtain ⟨before, behind, rfl⟩ := hpart
  have hfront := (List.isChain_append.1 h.pairs).1
  exact ⟨fun c hc => h.chars c (by simp [hc]), (List.isChain_append.1 hfront).2.1⟩

/-- Two pieces can stand next to each other if the second one starts with neither mark of a
comment. -/
theorem append (hs : IsQuiet s) (ht : IsQuiet t) (hslash : t.head? ≠ some '/')
    (hstar : t.head? ≠ some '*') : IsQuiet (s ++ t) := by
  refine ⟨fun c hc => ?_, hs.pairs.append ht.pairs fun c _ d hd => ?_⟩
  · rcases List.mem_append.1 hc with hc | hc
    · exact hs.chars c hc
    · exact ht.chars c hc
  · have hne (e : Char) (he : t.head? ≠ some e) : d ≠ e := by
      rintro rfl
      exact he hd
    simp [isQuietPair, hne _ hslash, hne _ hstar]

/-- A mark that is no slash can stand before any piece. -/
theorem cons (ht : IsQuiet t) {c : Char} (hc : isQuietChar c = true) (hslash : c ≠ '/') :
    IsQuiet (c :: t) := by
  refine ⟨fun d hd => ?_, List.isChain_cons.2 ⟨fun d _ => ?_, ht.pairs⟩⟩
  · rcases List.mem_cons.1 hd with rfl | hd
    · exact hc
    · exact ht.chars d hd
  · simp [isQuietPair, hslash]

/-- Any text without a slash can. -/
theorem prepend (ht : IsQuiet t) (hs : s.all isQuietChar = true) (hslash : '/' ∉ s) :
    IsQuiet (s ++ t) := by
  induction s with
  | nil => exact ht
  | cons c s ih =>
    rw [List.all_cons, Bool.and_eq_true] at hs
    rw [List.mem_cons, not_or] at hslash
    exact (ih hs.2 hslash.2).cons hs.1 (Ne.symm hslash.1)

end IsQuiet

theorem isQuiet_of_all {s : List Char} (h : s.all isQuietChar = true) (hslash : '/' ∉ s) :
    IsQuiet s := by
  simpa using isQuiet_nil.prepend h hslash

/-- The piece at the start of a quiet line is neither a line feed nor a comment nor a brace. -/
theorem exists_front_of_isQuiet {c : Char} {cs : List Char} (h : IsQuiet (c :: cs)) (b : Bool)
    (X : List Char) :
    ∃ kind split, front b c (cs ++ '\n' :: X) = .ok (kind, split) ∧ kind ≠ .newline ∧
      kind ≠ .comment ∧ Piece.lexeme? ⟨kind, c :: split.1⟩ ≠ some (.mark '{') := by
  have hc := h.chars c List.mem_cons_self
  simp only [isQuietChar, Bool.and_eq_true, bne_iff_ne, ne_eq] at hc
  obtain ⟨⟨⟨⟨hascii, hnewline⟩, hdouble⟩, hsingle⟩, hbrace⟩ := hc
  have hcomment : c = '/' → (cs ++ '\n' :: X).head? ≠ some '/' ∧
      (cs ++ '\n' :: X).head? ≠ some '*' := by
    rintro rfl
    cases cs with
    | nil => simp
    | cons d ds =>
      have hpair := (List.isChain_cons_cons.1 h.pairs).1
      simpa [isQuietPair] using hpair
  unfold front
  rw [if_neg hnewline]
  split_ifs with hspace hdirective hline hblock hquote hword hdigit hdots
  · exact ⟨_, _, rfl, nofun, nofun, nofun⟩
  · exact ⟨_, _, rfl, nofun, nofun, nofun⟩
  · exact absurd hline.2 (hcomment hline.1).1
  · exact absurd hblock.2 (hcomment hblock.1).2
  · exact absurd hquote (not_or.2 ⟨hdouble, hsingle⟩)
  · exact ⟨_, _, rfl, nofun, nofun, nofun⟩
  · exact ⟨_, _, rfl, nofun, nofun, nofun⟩
  · exact ⟨_, _, rfl, nofun, nofun, nofun⟩
  -- a single character is a mark of its own, so it must not be the brace
  · refine ⟨_, _, rfl, nofun, nofun, fun heq => hbrace ?_⟩
    cases heq
    rfl

/-- What stands on its line is cut off before the line feed. -/
theorem exists_append_of_not_mem {a b cs X : List Char} (h : a ++ b = cs ++ '\n' :: X)
    (ha : '\n' ∉ a) : ∃ ds, cs = a ++ ds ∧ b = ds ++ '\n' :: X := by
  rcases List.append_eq_append_iff.1 h with ⟨ds, hcs, hb⟩ | ⟨es, hes, hX⟩
  · exact ⟨ds, hcs, hb⟩
  · cases es with
    | nil => exact ⟨[], by simpa using hes.symm, by simpa using hX.symm⟩
    | cons e es =>
      cases hX
      exact absurd (by rw [hes]; simp) ha

/-- A quiet line is cut into pieces, and no block starts on it. -/
theorem exists_cuts_of_isQuiet {s : List Char} (h : IsQuiet s) (b : Bool) (X : List Char) :
    ∃ ps b', Cuts b (s ++ '\n' :: X) ps b' ('\n' :: X) ∧
      ∀ p ∈ ps, p.lexeme? ≠ some (.mark '{') := by
  -- a piece may take any number of characters, so the induction is on the length of the rest
  induction hn : s.length using Nat.strongRecOn generalizing s b with
  | _ n ih =>
    cases s with
    | nil => exact ⟨[], b, .done b _, by simp⟩
    | cons c cs =>
      obtain ⟨kind, split, hfront, hnewline, hcomment, hbrace⟩ := exists_front_of_isQuiet h b X
      have hwithin := not_mem_front hfront hnewline hcomment
      obtain ⟨ds, rfl, hrest⟩ := exists_append_of_not_mem (front_eq hfront)
        fun hmem => hwithin (List.mem_cons_of_mem c hmem)
      have hds : IsQuiet ds := h.part ⟨c :: split.1, [], by simp⟩
      have hlt : ds.length < n := by
        rw [← hn, List.length_cons, List.length_append]
        omega
      obtain ⟨ps, b', hcuts, hps⟩ := ih ds.length hlt hds (kind.lineStartAfter b) rfl
      rw [← hrest] at hcuts
      refine ⟨_, b', .piece hfront hcuts, fun p hp => ?_⟩
      rcases List.mem_cons.1 hp with rfl | hp
      · exact hbrace
      · exact hps p hp

/-! ## Texts without blocks -/

/-- Whole lines that are cut without a fault and without an opening brace. -/
def OpensNoBlock (s : List Char) : Prop :=
  ∃ ps b, Cuts true s ps b [] ∧ ∀ p ∈ ps, p.lexeme? ≠ some (.mark '{')

theorem opensNoBlock_nil : OpensNoBlock [] := ⟨[], true, .done true [], by simp⟩

theorem opensNoBlock_directive {D s : List Char} (hline : '\n' ∉ D) (h : OpensNoBlock s) :
    OpensNoBlock ('#' :: D ++ ['\n'] ++ s) := by
  obtain ⟨ps, b, hcuts, hps⟩ := h
  refine ⟨_, b, (cuts_directive hline s).append hcuts, fun p hp => ?_⟩
  rcases List.mem_append.1 hp with hp | hp
  · simp only [List.mem_cons, List.not_mem_nil, or_false] at hp
    rcases hp with rfl | rfl <;> exact nofun
  · exact hps p hp

theorem opensNoBlock_line {P s : List Char} (hP : IsQuiet P) (h : OpensNoBlock s) :
    OpensNoBlock (P ++ '\n' :: s) := by
  obtain ⟨ps, b, hcuts, hps⟩ := h
  obtain ⟨qs, b', hqs, hquiet⟩ := exists_cuts_of_isQuiet hP true s
  refine ⟨_, b, hqs.append ((cuts_newline b' s).append hcuts), fun p hp => ?_⟩
  rcases List.mem_append.1 hp with hp | hp
  · exact hquiet p hp
  · rcases List.mem_cons.1 hp with rfl | hp
    · exact nofun
    · exact hps p hp

/-- Without a brace there are only statements. -/
theorem block_of_not_isMark {inRecord : Bool} {head ts : List Token}
    (hts : ∀ t ∈ ts, t.isMark '{' = false) :
    ∀ d ∈ declarationsFrom inRecord head ts, d.block = none := by
  fun_induction declarationsFrom inRecord head ts with
  | case1 head => simp
  | case2 head t ts h ih => exact ih fun u hu => hts u (List.mem_cons_of_mem t hu)
  | case3 head t ts h hbrace block hlen ih =>
    rw [hts t List.mem_cons_self] at hbrace
    cases hbrace
  | case4 head t ts h hbrace hsemi ih =>
    intro d hd
    rcases List.mem_cons.1 hd with rfl | hd
    · rfl
    · exact ih (fun u hu => hts u (List.mem_cons_of_mem t hu)) d hd
  | case5 head t ts h hbrace hsemi ih => exact ih fun u hu => hts u (List.mem_cons_of_mem t hu)

/-- A text that opens no block is read. -/
theorem exists_ofBuffer_of_opensNoBlock (file : FilePath) {text : String}
    (h : OpensNoBlock text.toList) : ∃ m, FileModel.ofBuffer ⟨file, text⟩ = .ok m := by
  obtain ⟨ps, b, hcuts, hps⟩ := h
  have hmarks : ∀ t ∈ (placed .start ps).filterMap token?, t.isMark '{' = false := by
    intro t ht
    obtain ⟨e, he, het⟩ := List.mem_filterMap.1 ht
    obtain ⟨lexeme, hlexeme, rfl⟩ := exists_piece_of_token? het
    have hne := hps e.2 (le_of_mem_placed he).2.2
    rw [hlexeme] at hne
    exact decide_eq_false fun heq => hne (congrArg some heq)
  -- only a block can cause a fault, and there is none
  have hread : ∀ d ∈ declarations false ((placed .start ps).filterMap token?),
      ∃ r, d.entity? file = .ok r := by
    intro d hd
    unfold Declaration.entity?
    rw [block_of_not_isMark hmarks d hd]
    exact ⟨_, rfl⟩
  obtain ⟨declared, hdeclared⟩ := exists_mapM_eq_ok hread
  exact ⟨_, ofBuffer_eq_ok.2 ⟨_, declared, lex_of_cuts hcuts, hdeclared, rfl⟩⟩

/-! ## Prototypes -/

/-- A token that can stand on a quiet line. -/
def Token.IsQuiet (t : Token) : Prop := t.lexeme.IsRead ∧ t.lexeme ≠ .mark '{'

theorem isQuietChar_of_isWordPart {c : Char} (h : isWordPart c = true) :
    isQuietChar c = true ∧ c ≠ '/' := by
  have hne (d : Char) (hd : isWordPart d = false) : c ≠ d := by
    rintro rfl
    rw [hd] at h
    cases h
  have hascii : isAscii c = true := by
    simp only [isWordPart, Char.isAlphanum, Char.isAlpha, Char.isUpper, Char.isLower, Char.isDigit,
      Bool.or_eq_true, Bool.and_eq_true, decide_eq_true_eq, beq_iff_eq, ge_iff_le,
      UInt32.le_iff_toNat_le] at h
    have hval : c.val.toNat = c.toNat := rfl
    simp only [isAscii, decide_eq_true_eq]
    rcases h with h | rfl
    · simp at h
      omega
    · decide
  refine ⟨?_, hne _ (by decide)⟩
  simp [isQuietChar, hascii, hne '\n' (by decide), hne '"' (by decide), hne '\'' (by decide),
    hne '{' (by decide)]

theorem isQuiet_text {t : Token} (h : t.IsQuiet) : IsQuiet t.text.toList := by
  obtain ⟨hread, hbrace⟩ := h
  unfold Token.text
  cases hlexeme : t.lexeme with
  | word w =>
    rw [hlexeme] at hread
    obtain ⟨c, cs, rfl, hc, hcs⟩ := hread
    have hword : ∀ d ∈ c :: cs, isWordPart d = true := by
      intro d hd
      rcases List.mem_cons.1 hd with rfl | hd
      · exact isWordPart_of_isWordStart hc
      · exact hcs d hd
    rw [String.toList_ofList]
    exact isQuiet_of_all
      (List.all_eq_true.2 fun d hd => (isQuietChar_of_isWordPart (hword d hd)).1)
      fun hd => (isQuietChar_of_isWordPart (hword _ hd)).2 rfl
  | mark c =>
    rw [hlexeme] at hread hbrace
    obtain ⟨hnewline, -, hquote, -, -, hascii⟩ := hread
    have hne : c ≠ '{' := fun heq => hbrace (congrArg Lexeme.mark heq)
    rw [not_or] at hquote
    rw [String.toList_singleton]
    refine ⟨fun d hd => ?_, .singleton c⟩
    rw [List.mem_singleton.1 hd]
    simp [isQuietChar, hascii, hnewline, hquote.1, hquote.2, hne]
  | ellipsis => exact isQuiet_of_all (by decide) (by decide)
  | literal => exact isQuiet_of_all (by decide) (by decide)

/-- Quiet texts with a separator between them. -/
theorem isQuiet_intercalate (c : Char) (cs : List Char) {texts : List String}
    (h : ∀ text ∈ texts, IsQuiet text.toList) (hsep : (c :: cs).all isQuietChar = true)
    (hslash : '/' ∉ c :: cs) (hstar : c ≠ '*') :
    IsQuiet ((String.ofList (c :: cs)).intercalate texts).toList := by
  induction texts with
  | nil => simpa using isQuiet_nil
  | cons text texts ih =>
    have hrest := ih fun u hu => h u (List.mem_cons_of_mem _ hu)
    have htext := h text List.mem_cons_self
    cases texts with
    | nil => simpa using htext
    | cons u us =>
      rw [String.intercalate_cons_cons, String.toList_append, String.toList_append,
        String.toList_ofList, List.append_assoc]
      refine htext.append (hrest.prepend hsep hslash) ?_ ?_
      · simpa using fun heq => hslash (List.mem_cons.2 (.inl heq.symm))
      · simpa using hstar

theorem isQuiet_typeText {ts : List Token} (h : ∀ t ∈ ts, t.IsQuiet) :
    IsQuiet (typeText ts).toList := by
  refine isQuiet_intercalate ' ' [] (fun text htext => ?_) (by decide) (by decide) (by decide)
  obtain ⟨t, ht, rfl⟩ := List.mem_map.1 htext
  exact isQuiet_text (h t ht)

theorem isQuiet_word? {t : Token} (h : t.IsQuiet) {name : String} (hname : t.word? = some name) :
    IsQuiet name.toList := by
  have htext : t.text = name := by
    unfold Token.word? at hname
    unfold Token.text
    cases hlexeme : t.lexeme <;> simp_all
  exact htext ▸ isQuiet_text h

/-- A parameter is written on a quiet line. -/
theorem isQuiet_declaration {ts : List Token} (h : ∀ t ∈ ts, t.IsQuiet) {p : Parameter}
    (hp : parameter? ts = some p) : IsQuiet p.declaration.toList := by
  have hboth : IsQuiet p.typeName.toList ∧ IsQuiet p.name.toList := by
    unfold parameter? at hp
    split at hp
    · next name hname =>
      obtain ⟨t, ht, hword⟩ := Option.bind_eq_some_iff.1 hname
      have hquiet := isQuiet_word? (h t (List.mem_of_getLast? ht)) hword
      split at hp
      · cases hp
        exact ⟨isQuiet_typeText fun t ht => h t (List.dropLast_subset _ ht), hquiet⟩
      · split at hp
        · cases hp
        · cases hp
          exact ⟨hquiet, isQuiet_nil⟩
    · split at hp
      · cases hp
      · cases hp
        exact ⟨isQuiet_typeText h, isQuiet_nil⟩
  unfold Parameter.declaration
  rw [String.toList_ofList]
  refine IsQuiet.part ?_ (Text.trim_isInfix _)
  rw [String.toList_append, String.toList_append, List.append_assoc]
  exact hboth.1.append (hboth.2.cons (c := ' ') (by decide) (by decide)) (by simp) (by simp)

/-- The prototype of a function is written on a quiet line. -/
theorem isQuiet_prototype {ts : List Token} {h : FunctionHead}
    (hread : FunctionHead.read? ts = some h) (hts : ∀ t ∈ ts, t.IsQuiet) :
    IsQuiet h.definition.prototype.toList := by
  obtain ⟨types, name, paren, rest, -, rfl, rfl⟩ := FunctionHead.read?_eq_some_iff.1 hread
  generalize hh : FunctionHead.ofParts types name paren rest = h
  have hname : IsQuiet h.name.text.toList := by
    rw [← hh]
    exact isQuiet_text (hts name (by simp))
  have htype : IsQuiet h.resultType.toList := by
    rw [← hh]
    exact isQuiet_typeText fun t ht => hts t (List.mem_append_left _ (List.mem_filter.1 ht).1)
  have hparameters : ∀ text ∈ h.parameterTexts, IsQuiet text.toList := by
    intro text htext
    rcases List.mem_append.1 htext with htext | htext
    · obtain ⟨p, hp, rfl⟩ := List.mem_map.1 htext
      rw [← hh] at hp
      obtain ⟨us, hus, hparameter⟩ := List.mem_filterMap.1 hp
      refine isQuiet_declaration (fun t ht => hts t ?_) hparameter
      have hmem := mem_of_mem_parameterTokens (List.mem_filter.1 hus).1 ht
      simp [hmem]
    · split at htext
      · rw [List.mem_singleton.1 htext]
        exact isQuiet_of_all (by decide) (by decide)
      · cases htext
  -- a function without a name or a type has no prototype at all
  by_cases hempty : h.name.text = "" ∨ h.resultType = ""
  · have hnone : h.definition.prototype = "" := if_pos hempty
    rw [hnone]
    exact isQuiet_nil
  · rw [not_or] at hempty
    rw [toList_prototype hempty.1 hempty.2]
    have hall := isQuiet_intercalate ',' [' '] hparameters (by decide) (by decide) (by decide)
    have hclosed := hall.append (isQuiet_of_all (s := [')']) (by decide) (by decide)) (by simp)
      (by simp)
    have hnamed := hname.append (hclosed.cons (c := '(') (by decide) (by decide)) (by simp) (by simp)
    have htyped := htype.append (hnamed.cons (c := ' ') (by decide) (by decide)) (by simp) (by simp)
    split
    · exact htyped.prepend (by decide) (by decide)
    · exact htyped

/-! ## The header -/

theorem isQuiet_of_mem_definedHeads {code : String} {lx : Lexed} (hlex : lex code = .ok lx)
    {h : FunctionHead} (hh : h ∈ definedHeads lx.tokens) : IsQuiet h.definition.prototype.toList := by
  obtain ⟨d, hd, hdefined⟩ := List.mem_filterMap.1 hh
  obtain ⟨b, -, hread⟩ := Option.bind_eq_some_iff.1 hdefined
  refine isQuiet_prototype hread fun t ht => ⟨?_, ?_⟩
  · exact (isRead_of_mem_tokens hlex (mem_of_mem_tokens hd ht)).1
  · exact of_decide_eq_false (isMark_of_mem_declarations hd ht).2

/-- Prototypes with their markers open no block. -/
theorem opensNoBlock_headerLines {origin : String} (horigin : '\n' ∉ origin.toList)
    {ds : List Definition} (hds : ∀ d ∈ ds, IsQuiet d.prototype.toList) :
    OpensNoBlock (String.join (ds.map (·.headerLines origin))).toList := by
  induction ds with
  | nil => simpa using opensNoBlock_nil
  | cons d ds ih =>
    have hrest := ih fun d' hd' => hds d' (List.mem_cons_of_mem _ hd')
    have hdigits : '\n' ∉ Nat.toDigits 10 d.line := fun hmem =>
      absurd (Nat.isDigit_of_mem_toDigits (by decide) (by decide) hmem) (by decide)
    have hmarker : '\n' ∉ "line ".toList ++ (toString d.line).toList ++ " \"".toList ++
        origin.toList ++ ['"'] := by
      simp [hdigits, horigin]
    have hline := (hds d List.mem_cons_self).append (isQuiet_of_all (s := [';']) (by decide)
      (by decide)) (by simp) (by simp)
    have hall := opensNoBlock_directive hmarker (opensNoBlock_line hline hrest)
    simpa [Definition.headerLines] using hall

/-- The header of the functions of a text is read without a fault. -/
theorem exists_ofBuffer_prototypeHeader {path : FilePath} (file : FilePath) {code : String}
    {lx : Lexed} {ds : List Definition} (hpath : '\n' ∉ path.text.toList) (hlex : lex code = .ok lx)
    (hds : ∀ d ∈ ds, ∃ h ∈ definedHeads lx.tokens, h.definition = d) :
    ∃ m, FileModel.ofBuffer ⟨file, prototypeHeader path ds⟩ = .ok m := by
  refine exists_ofBuffer_of_opensNoBlock file ?_
  have hquiet : ∀ d ∈ declaredOnce ds, IsQuiet d.prototype.toList := by
    intro d hd
    obtain ⟨h, hh, rfl⟩ := hds d ((mem_declaredOnce ds).1 d hd)
    exact isQuiet_of_mem_definedHeads hlex hh
  have hlines := opensNoBlock_headerLines (FilePath.not_mem_display (by decide) hpath) hquiet
  unfold prototypeHeader
  split
  · exact opensNoBlock_nil
  · have hall := opensNoBlock_directive (D := "pragma once".toList) (by decide) hlines
    simpa using hall

end SketchSense.Model
