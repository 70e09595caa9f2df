import Mathlib
import SketchSense.Proofs.Model.Matching
import SketchSense.Proofs.Model.Scan
import SketchSense.Proofs.Sketch.Rewriting

/-!
# Where the include stands among the declarations

The place of the include is found by looking for blank lines above the first definition; what these
lines stand in is not looked at. So the include is at file scope exactly if neither a comment nor a
declaration of the text goes on from above the place to below it.

* `settled`, that the scan of some tokens ends between two declarations, and
  `declarations_append_iff`, that this is where a list of tokens can be taken apart;
* `IsCutByComment`, a line in a comment, and `exists_cuts_iff`, that outside comments the lines
  above can be scanned on their own;
* `AtFileScope`, `atFileScope_iff` and `InsertionMemo.inject_at_file_scope`.
-/

namespace SketchSense

namespace Model

/-! ## Between declarations -/

/-- Whether the scan of some tokens ends between two declarations: no brace is open, and no
statement is unfinished. `pending` says that one was when it began. -/
def settledFrom (pending : Bool) : List Token → Bool
  | [] => !pending
  | t :: ts =>
    if t.isMark '{' then
      match h : closing? '{' '}' 0 ts with
      | some (_, _, after) =>
        have := length_of_closing? h
        settledFrom false after
      | none => false
    else if t.isMark ';' then settledFrom false ts
    else settledFrom true ts
  termination_by ts => ts.length

def settled (ts : List Token) : Bool := settledFrom false ts

/-- A step of the scan outside records. -/
theorem declarationsFrom_cons (head : List Token) (t : Token) (ts : List Token) :
    declarationsFrom false head (t :: ts) =
      if t.isMark '{' then
        ⟨head, some (Block.ofBrace t ts)⟩ :: declarationsFrom false [] (Block.ofBrace t ts).after
      else if t.isMark ';' then ⟨head, none⟩ :: declarationsFrom false [] ts
      else declarationsFrom false (head ++ [t]) ts := by
  rw [declarationsFrom, if_neg fun h => Bool.false_ne_true h.1]

/-- The tokens before a declaration go into it. -/
theorem declarationsFrom_head (h g ts : List Token) :
    declarationsFrom false (h ++ g) ts =
      match declarationsFrom false g ts with
      | [] => []
      | d :: ds => ⟨h ++ d.tokens, d.block⟩ :: ds := by
  induction ts generalizing g with
  | nil => simp [declarationsFrom]
  | cons t ts ih =>
    rw [declarationsFrom_cons, declarationsFrom_cons]
    by_cases hbrace : t.isMark '{' = true
    · rw [if_pos hbrace, if_pos hbrace]
    · rw [if_neg hbrace, if_neg hbrace]
      by_cases hsemi : t.isMark ';' = true
      · rw [if_pos hsemi, if_pos hsemi]
      · rw [if_neg hsemi, if_neg hsemi, List.append_assoc]
        exact ih _

/-- A brace begins the block of a declaration. -/
theorem declarationsFrom_ne_nil {ts : List Token} {t : Token} (ht : t ∈ ts)
    (hbrace : t.isMark '{' = true) (head : List Token) : declarationsFrom false head ts ≠ [] := by
  induction ts generalizing head with
  | nil => cases ht
  | cons u us ih =>
    rw [declarationsFrom_cons]
    by_cases hu : u.isMark '{' = true
    · rw [if_pos hu]
      exact List.cons_ne_nil _ _
    · rw [if_neg hu]
      by_cases hsemi : u.isMark ';' = true
      · rw [if_pos hsemi]
        exact List.cons_ne_nil _ _
      · rw [if_neg hsemi]
        refine ih ((List.mem_cons.1 ht).resolve_left ?_) _
        rintro rfl
        exact hu hbrace

/-- The block of a brace that is closed does not depend on what follows. -/
theorem Block.ofBrace_append {t last : Token} {ts inside rest : List Token}
    (h : closing? '{' '}' 0 ts = some (inside, last, rest)) (us : List Token) :
    Block.ofBrace t (ts ++ us) = ⟨t, .ok inside, last, rest ++ us⟩ := by
  unfold ofBrace
  rw [closing?_append h us]

/-- The block of a brace that nothing closes ends with the tokens. -/
theorem Block.last_ofBrace_append {t : Token} {ts us : List Token} (hus : us ≠ [])
    (hnone : closing? '{' '}' 0 ts = none) :
    (Block.ofBrace t ts).last ∈ t :: ts ∧ (Block.ofBrace t (ts ++ us)).last ∈ us := by
  constructor
  · unfold ofBrace
    rw [hnone]
    dsimp only
    cases hlast : ts.getLast? with
    | none => exact List.mem_cons_self
    | some last => exact List.mem_cons_of_mem _ (List.mem_of_getLast? hlast)
  · unfold ofBrace
    cases hclosing : closing? '{' '}' 0 (ts ++ us) with
    | some found => exact last_mem_of_closing?_append hnone hclosing
    | none =>
      dsimp only
      rw [List.getLast?_append_of_ne_nil _ hus]
      cases hlast : us.getLast? with
      | none => exact absurd (List.getLast?_eq_none_iff.1 hlast) hus
      | some last => exact List.mem_of_getLast? hlast

/-- A declaration without what follows its block. -/
def Declaration.alone (d : Declaration) : Declaration :=
  { d with block := d.block.map fun b => { b with after := [] } }

/-- The tokens in front make the first declaration longer. -/
theorem alone_head_ne {head ss : List Token} (hhead : head ≠ []) {brace : Token} (hbrace : brace ∈ ss)
    (hopens : brace.isMark '{' = true) :
    (declarationsFrom false head ss).map Declaration.alone ≠
      (declarationsFrom false [] ss).map Declaration.alone := by
  have hfront := declarationsFrom_head head [] ss
  rw [List.append_nil] at hfront
  rw [hfront]
  cases hss : declarationsFrom false [] ss with
  | nil => exact absurd hss (declarationsFrom_ne_nil hbrace hopens [])
  | cons d ds =>
    intro heq
    have htokens := congrArg (fun d : Declaration => d.tokens.length) (List.cons.inj heq).1
    have hlength := List.length_pos_of_ne_nil hhead
    simp only [Declaration.alone, List.length_append] at htokens
    omega

/-- A block that nothing closes becomes longer by the tokens behind: it would have to end above as
well as below. -/
theorem alone_ofBrace_ne {head ts ss : List Token} {t : Token} (hss : ss ≠ [])
    (hnone : closing? '{' '}' 0 ts = none) (hnodup : (t :: ts ++ ss).Nodup) :
    Declaration.alone ⟨head, some (Block.ofBrace t (ts ++ ss))⟩ ≠
      Declaration.alone ⟨head, some (Block.ofBrace t ts)⟩ := by
  intro heq
  obtain ⟨habove, hbelow⟩ := Block.last_ofBrace_append (t := t) hss hnone
  have hlast := congrArg (fun d : Declaration => d.block.map Block.last) heq
  simp only [Declaration.alone, Option.map_some, Option.some.injEq] at hlast
  rw [hlast] at hbelow
  exact (List.nodup_append.1 hnodup).2.2 _ habove _ hbelow rfl

/-- The scan of a list of tokens can be taken apart between two declarations, and nowhere else if a
block follows. -/
theorem declarationsFrom_append_iff {head ps ss : List Token} {brace : Token} (hbrace : brace ∈ ss)
    (hopens : brace.isMark '{' = true) (hnodup : (ps ++ ss).Nodup) :
    (declarationsFrom false head (ps ++ ss)).map Declaration.alone =
        (declarationsFrom false head ps ++ declarationsFrom false [] ss).map Declaration.alone ↔
      settledFrom (!head.isEmpty) ps = true := by
  -- a block is skipped as a whole, so the induction is on the number of the tokens that are left
  induction hn : ps.length using Nat.strongRecOn generalizing head ps with
  | _ n ih =>
    cases ps with
    | nil =>
      have hnil : declarationsFrom false head [] = [] := by rw [declarationsFrom]
      rw [hnil, List.nil_append, List.nil_append, settledFrom]
      cases head with
      | nil => simp
      | cons t head =>
        exact iff_of_false (alone_head_ne (List.cons_ne_nil t head) hbrace hopens) (by simp)
    | cons t ts =>
      have hnodup' : (ts ++ ss).Nodup := (List.nodup_cons.1 hnodup).2
      rw [List.length_cons] at hn
      rw [List.cons_append, declarationsFrom_cons, declarationsFrom_cons, settledFrom]
      by_cases hopen : t.isMark '{' = true
      · rw [if_pos hopen, if_pos hopen, if_pos hopen, List.cons_append, List.map_cons,
          List.map_cons]
        split
        · next inside last after hclosing =>
          have hlength := length_of_closing? hclosing
          have hrest : (after ++ ss).Nodup := by
            rw [eq_of_closing? hclosing, List.append_assoc, List.cons_append] at hnodup'
            exact (List.nodup_cons.1 (List.nodup_append.1 hnodup').2.1).2
          have halone := Block.ofBrace_append (t := t) hclosing []
          rw [List.append_nil, List.append_nil] at halone
          rw [Block.ofBrace_append hclosing, halone]
          exact (List.cons_inj_right _).trans (ih after.length (by omega) hrest rfl)
        · next hclosing =>
          refine iff_of_false (fun heq => ?_) Bool.false_ne_true
          exact alone_ofBrace_ne (List.ne_nil_of_mem hbrace) hclosing hnodup (List.cons.inj heq).1
      · rw [if_neg hopen, if_neg hopen, if_neg hopen]
        by_cases hsemi : t.isMark ';' = true
        · rw [if_pos hsemi, if_pos hsemi, if_pos hsemi, List.cons_append, List.map_cons,
            List.map_cons]
          exact (List.cons_inj_right _).trans (ih ts.length (by omega) hnodup' rfl)
        · rw [if_neg hsemi, if_neg hsemi, if_neg hsemi]
          have hisEmpty : (!(head ++ [t]).isEmpty) = true := by simp
          have hpending := @ih ts.length (by omega) (head ++ [t]) ts hnodup' rfl
          rwa [hisEmpty] at hpending

theorem declarations_append_iff {ps ss : List Token} {brace : Token} (hbrace : brace ∈ ss)
    (hopens : brace.isMark '{' = true) (hnodup : (ps ++ ss).Nodup) :
    (declarations false (ps ++ ss)).map Declaration.alone =
        (declarations false ps ++ declarations false ss).map Declaration.alone ↔
      settled ps = true :=
  declarationsFrom_append_iff hbrace hopens hnodup

theorem Block.opening_ofBrace (t : Token) (ts : List Token) : (ofBrace t ts).opening = t := by
  unfold ofBrace
  split
  · rfl
  · split <;> rfl

/-- The brace of a declaration stands behind its tokens. -/
theorem opening_of_mem_declarationsFrom {inRecord : Bool} {head ts : List Token} {d : Declaration}
    {b : Block} (hd : d ∈ declarationsFrom inRecord head ts) (hb : d.block = some b) :
    (d.tokens ++ [b.opening]).Sublist (head ++ ts) ∧ b.opening.isMark '{' = true := by
  fun_induction declarationsFrom inRecord head ts with
  | case1 head => cases hd
  | case2 head t ts h ih =>
    obtain ⟨hsub, hopens⟩ := ih hd
    exact ⟨(hsub.trans (List.sublist_cons_self t ts)).trans (List.sublist_append_right head _),
      hopens⟩
  | case3 head t ts h hbrace block hlen ih =>
    rcases List.mem_cons.1 hd with rfl | hd
    · have hopening : b.opening = t := by
        rw [← Option.some.inj hb]
        exact Block.opening_ofBrace t ts
      rw [hopening]
      exact ⟨(List.Sublist.refl head).append (by simp), hbrace⟩
    · obtain ⟨hsub, hopens⟩ := ih hd
      have hafter := (List.sublist_append_right _ _).trans (Block.insideTokens_sublist t ts)
      exact ⟨((hsub.trans hafter).trans (List.sublist_cons_self t ts)).trans
        (List.sublist_append_right head _), hopens⟩
  | case4 head t ts h hbrace hsemi ih =>
    rcases List.mem_cons.1 hd with rfl | hd
    · cases hb
    · obtain ⟨hsub, hopens⟩ := ih hd
      exact ⟨(hsub.trans (List.sublist_cons_self t ts)).trans (List.sublist_append_right head _),
        hopens⟩
  | case5 head t ts h hbrace hsemi ih => simpa using ih hd

/-! ## Comments -/

/-- A block comment that is closed ends with its mark. -/
theorem getLast?_splitComment {s : List Char} (h : (splitComment s).2 ≠ []) :
    (splitComment s).1.getLast? = some '/' := by
  induction s with
  | nil => exact absurd rfl h
  | cons c cs ih =>
    unfold splitComment at h ⊢
    by_cases hclose : c = '*' ∧ cs.head? = some '/'
    · obtain ⟨ds, rfl⟩ := List.head?_eq_some_iff.1 hclose.2
      rw [if_pos hclose]
      rfl
    · rw [if_neg hclose] at h ⊢
      show (c :: (splitComment cs).1).getLast? = some '/'
      rw [List.getLast?_cons, ih h]
      rfl

/-- A comment that ends before the text does not end with a line. -/
theorem getLast?_of_front {b : Bool} {c : Char} {cs : List Char} {split : Split}
    (h : front b c cs = .ok (.comment, split)) (hrest : split.2 ≠ []) :
    (c :: split.1).getLast? ≠ some '\n' := by
  unfold front at h
  repeat' split at h
  all_goals simp only [Except.ok.injEq, Prod.mk.injEq, reduceCtorEq, false_and, true_and] at h
  · next hslash =>
    rw [← h, hslash.1]
    intro hlast
    rcases List.mem_cons.1 (List.mem_of_getLast? hlast) with hc | hmem
    · exact absurd hc (by decide)
    · exact not_mem_splitWhile (by decide) cs hmem
  · next hslash =>
    obtain ⟨ds, rfl⟩ := List.head?_eq_some_iff.1 hslash.2
    subst h
    have hlast := getLast?_splitComment (s := ds) hrest
    show (c :: '*' :: (splitComment ds).1).getLast? ≠ some '\n'
    rw [List.getLast?_cons, List.getLast?_cons, hlast]
    simp

theorem Cuts.getLast?_comment {b b' : Bool} {s rest : List Char} {ps : List Piece}
    (h : Cuts b s ps b' rest) (hrest : rest ≠ []) {p : Piece} (hp : p ∈ ps)
    (hcomment : p.kind = .comment) : p.text.getLast? ≠ some '\n' := by
  induction h with
  | done => cases hp
  | @piece _ _ c cs rest kind split ps hfront hcuts ih =>
    rcases List.mem_cons.1 hp with rfl | hp
    · cases hcomment
      refine getLast?_of_front hfront ?_
      rw [hcuts.text_eq]
      exact List.append_ne_nil_of_right_ne_nil _ hrest
    · exact ih hrest hp

/-- A comment goes on behind the first `k` lines. -/
def IsCutByComment (s : List Char) (k : Nat) : Prop :=
  ∃ ps, pieces s = .ok ps ∧ ∃ e ∈ placed .start ps,
    e.2.kind = .comment ∧ e.1.line ≤ k ∧ k < (e.1.after e.2.text).line

/-- Behind a text that does not end with a line, no line starts. -/
theorem one_lt_column_after {p : Place} (hp : 1 ≤ p.column) {s : List Char} (hs : s ≠ [])
    (hlast : s.getLast? ≠ some '\n') : 1 < (p.after s).column := by
  obtain ⟨t, c, rfl⟩ := (List.eq_nil_or_concat' s).resolve_left hs
  have hc : c ≠ '\n' := by simpa using hlast
  have hcolumn := one_le_column_after hp t
  have hsize := c.utf8Size_pos
  rw [Place.after_append, Place.after_cons, Place.after_nil, Place.next, if_neg hc]
  show 1 < _ + _
  omega

theorem isCutByComment_iff {s : List Char} {k : Nat} {ps : List Piece} {b : Bool}
    (h : Cuts true s ps b []) :
    IsCutByComment s k ↔ ∃ e ∈ placed .start ps,
      e.2.kind = .comment ∧ e.1.line ≤ k ∧ k < (e.1.after e.2.text).line := by
  unfold IsCutByComment pieces
  rw [piecesFrom_of_cuts h]
  simp

theorem Cuts.text_ne_nil {b b' : Bool} {s rest : List Char} {ps : List Piece}
    (h : Cuts b s ps b' rest) {p : Piece} (hp : p ∈ ps) : p.text ≠ [] := by
  induction h with
  | done => cases hp
  | piece _ _ ih =>
    rcases List.mem_cons.1 hp with rfl | hp
    · exact List.cons_ne_nil _ _
    · exact ih hp

variable {A B : List Char} {ps qs : List Piece} {b : Bool}

/-- No comment goes on behind whole lines that can be scanned on their own. -/
theorem not_isCutByComment (hA : A = [] ∨ A.getLast? = some '\n')
    (hqs : ∀ X, Cuts true (A ++ X) qs true X) (h : Cuts true (A ++ B) ps b []) :
    ¬ IsCutByComment (A ++ B) (A.count '\n') := by
  rw [isCutByComment_iff h]
  rintro ⟨e, he, hcomment, habove, hbelow⟩
  obtain ⟨rs, rfl, -⟩ := (hqs B).split h
  have htext : qs.flatMap (·.text) = A := by simpa using ((hqs []).text_eq).symm
  rw [placed_append, htext, Place.start_after_wholeLines hA] at he
  rcases List.mem_append.1 he with he | he
  · obtain ⟨-, hend, hmem⟩ := le_of_mem_placed he
    rw [htext, Place.start_after_wholeLines hA] at hend
    -- it would have to end with the last line, but behind it there may be more of that line
    have hlast := (hqs ['x']).getLast?_comment (List.cons_ne_nil _ _) hmem hcomment
    have hne : e.2.text ≠ [] := by
      intro hnil
      rw [hnil] at hbelow
      exact absurd hbelow (Nat.not_lt_of_le habove)
    have hcolumn := one_lt_column_after
      (one_le_column_of_mem_placed (Nat.le_refl 1) he) hne hlast
    rw [Place.le_def] at hend
    dsimp only at hend
    omega
  · have hline := Place.line_le (le_of_mem_placed he).1
    dsimp only at hline
    omega

/-- Whole lines can be scanned on their own if no comment goes on behind them. -/
theorem exists_cuts_iff (hA : A = [] ∨ A.getLast? = some '\n') (h : Cuts true (A ++ B) ps b []) :
    (∃ qs, ∀ X, Cuts true (A ++ X) qs true X) ↔ ¬ IsCutByComment (A ++ B) (A.count '\n') := by
  refine ⟨fun ⟨qs, hqs⟩ => not_isCutByComment hA hqs h, fun hcut => ?_⟩
  obtain ⟨o, htext, ho⟩ := exists_opening (hA.imp (⟨·, rfl⟩) id) h
  cases o with
  | code qs => exact ⟨qs, ho⟩
  | comment qs inside =>
    exfalso
    apply hcut
    rw [isCutByComment_iff h]
    obtain ⟨rs, rfl, -⟩ := (ho B).split h
    have htext : qs.flatMap (·.text) ++ inside = A := htext
    -- what is open has begun in the last of the lines at the latest
    have hinside : '\n' ∈ inside := by
      have hne : inside ≠ [] := by
        have hlast := (ho []).text_ne_nil (List.mem_append_right qs List.mem_cons_self)
        simpa [splitComment] using hlast
      have hA' := hA.resolve_left fun hnil => by simp [hnil, hne] at htext
      rw [← htext, List.getLast?_append_of_ne_nil _ hne] at hA'
      exact List.mem_of_getLast? hA'
    have hcount := List.count_pos_iff.2 hinside
    have hlines : A.count '\n' = (qs.flatMap (·.text)).count '\n' + inside.count '\n' := by
      rw [← htext, List.count_append]
    refine ⟨(Place.start.after (qs.flatMap (·.text)), ⟨.comment, inside ++ (splitComment B).1⟩),
      ?_, rfl, ?_, ?_⟩
    · rw [placed_append, Opening.pieces, placed_append]
      exact List.mem_append_left _ (List.mem_append_right _ List.mem_cons_self)
    · rw [Place.line_after, hlines]
      show 1 + _ ≤ _
      omega
    · rw [Place.line_after, Place.line_after, List.count_append, hlines]
      show _ < 1 + _ + _
      omega

/-! ## File scope -/

/-- Whole lines end at file scope: in no comment, no block and no statement. -/
def AtFileScope (A : List Char) : Prop :=
  ∃ ps, (∀ X, Cuts true (A ++ X) ps true X) ∧ settled ((placed .start ps).filterMap token?) = true

/-- Scanned on their own, lines at file scope are settled. -/
theorem AtFileScope.settled {lx : Lexed} (h : AtFileScope A)
    (hlex : lex (String.ofList A) = .ok lx) : settled lx.tokens = true := by
  obtain ⟨ps, hcuts, hsettled⟩ := h
  have hcut := hcuts []
  rw [List.append_nil] at hcut
  rw [lex_of_cuts (by rwa [String.toList_ofList])] at hlex
  cases hlex
  exact hsettled

/-- The tokens on the first `k` lines, and those below. -/
def Lexed.above (lx : Lexed) (k : Nat) : List Token := lx.tokens.filter (·.place.line ≤ k)

def Lexed.below (lx : Lexed) (k : Nat) : List Token := lx.tokens.filter (k < ·.place.line)

/-- Each declaration of a text stands above a line or below it: the scan can be taken apart
there. -/
def Lexed.IsApart (lx : Lexed) (k : Nat) : Prop :=
  (declarations false lx.tokens).map Declaration.alone =
    (declarations false (lx.above k) ++ declarations false (lx.below k)).map Declaration.alone

/-- The tokens of lines that can be scanned on their own, and those below. -/
theorem tokens_of_wholeLines (hA : A = [] ∨ A.getLast? = some '\n')
    (hqs : ∀ X, Cuts true (A ++ X) qs true X) {lx : Lexed}
    (hlex : lex (String.ofList (A ++ B)) = .ok lx) :
    lx.above (A.count '\n') = (placed .start qs).filterMap token? ∧
      lx.tokens = lx.above (A.count '\n') ++ lx.below (A.count '\n') := by
  obtain ⟨ps, b, hcuts, rfl⟩ := exists_cuts_of_lex hlex
  rw [String.toList_ofList] at hcuts
  obtain ⟨rs, rfl, -⟩ := (hqs B).split hcuts
  have htext : qs.flatMap (·.text) = A := by simpa using ((hqs []).text_eq).symm
  have hwhole : qs.flatMap (·.text) ++ [] = A := by rw [List.append_nil, htext]
  have habove : ∀ t ∈ (placed .start qs).filterMap token?, t.place.line ≤ A.count '\n' :=
    fun t ht => line_le_of_wholeLines hA hwhole (hqs []) ht
  have hbelow : ∀ t ∈ (placed (Place.start.after A) rs).filterMap token?,
      A.count '\n' < t.place.line := by
    intro t ht
    obtain ⟨e, he, het⟩ := List.mem_filterMap.1 ht
    obtain ⟨_, -, rfl⟩ := exists_piece_of_token? het
    have hline := Place.line_le (le_of_mem_placed he).1
    rw [Place.start_after_wholeLines hA] at hline
    dsimp only at hline ⊢
    omega
  unfold Lexed.above Lexed.below
  dsimp only
  rw [placed_append, List.filterMap_append, htext, List.filter_append, List.filter_append,
    List.filter_eq_self.2 (by simpa using habove), List.filter_eq_nil_iff.2 (by simpa using hbelow),
    List.filter_eq_nil_iff.2 (by simpa using habove), List.filter_eq_self.2 (by simpa using hbelow),
    List.append_nil, List.nil_append]
  exact ⟨rfl, rfl⟩

/-- Lines above a block are at file scope exactly if neither a comment nor a declaration goes on
behind them. -/
theorem atFileScope_iff (hA : A = [] ∨ A.getLast? = some '\n') {lx : Lexed}
    (hlex : lex (String.ofList (A ++ B)) = .ok lx) {brace : Token}
    (hbrace : brace ∈ lx.below (A.count '\n')) (hopens : brace.isMark '{' = true) :
    AtFileScope A ↔ ¬ IsCutByComment (A ++ B) (A.count '\n') ∧ lx.IsApart (A.count '\n') := by
  obtain ⟨ps, b, hcuts, -⟩ := exists_cuts_of_lex hlex
  rw [String.toList_ofList] at hcuts
  rw [← exists_cuts_iff hA hcuts]
  have hsettled {qs : List Piece} (hqs : ∀ X, Cuts true (A ++ X) qs true X) :
      lx.IsApart (A.count '\n') ↔ settled ((placed .start qs).filterMap token?) = true := by
    obtain ⟨habove, htokens⟩ := tokens_of_wholeLines hA hqs hlex
    have hnodup := (inOrder_tokens hlex).nodup
    rw [htokens] at hnodup
    unfold Lexed.IsApart
    rw [← habove, ← declarations_append_iff hbrace hopens hnodup, ← htokens]
  constructor
  · rintro ⟨qs, hqs, h⟩
    exact ⟨⟨qs, hqs⟩, (hsettled hqs).2 h⟩
  · rintro ⟨⟨qs, hqs⟩, h⟩
    exact ⟨qs, hqs, (hsettled hqs).1 h⟩

end Model

/-! ## The include -/

open Model

variable {path : FilePath} {code : String} {args : List String} {ds : List Definition}
  {s s' : ModelState} {i : IncludeSite}

/-- The include stands above the lines of the definitions. -/
theorem IncludeSite.lt_line (hds : ∀ d ∈ ds, 1 ≤ d.line)
    (h : includeSite? path (Text.splitLines code.toList) ds = some i) :
    ∀ d ∈ ds, i.above + i.gone < d.line := by
  obtain ⟨first, hfirst, habove, -, hgone⟩ := includeSite?_eq_some h
  obtain ⟨hmem, hmin⟩ := List.min?_eq_some_iff.1 hfirst
  obtain ⟨d₀, hd₀, rfl⟩ := List.mem_map.1 hmem
  intro d hd
  have hle := hmin _ (List.mem_map_of_mem hd)
  have hone := hds d₀ hd₀
  rcases hgone with ⟨hgone, -⟩ | ⟨hgone, hlt, -⟩
  · omega
  · omega

namespace Model

variable {lx : Lexed} {d : Declaration} {k : Nat}

/-- A declaration that begins below a line stands below it as a whole. -/
theorem lt_line_of_mem_parts (horder : InOrder lx.tokens) (hd : d ∈ declarations false lx.tokens)
    {first : Token} (hfirst : d.tokens.head? = some first) (hline : k < first.place.line) :
    ∀ t ∈ d.parts, k < t.place.line := by
  have hsub : d.parts.Sublist lx.tokens :=
    (List.sublist_flatten_of_mem (List.mem_map_of_mem hd)).trans (parts_sublist false lx.tokens)
  obtain ⟨rest, hrest⟩ := List.head?_eq_some_iff.1 hfirst
  have hpairs := horder.1.sublist hsub
  unfold Declaration.parts at hpairs ⊢
  rw [hrest, List.cons_append] at hpairs ⊢
  intro t ht
  rcases List.mem_cons.1 ht with rfl | ht
  · exact hline
  · have hle : first.stop.line ≤ t.place.line :=
      Place.line_le ((List.pairwise_cons.1 hpairs).1 t ht)
    exact Nat.lt_of_lt_of_le hline hle

/-- The brace of a function stands no line above its name. -/
theorem exists_brace_of_defined (horder : InOrder lx.tokens) {h : FunctionHead}
    (hh : h ∈ definedHeads lx.tokens) (hline : k < h.name.place.line) :
    ∃ brace ∈ lx.below k, brace.isMark '{' = true := by
  obtain ⟨d, hd, hdefined⟩ := List.mem_filterMap.1 hh
  obtain ⟨b, hb, hread⟩ := Option.bind_eq_some_iff.1 hdefined
  obtain ⟨hsub, hopens⟩ := opening_of_mem_declarationsFrom hd hb
  rw [List.nil_append] at hsub
  obtain ⟨-, -, hbefore⟩ := List.pairwise_append.1 (horder.1.sublist hsub)
  have hle : h.name.stop.line ≤ b.opening.place.line :=
    Place.line_le (hbefore h.name (FunctionHead.mem_of_read? hread).1 b.opening List.mem_cons_self)
  have hmem := hsub.subset (List.mem_append_right d.tokens List.mem_cons_self)
  refine ⟨b.opening, List.mem_filter.2 ⟨hmem, ?_⟩, hopens⟩
  exact decide_eq_true (Nat.lt_of_lt_of_le hline hle)

end Model

/-- The lines above the include. -/
def IncludeSite.linesAbove (i : IncludeSite) (code : String) : List Char :=
  Text.wholeLines ((Text.splitLines code.toList).take i.above)

theorem IncludeSite.toList_eq (h : i.above < Text.lineCount code.toList) :
    code.toList = i.linesAbove code ++
        Text.joinLines ((Text.splitLines code.toList).drop i.above) ∧
      (i.linesAbove code).count '\n' = i.above := by
  have hbelow : (Text.splitLines code.toList).drop i.above ≠ [] := by
    rw [Ne, List.drop_eq_nil_iff]
    exact Nat.not_le_of_lt h
  have hjoin := Text.joinLines_append ((Text.splitLines code.toList).take i.above) hbelow
  rw [List.take_append_drop, Text.joinLines_splitLines] at hjoin
  refine ⟨hjoin, ?_⟩
  unfold linesAbove
  rw [Text.count_wholeLines fun l hl => Text.not_mem_of_mem_splitLines (List.mem_of_mem_take hl),
    List.length_take]
  exact Nat.min_eq_left (Nat.le_of_lt h)

/-- The block of a function whose name stands below the include is what stands below, so the lines
above are at file scope exactly if nothing goes on behind them. -/
theorem IncludeSite.atFileScope_iff {lx : Lexed} (hlex : lex code = .ok lx) {h : FunctionHead}
    (hh : h ∈ definedHeads lx.tokens) (hname : i.above < h.name.place.line)
    (hline : h.name.place.line ≤ Text.lineCount code.toList) :
    AtFileScope (i.linesAbove code) ↔
      ¬ IsCutByComment code.toList i.above ∧ lx.IsApart i.above := by
  obtain ⟨brace, hbrace, hopens⟩ := exists_brace_of_defined (inOrder_tokens hlex) hh hname
  obtain ⟨htext, hcount⟩ := IncludeSite.toList_eq (Nat.lt_of_lt_of_le hname hline)
  rw [← String.ofList_toList (s := code), htext] at hlex
  rw [← hcount] at hbrace
  have hwhole : i.linesAbove code = [] ∨ (i.linesAbove code).getLast? = some '\n' :=
    Text.getLast?_wholeLines _
  have hiff := Model.atFileScope_iff hwhole hlex hbrace hopens
  rwa [← htext, hcount] at hiff

/-- The include goes above the names of all definitions that are found. If none of them begins above
it, they stand below it as a whole, and the include is at file scope exactly if neither a comment
nor a declaration goes on from above it to below. -/
theorem InsertionMemo.inject_at_file_scope (m : InsertionMemo) (signature : ContentHash)
    (hscan : Yields (definitions? modelEngine path code args) s (some ds) s') (hds : ds ≠ []) :
    ∃ lx i, lex code = .ok lx ∧ includeSite? path (Text.splitLines code.toList) ds = some i ∧
      (m.inject signature path code ds).1 =
        ⟨String.ofList (Text.joinLines (i.lines (Text.splitLines code.toList))), 1 - i.gone, true⟩ ∧
      (∀ d ∈ ds, i.above + i.gone < d.line) ∧
      ((∀ d ∈ declarations false lx.tokens, d.defined?.isSome →
          ∀ first, d.tokens.head? = some first → i.above + i.gone < first.place.line) →
        (∀ d ∈ declarations false lx.tokens, d.defined?.isSome →
          ∀ t ∈ d.parts, i.above + i.gone < t.place.line) ∧
        (AtFileScope (i.linesAbove code) ↔
          ¬ IsCutByComment code.toList i.above ∧ lx.IsApart i.above)) := by
  have hfound := (definitions?_eq hscan).resolve_left (Option.some_ne_none ds)
  have hlines := line_of_mem_definedIn? code
  rw [← hfound, Option.getD_some] at hlines
  cases hlex : lex code with
  | error e => simp [definedIn?, hlex, Except.toOption] at hfound
  | ok lx =>
    have horder := inOrder_tokens hlex
    cases hsite : includeSite? path (Text.splitLines code.toList) ds with
    | none => exact absurd (includeSite?_eq_none.1 hsite) hds
    | some i =>
      have hbelow := IncludeSite.lt_line (fun d hd => (hlines d hd).1) hsite
      have hinject := m.inject_eq signature path code ds
      rw [hsite] at hinject
      refine ⟨lx, i, rfl, rfl, hinject, hbelow, fun hbegin => ⟨fun d hd hdefined => ?_, ?_⟩⟩
      · obtain ⟨h, hh⟩ := Option.isSome_iff_exists.1 hdefined
        obtain ⟨-, -, hread⟩ := Option.bind_eq_some_iff.1 hh
        cases hfirst : d.tokens.head? with
        | none =>
          rw [List.head?_eq_none_iff.1 hfirst] at hread
          cases hread
        | some first =>
          exact lt_line_of_mem_parts horder hd hfirst (hbegin d hd hdefined first hfirst)
      · obtain ⟨ds', hds', hmem⟩ := exists_definedIn? hlex
        rw [← hfound] at hds'
        cases hds'
        obtain ⟨d, hd⟩ := List.exists_mem_of_ne_nil ds hds
        obtain ⟨h, hh, rfl⟩ := (hmem d).1 hd
        exact IncludeSite.atFileScope_iff hlex hh
          (Nat.lt_of_le_of_lt (Nat.le_add_right _ _) (hbelow _ hd)) (hlines _ hd).2

/-- The include goes into the blank line between two declarations. -/
theorem inject_between_declarations :
    ∃ s' i, Yields (definitions? modelEngine ⟨"/s/Blink.ino"⟩ "int a;\n\nvoid f() \x7b\x7d\n" []) {}
        (some [⟨"f", 3, "void f()"⟩]) s' ∧
      (({} : InsertionMemo).inject ⟨0⟩ ⟨"/s/Blink.ino"⟩ "int a;\n\nvoid f() \x7b\x7d\n"
        [⟨"f", 3, "void f()"⟩]).1.text = "int a;\n#include \"Blink.ino.hpp\"\nvoid f() \x7b\x7d\n" ∧
      includeSite? ⟨"/s/Blink.ino"⟩ (Text.splitLines "int a;\n\nvoid f() \x7b\x7d\n".toList)
        [⟨"f", 3, "void f()"⟩] = some i ∧
      AtFileScope (i.linesAbove "int a;\n\nvoid f() \x7b\x7d\n") := by
  have hscan := yields_definitions? (s := {}) ⟨"/s/Blink.ino"⟩
    "int a;\n\nvoid f() \x7b\x7d\n" [] (by cbv) rfl
  have hfound : definedIn? "int a;\n\nvoid f() \x7b\x7d\n" = some [⟨"f", 3, "void f()"⟩] := by cbv
  rw [hfound] at hscan
  obtain ⟨lx, i, hlex, hsite, -, -, hscope⟩ :=
    ({} : InsertionMemo).inject_at_file_scope ⟨0⟩ hscan (List.cons_ne_nil _ _)
  have hplace : includeSite? ⟨"/s/Blink.ino"⟩
      (Text.splitLines "int a;\n\nvoid f() \x7b\x7d\n".toList) [⟨"f", 3, "void f()"⟩] =
        some ⟨1, 1, "#include \"Blink.ino.hpp\"".toList⟩ := by decide
  rw [hsite] at hplace
  cases hplace
  have htokens : lex "int a;\n\nvoid f() \x7b\x7d\n" = .ok ⟨[⟨.word "int", ⟨1, 1⟩, 3⟩,
      ⟨.word "a", ⟨1, 5⟩, 1⟩, ⟨.mark ';', ⟨1, 6⟩, 1⟩, ⟨.word "void", ⟨3, 1⟩, 4⟩,
      ⟨.word "f", ⟨3, 6⟩, 1⟩, ⟨.mark '(', ⟨3, 7⟩, 1⟩, ⟨.mark ')', ⟨3, 8⟩, 1⟩,
      ⟨.mark '\x7b', ⟨3, 10⟩, 1⟩, ⟨.mark '\x7d', ⟨3, 11⟩, 1⟩], []⟩ := by cbv
  rw [hlex] at htokens
  cases htokens
  refine ⟨_, _, hscan, by decide, hsite, (hscope ?_).2.2 ⟨?_, ?_⟩⟩
  · simp [declarations, declarationsFrom, Token.isMark, Block.ofBrace, closing?,
      Declaration.defined?]
  · rintro ⟨ps, hps, e, he, hcomment, -⟩
    have hnone : (pieces "int a;\n\nvoid f() \x7b\x7d\n".toList).toOption.map
        (fun ps => ps.any (·.kind = .comment)) = some false := by cbv
    rw [hps] at hnone
    have hall : ps.any (·.kind = .comment) = false := Option.some.inj hnone
    rw [List.any_eq_false] at hall
    exact hall e.2 (le_of_mem_placed he).2.2 (by simpa using hcomment)
  · simp [Lexed.IsApart, Lexed.above, Lexed.below, declarations, declarationsFrom, Token.isMark,
      Block.ofBrace, closing?, Declaration.alone]

/-- A record with a blank line goes on behind the line of the include. -/
theorem inject_in_record :
    ∃ s' i, Yields (definitions? modelEngine ⟨"/s/Blink.ino"⟩
        "struct A \x7b\n\n  int x;\n\x7d;\nvoid f() \x7b\x7d\n" []) {}
        (some [⟨"f", 5, "void f()"⟩]) s' ∧
      (({} : InsertionMemo).inject ⟨0⟩ ⟨"/s/Blink.ino"⟩
        "struct A \x7b\n\n  int x;\n\x7d;\nvoid f() \x7b\x7d\n" [⟨"f", 5, "void f()"⟩]).1.text =
        "struct A \x7b\n#include \"Blink.ino.hpp\"\n  int x;\n\x7d;\nvoid f() \x7b\x7d\n" ∧
      includeSite? ⟨"/s/Blink.ino"⟩ (Text.splitLines
        "struct A \x7b\n\n  int x;\n\x7d;\nvoid f() \x7b\x7d\n".toList) [⟨"f", 5, "void f()"⟩] =
          some i ∧
      ¬ AtFileScope (i.linesAbove "struct A \x7b\n\n  int x;\n\x7d;\nvoid f() \x7b\x7d\n") := by
  have hscan := yields_definitions? (s := {}) ⟨"/s/Blink.ino"⟩
    "struct A \x7b\n\n  int x;\n\x7d;\nvoid f() \x7b\x7d\n" [] (by cbv) rfl
  have hfound : definedIn? "struct A \x7b\n\n  int x;\n\x7d;\nvoid f() \x7b\x7d\n" =
      some [⟨"f", 5, "void f()"⟩] := by cbv
  rw [hfound] at hscan
  refine ⟨_, _, hscan, by decide, rfl, fun hscope => ?_⟩
  have htokens : lex (String.ofList "struct A \x7b\n".toList) = .ok ⟨[⟨.word "struct", ⟨1, 1⟩, 6⟩,
      ⟨.word "A", ⟨1, 8⟩, 1⟩, ⟨.mark '\x7b', ⟨1, 10⟩, 1⟩], []⟩ := by cbv
  have hsettled := hscope.settled htokens
  simp [settled, settledFrom, closing?, Token.isMark] at hsettled

end SketchSense
