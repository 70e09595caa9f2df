import Mathlib.Data.List.TakeWhile
import SketchSense.Proofs.ByPosition.Nesting
import SketchSense.Proofs.Model.Heads

/-!
# Heads by position

Heads of functions as a program on positions. The parenthesis of a head is matched first, and then the
parentheses inside are counted once more. A parenthesis that nothing matches is its own match, and no
slice is out of range for that.

* `ParameterList`, the parameters that are read between two parentheses, with `parameterList_eq`;
* `functionHead`, the head of a function with the position of its name;
* `HeadTooDeep`, heads with too many open parentheses, and `functionHead_reads`: all other heads are
  read without a misstep.
-/

namespace SketchSense.Model.ByPosition

/-! ## Parameters -/

/-- What has been read of the parameters of a function. -/
structure ParameterList where
  depth : Int := 0
  current : List Token := []
  parameters : List Parameter := []
  isVariadic : Bool := false

namespace ParameterList

/-- Ends the parameter that is being read. -/
def finish (l : ParameterList) : Checked ParameterList :=
  match l.current with
  | [] => return { l with current := [] }
  | [t] =>
    if t.lexeme = .ellipsis then return { l with current := [], isVariadic := true }
    else if t.isWord "void" then return { l with current := [] }
    else return { l with current := [], parameters := l.parameters ++ [⟨typeText [t], ""⟩] }
  | ts =>
    match ts.getLast?.bind Token.word? with
    | some name => do
      let n ← less ts.length 1
      let types ← slice ts 0 n
      return { l with current := [], parameters := l.parameters ++ [⟨typeText types, name⟩] }
    | none => return { l with current := [], parameters := l.parameters ++ [⟨typeText ts, ""⟩] }

/-- How many parentheses are open behind a token. The last one is not counted where it closes the
list. -/
def depthBehind (last : Bool) (depth : Int) (t : Token) : Checked Int :=
  if t.isMark '(' then signed (depth + 1)
  else if t.isMark ')' ∧ ¬ last then signed (depth - 1)
  else return depth

/-- Reads a token; the last one closes the list. -/
def read (last : Bool) (l : ParameterList) (t : Token) : Checked ParameterList := do
  let depth ← depthBehind last l.depth t
  if (t.isMark ',' ∧ depth = 0) ∨ last then finish { l with depth }
  else return { l with depth, current := l.current ++ [t] }

end ParameterList

/-- The parameters behind the opening parenthesis at a position. Without a match the parenthesis is
taken for its own, and there is no token inside. -/
def parameterList (ts : List Token) (opening : Nat) : Checked ParameterList := do
  let found ← matchFrom '(' ')' opening 0 (ts.drop opening)
  let close := found.getD opening
  let last ← entryAt ts close
  let inside := (slice ts (opening + 1) close).toOption.getD []
  let l ← inside.foldlM (ParameterList.read false) {}
  l.read true last

namespace ParameterList

/-- More parameters, read from their tokens. -/
def add (l : ParameterList) (pieces : List (List Token)) : ParameterList :=
  { l with
    current := []
    parameters := l.parameters ++ (pieces.filter (!isEllipsis ·)).filterMap parameter?
    isVariadic := l.isVariadic || pieces.any isEllipsis }

/-- A parameter that is ended is read from its tokens. -/
theorem finish_eq (l : ParameterList) : l.finish = .ok (l.add [l.current]) := by
  obtain ⟨depth, current, parameters, isVariadic⟩ := l
  unfold finish add
  match current with
  | [] => simp [isEllipsis, parameter?]
  | [t] =>
    dsimp only
    have hmap : isEllipsis [t] = decide (t.lexeme = .ellipsis) := by simp [isEllipsis]
    by_cases hellipsis : t.lexeme = .ellipsis
    · simp [hmap, hellipsis]
    · have hparameter : parameter? [t] =
          if t.isWord "void" then none else some ⟨typeText [t], ""⟩ := by
        unfold parameter? Token.isWord
        rw [List.getLast?_singleton, Option.bind_some, typeText_singleton]
        unfold Token.word? Token.text
        cases t.lexeme <;> simp
      rw [if_neg hellipsis]
      by_cases hvoid : t.isWord "void" = true
      · simp [hmap, hellipsis, hparameter, hvoid]
      · simp [hmap, hellipsis, hparameter, hvoid]
  | t :: u :: us =>
    dsimp only
    have hellipsis : isEllipsis (t :: u :: us) = false := by simp [isEllipsis]
    have hpieces : [t :: u :: us].filter (!isEllipsis ·) = [t :: u :: us] := by simp [hellipsis]
    rw [List.any_cons, List.any_nil, hellipsis, Bool.false_or, Bool.or_false, hpieces,
      List.filterMap_cons, List.filterMap_nil, parameter?]
    cases hword : (t :: u :: us).getLast?.bind Token.word? with
    | none => simp
    | some name =>
      have hless : less (t :: u :: us).length 1 = .ok (t :: us).length := less_eq (by simp; omega)
      have hwhole : t :: u :: us = (t :: u :: us).dropLast ++ [(t :: u :: us).getLast (by simp)] :=
        (List.dropLast_concat_getLast _).symm
      have hslice : slice (t :: u :: us) 0 (t :: us).length = .ok (t :: u :: us).dropLast :=
        slice_eq [] _ hwhole rfl (by simp)
      dsimp only
      rw [hless, ok_bind, hslice, ok_bind, if_pos (by simp)]
      rfl

theorem add_add (l : ParameterList) (ps qs : List (List Token)) :
    (l.add ps).add qs = l.add (ps ++ qs) := by
  simp [add, Bool.or_assoc]

variable {l : ParameterList} {t last : Token} {ts : List Token} {depth n : Nat}

/-- The last token ends the list, whatever it is. -/
theorem read_last (h : t.isMark '(' = false ∨ l.depth = 0) :
    ∃ d, l.read true t = .ok { l.add [l.current] with depth := d } := by
  have hdepth : ∃ d, depthBehind true l.depth t = .ok d := by
    unfold depthBehind
    by_cases hopening : t.isMark '(' = true
    · have hzero := h.resolve_left (by simp [hopening])
      rw [if_pos hopening, hzero]
      exact ⟨1, rfl⟩
    · rw [if_neg hopening, if_neg (by simp)]
      exact ⟨_, rfl⟩
  obtain ⟨d, hd⟩ := hdepth
  unfold read
  rw [hd, ok_bind, if_pos (.inr rfl)]
  exact ⟨d, finish_eq _⟩

theorem depthBehind_eq (ht : t.depth? '(' ')' depth = some n) (hn : n < signLimit) :
    depthBehind false depth t = .ok (n : Int) := by
  unfold Token.depth? at ht
  unfold depthBehind
  rw [← signed_of_lt hn]
  by_cases hopening : t.isMark '(' = true
  · rw [if_pos hopening] at ht ⊢
    cases ht
    rfl
  · rw [if_neg hopening] at ht ⊢
    by_cases hclose : t.isMark ')' = true
    · rw [if_pos hclose] at ht
      rw [if_pos ⟨hclose, Bool.false_ne_true⟩]
      cases depth with
      | zero => cases ht
      | succ depth =>
        cases ht
        exact congrArg signed (by omega)
    · rw [if_neg hclose] at ht
      rw [if_neg fun h => hclose h.1]
      cases ht
      exact (signed_of_lt hn).symm

/-- A comma in no parenthesis ends a parameter. -/
theorem read_eq (hl : l.depth = depth) (ht : t.depth? '(' ')' depth = some n) (hn : n < signLimit) :
    l.read false t =
      if t.isMark ',' ∧ depth = 0 then .ok (l.add [l.current])
      else .ok { l with depth := n, current := l.current ++ [t] } := by
  unfold read
  rw [hl, depthBehind_eq ht hn, ok_bind]
  by_cases hcomma : t.isMark ',' = true
  · rw [depth?_comma hcomma] at ht
    cases ht
    by_cases hzero : depth = 0
    · rw [if_pos (.inl ⟨hcomma, by omega⟩), if_pos ⟨hcomma, hzero⟩, ← hl]
      exact finish_eq l
    · rw [if_neg, if_neg fun h => hzero h.2]
      · rfl
      · rintro (h | h)
        · exact hzero (by omega)
        · cases h
  · rw [if_neg (by simp [hcomma]), if_neg fun h => hcomma h.1]
    rfl

/-- Parameters are read where the commas outside of parentheses cut them. -/
theorem foldlM_read (hl : l.depth = depth) (hshallow : ¬NestsTooDeep '(' ')' depth ts)
    (hts : depth? '(' ')' depth ts = some n) (hlast : last.isMark '(' = false) :
    ∃ d, (ts.foldlM (read false) l >>= fun l => l.read true last) =
      .ok { l.add (splitCommas depth l.current ts) with depth := d } := by
  induction ts generalizing l depth with
  | nil => exact read_last (.inl hlast)
  | cons t ts ih =>
    rw [depth?_cons] at hts
    obtain ⟨m, ht, hts⟩ := Option.bind_eq_some_iff.1 hts
    have hrest : ¬NestsTooDeep '(' ')' m ts :=
      fun hdeep => hshallow (nestsTooDeep_cons.2 (.inr ⟨m, ht, hdeep⟩))
    have hm := lt_of_not_nestsTooDeep hrest
    rw [List.foldlM_cons, splitCommas_cons ht, read_eq hl ht (by omega)]
    by_cases hcomma : t.isMark ',' = true ∧ depth = 0
    · obtain ⟨hmark, rfl⟩ := hcomma
      rw [depth?_comma hmark] at ht
      cases ht
      rw [if_pos ⟨hmark, rfl⟩, if_pos ⟨hmark, rfl⟩, ok_bind]
      obtain ⟨d, hread⟩ := ih (l := l.add [l.current]) hl hrest hts
      exact ⟨d, hread.trans (by rw [add_add]; rfl)⟩
    · rw [if_neg hcomma, if_neg hcomma, ok_bind]
      obtain ⟨d, hread⟩ := ih (l := { l with depth := m, current := l.current ++ [t] }) rfl hrest hts
      exact ⟨d, hread⟩

end ParameterList

/-- The parameters behind a parenthesis are those of the tokens that follow. -/
theorem parameterList_eq {before rest : List Token} {paren : Token} {i : Nat}
    (hparen : paren.isMark '(' = true) (hi : i = before.length)
    (hshallow : ¬NestsTooDeep '(' ')' 0 rest) :
    ∃ l, parameterList (before ++ paren :: rest) i = .ok l ∧
      l.parameters = ((parameterTokens rest).filter (!isEllipsis ·)).filterMap parameter? ∧
      l.isVariadic = (parameterTokens rest).any isEllipsis := by
  have hdrop : (before ++ paren :: rest).drop i = paren :: rest := by rw [hi, List.drop_left]
  unfold parameterList parameterTokens
  rw [hdrop, (matchFrom_opening i hparen).2 hshallow, ok_bind]
  cases hclosing : closing? '(' ')' 0 rest with
  | some x =>
    obtain ⟨inside, last, behind⟩ := x
    obtain ⟨rfl, n, hinside, hmatch⟩ := closing?_eq_some_iff.1 hclosing
    have hwhole : before ++ paren :: (inside ++ last :: behind) =
        (before ++ paren :: inside) ++ last :: behind := by simp
    have hlast : entryAt (before ++ paren :: (inside ++ last :: behind)) (i + 1 + inside.length) =
        .ok last := entryAt_eq hwhole (by simp [hi]; omega)
    have hslice : slice (before ++ paren :: (inside ++ last :: behind)) (i + 1)
        (i + 1 + inside.length) = .ok inside :=
      slice_eq (before ++ [paren]) (last :: behind) (by simp) (by simp [hi]) rfl
    have hinner : ¬NestsTooDeep '(' ')' 0 inside :=
      fun hdeep => hshallow (hdeep.of_front (List.prefix_append _ _))
    obtain ⟨d, hread⟩ := ParameterList.foldlM_read (l := {}) rfl hinner hinside
      (depth?_eq_none_iff.1 hmatch).2.2
    dsimp only [Option.map_some, Option.getD_some]
    rw [hlast, ok_bind, hslice]
    exact ⟨_, hread, by simp [ParameterList.add], by simp [ParameterList.add]⟩
  | none =>
    -- the parenthesis is its own match, and the slice that is missed counts as nothing inside
    have hlast : entryAt (before ++ paren :: rest) i = .ok paren := entryAt_eq rfl hi
    have hslice : slice (before ++ paren :: rest) (i + 1) i = .error .slice := by
      unfold slice
      rw [if_neg (by omega)]
    obtain ⟨d, hread⟩ := ParameterList.read_last (l := {}) (t := paren) (.inr rfl)
    dsimp only [Option.map_none, Option.getD_none]
    rw [hlast, ok_bind, hslice]
    exact ⟨_, hread, by simp [ParameterList.add, parameter?, isEllipsis],
      by simp [ParameterList.add, isEllipsis]⟩

theorem parameterList_overflow {before rest : List Token} {paren : Token} {i : Nat}
    (hparen : paren.isMark '(' = true) (hi : i = before.length)
    (hdeep : NestsTooDeep '(' ')' 0 rest) :
    parameterList (before ++ paren :: rest) i = .error .overflow := by
  have hdrop : (before ++ paren :: rest).drop i = paren :: rest := by rw [hi, List.drop_left]
  unfold parameterList
  rw [hdrop, (matchFrom_opening i hparen).1 hdeep]
  rfl

/-! ## Heads -/

/-- The head of a function, with the position of the name in place of the name. -/
structure HeadAt where
  nameAt : Nat
  resultType : String
  isStatic : Bool
  isVariadic : Bool
  parameters : List Parameter

/-- The head that a statement starts with. -/
def functionHead (ts : List Token) : Checked (Option HeadAt) :=
  match ts.findIdx? (·.isMark '(') with
  | none | some 0 => return none
  | some (nameAt + 1) => do
    let name ← entryAt ts nameAt
    match name.word? with
    | none => return none
    | some word =>
      let before ← slice ts 0 nameAt
      let types := before.filter (!·.isStorage)
      if word ∈ notNames ∨ before.any (·.isMark '=') ∨ types = [] then return none
      else
        let l ← parameterList ts (nameAt + 1)
        return some {
          nameAt
          resultType := typeText types
          isStatic := before.any (·.isWord "static")
          isVariadic := l.isVariadic
          parameters := l.parameters }

section Heads

variable {types rest ts : List Token} {name paren : Token}

/-- No head starts with a parenthesis. -/
theorem functionHead_paren (hparen : paren.isMark '(' = true) (rest : List Token) :
    functionHead (paren :: rest) = .ok none ∧ FunctionHead.read? (paren :: rest) = none := by
  constructor
  · simp [functionHead, List.findIdx?_cons, hparen]
  · simp [FunctionHead.read?, hparen]

/-- There is no head without a parenthesis. -/
theorem functionHead_plain (hplain : ∀ t ∈ ts, t.isMark '(' = false) :
    functionHead ts = .ok none ∧ FunctionHead.read? ts = none := by
  constructor
  · unfold functionHead
    rw [List.findIdx?_eq_none_iff.2 hplain]
    rfl
  · have hall : ts.takeWhile (!·.isMark '(') = ts := by
      rw [List.takeWhile_eq_self_iff]
      exact fun t ht => by simp [hplain t ht]
    unfold FunctionHead.read?
    dsimp only
    rw [hall, List.drop_length]

theorem takeWhile_paren (hplain : ∀ t ∈ types ++ [name], t.isMark '(' = false)
    (hparen : paren.isMark '(' = true) (rest : List Token) :
    (types ++ name :: paren :: rest).takeWhile (!·.isMark '(') = types ++ [name] := by
  have hwhole : types ++ name :: paren :: rest = (types ++ [name]) ++ paren :: rest := by simp
  rw [hwhole, List.takeWhile_append_of_pos fun t ht => by simp [hplain t ht],
    List.takeWhile_cons_of_neg (by simp [hparen]), List.append_nil]

/-- What stands before the first parenthesis decides about the head. -/
theorem functionHead_of_paren (hplain : ∀ t ∈ types ++ [name], t.isMark '(' = false)
    (hparen : paren.isMark '(' = true) (rest : List Token) :
    (FunctionHead.read? (types ++ name :: paren :: rest) = none →
        functionHead (types ++ name :: paren :: rest) = .ok none) ∧
      ∀ h, FunctionHead.read? (types ++ name :: paren :: rest) = some h → h.rest = paren :: rest ∧
        (NestsTooDeep '(' ')' 0 rest →
          functionHead (types ++ name :: paren :: rest) = .error .overflow) ∧
        (¬NestsTooDeep '(' ')' 0 rest → functionHead (types ++ name :: paren :: rest) =
          .ok (some ⟨types.length, h.resultType, h.isStatic, h.isVariadic, h.parameters⟩)) := by
  have hwhole : types ++ name :: paren :: rest = (types ++ [name]) ++ paren :: rest := by simp
  have hfind : (types ++ name :: paren :: rest).findIdx? (·.isMark '(') =
      some (types.length + 1) := by
    rw [hwhole, List.findIdx?_append, List.findIdx?_eq_none_iff.2 hplain]
    simp [List.findIdx?_cons, hparen]
  have htake := takeWhile_paren hplain hparen rest
  have hdrop : (types ++ name :: paren :: rest).drop (types ++ [name]).length = paren :: rest := by
    rw [hwhole, List.drop_left]
  have hname : entryAt (types ++ name :: paren :: rest) types.length = .ok name := entryAt_eq rfl rfl
  have hslice : slice (types ++ name :: paren :: rest) 0 types.length = .ok types :=
    slice_eq [] _ rfl rfl (Nat.zero_add _).symm
  have hi : types.length + 1 = (types ++ [name]).length := by simp
  unfold functionHead FunctionHead.read?
  rw [hfind, htake]
  dsimp only
  rw [hname, ok_bind, hdrop, List.getLast?_concat, List.dropLast_concat]
  dsimp only
  cases hword : name.word? with
  | none => exact ⟨fun _ => rfl, fun h hread => by cases hread⟩
  | some word =>
    dsimp only
    rw [hslice, ok_bind]
    split
    · exact ⟨fun _ => rfl, fun h hread => by cases hread⟩
    · refine ⟨fun hread => by (cases hread), fun h hread => ?_⟩
      cases hread
      refine ⟨rfl, fun hdeep => ?_, fun hshallow => ?_⟩
      · rw [hwhole, parameterList_overflow hparen hi hdeep]
        rfl
      · obtain ⟨l, hlist, hparameters, hvariadic⟩ := parameterList_eq hparen hi hshallow
        rw [hwhole, hlist, ok_bind, hparameters, hvariadic]
        rfl

/-- A head with too many open parentheses somewhere in its list of parameters. -/
def HeadTooDeep (ts : List Token) : Prop :=
  ∃ h, FunctionHead.read? ts = some h ∧ NestsTooDeep '(' ')' 0 h.rest.tail

theorem not_headTooDeep (h : FunctionHead.read? ts = none) : ¬HeadTooDeep ts := by
  rintro ⟨head, hread, -⟩
  rw [h] at hread
  cases hread

theorem HeadTooDeep.le_length (h : HeadTooDeep ts) : signLimit ≤ ts.length := by
  obtain ⟨head, hread, hdeep⟩ := h
  obtain ⟨types, name, paren, rest, -, rfl, rfl⟩ := FunctionHead.read?_eq_some_iff.1 hread
  have hlength := hdeep.le_length
  simp only [FunctionHead.ofParts, List.tail_cons] at hlength
  simp only [List.length_append, List.length_cons]
  omega

/-- What some tokens are read as, if a head is looked for. -/
inductive ReadsHead (ts : List Token) : Checked (Option HeadAt) → Prop
  | tooDeep (hdeep : HeadTooDeep ts) : ReadsHead ts (.error .overflow)
  | none (hread : FunctionHead.read? ts = none) : ReadsHead ts (.ok none)
  | some {types : List Token} {h : FunctionHead} (hread : FunctionHead.read? ts = some h)
      (hwhole : ts = types ++ h.name :: h.rest) (hshallow : ¬HeadTooDeep ts) :
      ReadsHead ts (.ok (some ⟨types.length, h.resultType, h.isStatic, h.isVariadic, h.parameters⟩))

/-- A head that is not too deep is read without a misstep: what is read is the head, with the position
of its name. -/
theorem functionHead_reads (ts : List Token) : ReadsHead ts (functionHead ts) := by
  have hwhole : ts.takeWhile (!·.isMark '(') ++ ts.dropWhile (!·.isMark '(') = ts :=
    List.takeWhile_append_dropWhile
  have hbefore : ∀ t ∈ ts.takeWhile (!·.isMark '('), t.isMark '(' = false := fun t ht => by
    simpa using List.all_eq_true.1 (List.all_takeWhile (p := fun t : Token => !t.isMark '(')) t ht
  have hbehind := List.head?_dropWhile_not (fun t : Token => !t.isMark '(') ts
  -- all that matters is what stands before the first parenthesis, and whether there is one
  generalize ts.takeWhile (!·.isMark '(') = before at hwhole hbefore
  generalize ts.dropWhile (!·.isMark '(') = behind at hwhole hbehind
  subst hwhole
  cases behind with
  | nil =>
    rw [List.append_nil]
    obtain ⟨hpositional, hread⟩ := functionHead_plain hbefore
    rw [hpositional]
    exact .none hread
  | cons paren rest =>
    have hparen : paren.isMark '(' = true := by simpa using hbehind
    rcases List.eq_nil_or_concat before with rfl | ⟨types, name, rfl⟩
    · obtain ⟨hpositional, hread⟩ := functionHead_paren hparen rest
      rw [List.nil_append, hpositional]
      exact .none hread
    · rw [List.concat_eq_append] at hbefore ⊢
      rw [List.append_assoc, List.singleton_append]
      obtain ⟨hplain, hhead⟩ := functionHead_of_paren hbefore hparen rest
      cases hread : FunctionHead.read? (types ++ name :: paren :: rest) with
      | none =>
        rw [hplain hread]
        exact .none hread
      | some h =>
        obtain ⟨hrest, hoverflow, hok⟩ := hhead h hread
        by_cases hdeep : NestsTooDeep '(' ')' 0 rest
        · rw [hoverflow hdeep]
          exact .tooDeep ⟨h, hread, by rwa [hrest]⟩
        · rw [hok hdeep]
          refine .some hread ?_ ?_
          · obtain ⟨types', name', paren', rest', hishead, hts, rfl⟩ :=
              FunctionHead.read?_eq_some_iff.1 hread
            have hfront : types ++ [name] = types' ++ [name'] := by
              rw [← takeWhile_paren hbefore hparen rest, hts, hishead.takeWhile_eq rest']
            obtain ⟨rfl, -⟩ := List.append_inj' hfront rfl
            exact hts
          · rintro ⟨h', hread', hnests⟩
            rw [hread] at hread'
            cases hread'
            rw [hrest] at hnests
            exact hdeep hnests

end Heads

end SketchSense.Model.ByPosition
