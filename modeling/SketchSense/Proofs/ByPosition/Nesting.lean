import SketchSense.Proofs.ByPosition.Operations
import SketchSense.Proofs.Model.Matching

/-!
# Matching by position

Matching marks as a program on positions. The marks that are open are counted in a number with a sign,
and the search stops where this gets too large. A mark that nothing matches has a fallback for the
position of its match.

* `NestsTooDeep`, tokens with too many open marks, and `matchFrom_eq`, that the search finds the match
  in all others;
* `matching`, the position of a match, with `matching_closes`, that it closes the block of a brace;
* `Shallow`, tokens whose braces can all be counted, with `shallow_of_inside`: in a block that can be
  matched every other block can.
-/

namespace SketchSense.Model.ByPosition

/-! ## Depth -/

/-- Behind a first mark and `depth` more, so many are open somewhere in `ts`, before the first one is
closed, that their count is not a number with a sign. -/
def NestsTooDeep (opening close : Char) (depth : Nat) (ts : List Token) : Prop :=
  ∃ front n, front <+: ts ∧ depth? opening close depth front = some n ∧ signLimit ≤ n + 1

section Depth

variable {opening close : Char} {t : Token} {ts us : List Token} {depth n : Nat}

theorem nestsTooDeep_nil : NestsTooDeep opening close depth [] ↔ signLimit ≤ depth + 1 := by
  constructor
  · rintro ⟨front, n, hfront, hn, hdeep⟩
    rw [List.prefix_nil] at hfront
    subst hfront
    cases hn
    exact hdeep
  · exact fun hdeep => ⟨[], depth, List.prefix_rfl, rfl, hdeep⟩

theorem nestsTooDeep_cons : NestsTooDeep opening close depth (t :: ts) ↔
    signLimit ≤ depth + 1 ∨
      ∃ n, t.depth? opening close depth = some n ∧ NestsTooDeep opening close n ts := by
  constructor
  · rintro ⟨front, n, hfront, hn, hdeep⟩
    rcases List.prefix_cons_iff.1 hfront with rfl | ⟨front, rfl, hrest⟩
    · cases hn
      exact .inl hdeep
    · rw [depth?_cons] at hn
      obtain ⟨m, hm, hn⟩ := Option.bind_eq_some_iff.1 hn
      exact .inr ⟨m, hm, front, n, hrest, hn, hdeep⟩
  · rintro (hdeep | ⟨m, hm, front, n, hfront, hn, hdeep⟩)
    · exact ⟨[], depth, List.nil_prefix, rfl, hdeep⟩
    · refine ⟨t :: front, n, (List.prefix_cons_inj t).2 hfront, ?_, hdeep⟩
      rw [depth?_cons, hm]
      exact hn

theorem lt_of_not_nestsTooDeep (h : ¬NestsTooDeep opening close depth ts) : depth + 1 < signLimit :=
  Nat.lt_of_not_le fun hdeep => h ⟨[], depth, List.nil_prefix, rfl, hdeep⟩

theorem NestsTooDeep.of_front (h : NestsTooDeep opening close depth ts) (hts : ts <+: us) :
    NestsTooDeep opening close depth us := by
  obtain ⟨front, n, hfront, hn, hdeep⟩ := h
  exact ⟨front, n, hfront.trans hts, hn, hdeep⟩

theorem depth?_le (h : t.depth? opening close depth = some n) : n ≤ depth + 1 := by
  unfold Token.depth? at h
  split at h
  · cases h
    exact Nat.le_refl _
  · split at h
    · cases depth with
      | zero => cases h
      | succ depth =>
        cases h
        omega
    · cases h
      exact Nat.le_succ _

/-- A token opens at most one mark. -/
theorem NestsTooDeep.le_length (h : NestsTooDeep opening close depth ts) :
    signLimit ≤ depth + ts.length + 1 := by
  induction ts generalizing depth with
  | nil => exact nestsTooDeep_nil.1 h
  | cons t ts ih =>
    rcases nestsTooDeep_cons.1 h with hdeep | ⟨n, hn, hdeep⟩
    · omega
    · have hle := depth?_le hn
      have hlength := ih hdeep
      rw [List.length_cons]
      omega

/-- Marks that are open before stay open. -/
theorem depth?_add (k : Nat) (h : depth? opening close depth ts = some n) :
    depth? opening close (depth + k) ts = some (n + k) := by
  induction ts generalizing depth with
  | nil =>
    cases h
    rfl
  | cons t ts ih =>
    rw [depth?_cons] at h ⊢
    obtain ⟨m, hm, hts⟩ := Option.bind_eq_some_iff.1 h
    have hmore : t.depth? opening close (depth + k) = some (m + k) := by
      unfold Token.depth? at hm ⊢
      split at hm
      · cases hm
        rw [if_pos ‹_›, Nat.add_right_comm]
      · rw [if_neg ‹_›]
        split at hm
        · rw [if_pos ‹_›]
          cases depth with
          | zero => cases hm
          | succ depth =>
            cases hm
            rw [Nat.add_right_comm]
        · cases hm
          rw [if_neg ‹_›]
    rw [hmore]
    exact ih hts

/-- What nests too deep does so behind more tokens that leave their first mark open. -/
theorem NestsTooDeep.behind (h : NestsTooDeep opening close 0 us)
    (hts : depth? opening close depth ts = some n) :
    NestsTooDeep opening close depth (ts ++ us) := by
  obtain ⟨front, m, hfront, hm, hdeep⟩ := h
  have hmore := depth?_add n hm
  rw [Nat.zero_add] at hmore
  refine ⟨ts ++ front, m + n, (List.prefix_append_right_inj ts).2 hfront, ?_, by omega⟩
  rw [depth?_append, hts]
  exact hmore

end Depth

/-! ## Matching -/

/-- Searches for the mark that closes the first one. `ts` stands at position `i`, and `depth` marks
are open there. -/
def matchFrom (opening close : Char) (i : Nat) (depth : Int) : List Token → Checked (Option Nat)
  | [] => return none
  | t :: ts =>
    if t.isMark opening then do
      let depth ← signed (depth + 1)
      matchFrom opening close (i + 1) depth ts
    else if t.isMark close then do
      let depth ← signed (depth - 1)
      if depth = 0 then return some i else matchFrom opening close (i + 1) depth ts
    else matchFrom opening close (i + 1) depth ts

/-- The position of the mark that closes the one at position `i`; if nothing does, the last
position. -/
def matching (ts : List Token) (i : Nat) (opening close : Char) : Checked Nat := do
  let found ← matchFrom opening close i 0 (ts.drop i)
  return found.getD (ts.length - 1)

section Matching

variable {opening close : Char} {t : Token} {ts : List Token} {depth : Nat}

theorem signed_of_lt {n : Nat} (h : n < signLimit) : signed n = .ok (n : Int) := by
  rw [signed_eq, if_pos h]

/-- A step of the search, behind the first mark. -/
theorem matchFrom_cons (i : Nat) (h : depth + 1 < signLimit) :
    matchFrom opening close i (depth + 1 : Nat) (t :: ts) =
      match t.depth? opening close depth with
      | none => .ok (some i)
      | some n => signed (n + 1 : Nat) >>= fun d => matchFrom opening close (i + 1) d ts := by
  conv =>
    lhs
    unfold matchFrom
  unfold Token.depth?
  by_cases hopening : t.isMark opening = true
  · rw [if_pos hopening, if_pos hopening]
    rfl
  · rw [if_neg hopening, if_neg hopening]
    by_cases hclose : t.isMark close = true
    · have hpred : ((depth + 1 : Nat) : Int) - 1 = (depth : Int) := by omega
      rw [if_pos hclose, if_pos hclose, hpred, signed_of_lt (by omega), ok_bind]
      cases depth with
      | zero => rfl
      | succ n =>
        dsimp only
        rw [if_neg (by omega), signed_of_lt (by omega), ok_bind]
    · rw [if_neg hclose, if_neg hclose]
      dsimp only
      rw [signed_of_lt h, ok_bind]

/-- The search finds the match, unless too many marks are open before. -/
theorem matchFrom_eq (i : Nat) (h : depth + 1 < signLimit) :
    (NestsTooDeep opening close depth ts →
        matchFrom opening close i (depth + 1 : Nat) ts = .error .overflow) ∧
      (¬NestsTooDeep opening close depth ts → matchFrom opening close i (depth + 1 : Nat) ts =
        .ok ((closing? opening close depth ts).map fun x => i + x.1.length)) := by
  induction ts generalizing i depth with
  | nil =>
    rw [nestsTooDeep_nil]
    exact ⟨fun hdeep => by omega, fun _ => rfl⟩
  | cons t ts ih =>
    rw [nestsTooDeep_cons, matchFrom_cons i h, closing?_cons]
    cases ht : t.depth? opening close depth with
    | none =>
      refine ⟨?_, fun _ => rfl⟩
      rintro (hdeep | ⟨n, hn, -⟩)
      · omega
      · cases hn
    | some n =>
      dsimp only
      by_cases hn : n + 1 < signLimit
      · obtain ⟨hoverflow, hfound⟩ := ih (i + 1) hn
        rw [signed_of_lt hn, ok_bind]
        constructor
        · rintro (hdeep | ⟨m, hm, hdeep⟩)
          · omega
          · cases hm
            exact hoverflow hdeep
        · intro hshallow
          rw [hfound fun hdeep => hshallow (.inr ⟨n, rfl, hdeep⟩), Option.map_map]
          refine congrArg (fun f => Except.ok (Option.map f (closing? opening close n ts))) ?_
          funext x
          simp only [Function.comp_apply, List.length_cons]
          omega
      · have hdeep : NestsTooDeep opening close n ts :=
          ⟨[], n, List.nil_prefix, rfl, Nat.le_of_not_lt hn⟩
        rw [signed_eq, if_neg hn, error_bind]
        exact ⟨fun _ => rfl, fun hshallow => absurd (.inr ⟨n, rfl, hdeep⟩) hshallow⟩

/-- The search from an opening mark on. -/
theorem matchFrom_opening (i : Nat) (ht : t.isMark opening = true) :
    (NestsTooDeep opening close 0 ts → matchFrom opening close i 0 (t :: ts) = .error .overflow) ∧
      (¬NestsTooDeep opening close 0 ts → matchFrom opening close i 0 (t :: ts) =
        .ok ((closing? opening close 0 ts).map fun x => i + 1 + x.1.length)) := by
  rw [matchFrom, if_pos ht]
  exact matchFrom_eq (i + 1) (by decide : 0 + 1 < signLimit)

/-- A block from position `i` to position `close`: it opens and it closes there, what follows it stands
behind, and the inside between. -/
structure Closes (ts : List Token) (i close : Nat) (block : Block) : Prop where
  opening : entryAt ts i = .ok block.opening
  last : entryAt ts close = .ok block.last
  after : ts.drop (close + 1) = block.after
  le : i ≤ close
  inside : slice ts (i + 1) close = block.inside.mapError fun _ => .slice

variable {before rest : List Token} {i : Nat}

/-- The position that is found for a brace closes its block. There is an inside unless the brace is
the last token. -/
theorem matching_closes (hts : ts = before ++ t :: rest) (hi : i = before.length)
    (ht : t.isMark '{' = true) (hshallow : ¬NestsTooDeep '{' '}' 0 rest) :
    ∃ close, matching ts i '{' '}' = .ok close ∧ Closes ts i close (Block.ofBrace t rest) := by
  have hdrop : ts.drop i = t :: rest := by rw [hts, hi, List.drop_left]
  have hcount : ts.length = i + 1 + rest.length := by
    rw [hts, hi, List.length_append, List.length_cons]
    omega
  have hopening : entryAt ts i = .ok t := entryAt_eq hts hi
  unfold matching Block.ofBrace
  rw [hdrop, (matchFrom_opening i ht).2 hshallow, ok_bind]
  refine ⟨_, rfl, ?_⟩
  cases hclosing : closing? '{' '}' 0 rest with
  | some x =>
    obtain ⟨inside, last, after⟩ := x
    obtain ⟨rfl, -⟩ := closing?_eq_some_iff.1 hclosing
    have hlast : ts = (before ++ t :: inside) ++ last :: after := by simp [hts]
    have hclose : i + 1 + inside.length = (before ++ t :: inside).length := by
      simp [hi]
      omega
    dsimp only [Option.map_some, Option.getD_some]
    refine ⟨hopening, entryAt_eq hlast hclose, drop_succ_eq hlast hclose, by omega, ?_⟩
    exact slice_eq (before ++ [t]) (last :: after) (by simp [hts]) (by simp [hi]) rfl
  | none =>
    -- nothing matches, and the last token is taken; that can be the brace itself
    dsimp only [Option.map_none, Option.getD_none]
    rcases List.eq_nil_or_concat rest with rfl | ⟨inside, last, rfl⟩
    · rw [List.getLast?_nil]
      have hclose : ts.length - 1 = i := by rw [hcount]; rfl
      rw [hclose]
      refine ⟨hopening, hopening, ?_, Nat.le_refl i, ?_⟩
      · exact List.drop_eq_nil_of_le (Nat.le_of_eq hcount)
      · unfold slice
        rw [if_neg (by omega)]
        rfl
    · rw [List.concat_eq_append] at hts hcount ⊢
      rw [List.getLast?_concat, List.dropLast_concat]
      have hend : ts.length - 1 = i + 1 + inside.length := by
        rw [hcount, List.length_append, List.length_singleton]
        omega
      have hlast : ts = (before ++ t :: inside) ++ last :: [] := by simp [hts]
      have hclose : i + 1 + inside.length = (before ++ t :: inside).length := by
        simp [hi]
        omega
      rw [hend]
      refine ⟨hopening, entryAt_eq hlast hclose, drop_succ_eq hlast hclose, by omega, ?_⟩
      exact slice_eq (before ++ [t]) [last] (by simp [hts]) (by simp [hi]) rfl

theorem matching_overflow (hts : ts = before ++ t :: rest) (hi : i = before.length)
    (ht : t.isMark '{' = true) (hdeep : NestsTooDeep '{' '}' 0 rest) :
    matching ts i '{' '}' = .error .overflow := by
  have hdrop : ts.drop i = t :: rest := by rw [hts, hi, List.drop_left]
  unfold matching
  rw [hdrop, (matchFrom_opening i ht).1 hdeep]
  rfl

end Matching

/-! ## Blocks -/

/-- A block with too many open braces somewhere inside. Its last token may be one of them. -/
def BlockTooDeep (block : Block) : Prop :=
  ∃ inside, block.inside = .ok inside ∧ NestsTooDeep '{' '}' 0 (inside ++ [block.last])

/-- Tokens whose braces can all be matched. -/
def Shallow (ts : List Token) : Prop :=
  ∀ before brace behind, ts = before ++ brace :: behind → brace.isMark '{' = true →
    ¬NestsTooDeep '{' '}' 0 behind

section Blocks

variable {t : Token} {ts inside : List Token}

/-- Whether a block is too deep does not depend on what follows it. -/
theorem blockTooDeep_iff : BlockTooDeep (Block.ofBrace t ts) ↔ NestsTooDeep '{' '}' 0 ts := by
  unfold BlockTooDeep Block.ofBrace
  cases hclosing : closing? '{' '}' 0 ts with
  | some x =>
    obtain ⟨inside, last, after⟩ := x
    obtain ⟨rfl, n, hinside, hlast⟩ := closing?_eq_some_iff.1 hclosing
    constructor
    · rintro ⟨_, ⟨⟩, hdeep⟩
      exact hdeep.of_front ⟨after, by simp⟩
    · rintro ⟨front, m, ⟨behind, hfront⟩, hm, hdeep⟩
      refine ⟨inside, rfl, front, m, ?_, hm, hdeep⟩
      -- nothing is open behind the last token, so the front ends before
      rcases List.append_eq_append_iff.1 hfront with ⟨more, rfl, -⟩ | ⟨more, rfl, hmore⟩
      · rw [List.append_assoc]
        exact List.prefix_append _ _
      · cases more with
        | nil =>
          rw [List.append_nil]
          exact List.prefix_append _ _
        | cons u us =>
          cases hmore
          rw [depth?_append, hinside, Option.bind_some, depth?_cons, hlast] at hm
          cases hm
  | none =>
    rcases List.eq_nil_or_concat ts with rfl | ⟨init, last, rfl⟩
    · rw [nestsTooDeep_nil]
      constructor
      · rintro ⟨_, ⟨⟩, -⟩
      · exact fun hdeep => absurd hdeep (by decide)
    · rw [List.concat_eq_append, List.getLast?_concat, List.dropLast_concat]
      constructor
      · rintro ⟨_, ⟨⟩, hdeep⟩
        exact hdeep
      · exact fun hdeep => ⟨init, rfl, hdeep⟩

/-- Some tokens at the front of the inside of a block leave it open. -/
theorem exists_depth?_of_inside (hinside : (Block.ofBrace t ts).inside = .ok inside) :
    inside <+: ts ∧ ∃ n, depth? '{' '}' 0 inside = some n := by
  unfold Block.ofBrace at hinside
  cases hclosing : closing? '{' '}' 0 ts with
  | some x =>
    rw [hclosing] at hinside
    cases hinside
    obtain ⟨rfl, n, hn, -⟩ := closing?_eq_some_iff.1 hclosing
    exact ⟨List.prefix_append _ _, n, hn⟩
  | none =>
    rw [hclosing] at hinside
    obtain ⟨n, hn⟩ := closing?_eq_none_iff.1 hclosing
    rcases List.eq_nil_or_concat ts with rfl | ⟨init, last, rfl⟩
    · cases hinside
    · rw [List.concat_eq_append] at hinside hn ⊢
      rw [List.getLast?_concat, List.dropLast_concat] at hinside
      cases hinside
      rw [depth?_append] at hn
      obtain ⟨m, hm, -⟩ := Option.bind_eq_some_iff.1 hn
      exact ⟨List.prefix_append _ _, m, hm⟩

/-- In a block that can be matched all blocks can. -/
theorem shallow_of_inside (hinside : (Block.ofBrace t ts).inside = .ok inside)
    (hshallow : ¬NestsTooDeep '{' '}' 0 ts) : Shallow inside := by
  obtain ⟨hfront, n, hn⟩ := exists_depth?_of_inside hinside
  rintro before brace behind rfl - hdeep
  have hwhole : before ++ brace :: behind = (before ++ [brace]) ++ behind := by simp
  rw [hwhole, depth?_append] at hn
  obtain ⟨m, hm, -⟩ := Option.bind_eq_some_iff.1 hn
  exact hshallow ((hwhole ▸ hdeep.behind hm).of_front hfront)

end Blocks

end SketchSense.Model.ByPosition
