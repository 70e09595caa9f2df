import SketchSense.Proofs.Model.Entities
import SketchSense.Proofs.Model.Matching

/-!
# Open blocks

A block whose opening brace is the last token of its file has no inside. It is asked for where the
brace stands outside of every block, behind the head of a function or behind the keyword and the name
of a record.

* `Outside`, that a scan stands outside of every block, with the tokens that it holds there;
* `OpensAtEnd`, tokens that end with such a brace, and `exists_error_iff`: these are the tokens whose
  declarations cannot be read.
-/

namespace SketchSense.Model.ByPosition

/-! ## Points outside of blocks -/

/-- A scan that has read `ts` stands outside of every block, and `head` is what it has read since the
last declaration. -/
inductive Outside : List Token → List Token → Prop
  | start : Outside [] []
  | token {ts head : List Token} {t : Token} (h : Outside ts head) (hbrace : t.isMark '{' = false)
      (hsemicolon : t.isMark ';' = false) : Outside (ts ++ [t]) (head ++ [t])
  | semicolon {ts head : List Token} {t : Token} (h : Outside ts head) (ht : t.isMark ';' = true) :
      Outside (ts ++ [t]) []
  /-- A block with its closing brace: the braces inside are in balance. -/
  | block {ts head inside : List Token} {opening last : Token} (h : Outside ts head)
      (hopening : opening.isMark '{' = true) (hinside : depth? '{' '}' 0 inside = some 0)
      (hlast : last.isMark '}' = true) : Outside (ts ++ opening :: inside ++ [last]) []

/-- A head that starts with the keyword and the name of a record. -/
def OpensRecord (head : List Token) : Prop :=
  ∃ keyword name rest, head = keyword :: name :: rest ∧
    (keyword.isWord "struct" ∨ keyword.isWord "class" ∨ keyword.isWord "union") ∧
    name.word?.isSome

/-- Tokens that end with a brace outside of every block, behind the head of a function or of a
record. -/
def OpensAtEnd (ts : List Token) : Prop :=
  ∃ before head brace, ts = before ++ [brace] ∧ brace.isMark '{' ∧ Outside before head ∧
    ((FunctionHead.read? head).isSome ∨ OpensRecord head)

/-- A step of the cutting outside of records. -/
theorem declarationsFrom_cons (head : List Token) (t : Token) (ts : List Token) :
    declarationsFrom false head (t :: ts) =
      if t.isMark '{' then
        ⟨head, some (Block.ofBrace t ts)⟩ :: declarationsFrom false [] (Block.ofBrace t ts).after
      else if t.isMark ';' then ⟨head, none⟩ :: declarationsFrom false [] ts
      else declarationsFrom false (head ++ [t]) ts := by
  rw [declarationsFrom, if_neg (by simp)]

/-- What a scan declares up to a point outside of blocks does not depend on what follows. -/
theorem Outside.declarationsFrom_append {ts head : List Token} (h : Outside ts head)
    (rest : List Token) :
    ∃ ds, declarationsFrom false [] (ts ++ rest) = ds ++ declarationsFrom false head rest := by
  induction h generalizing rest with
  | start => exact ⟨[], rfl⟩
  | @token ts head t _ hbrace hsemicolon ih =>
    obtain ⟨ds, hds⟩ := ih (t :: rest)
    refine ⟨ds, ?_⟩
    rw [List.append_assoc, List.singleton_append, hds, declarationsFrom_cons,
      if_neg (by simp [hbrace]), if_neg (by simp [hsemicolon])]
  | @semicolon ts head t _ ht ih =>
    have hbrace : t.isMark '{' = false := isMark_eq_false_of_ne ht (by decide)
    obtain ⟨ds, hds⟩ := ih (t :: rest)
    refine ⟨ds ++ [⟨head, none⟩], ?_⟩
    rw [List.append_assoc, List.singleton_append, hds, declarationsFrom_cons,
      if_neg (by simp [hbrace]), if_pos ht, List.append_assoc, List.singleton_append]
  | @block ts head inside opening last _ hopening hinside hlast ih =>
    have hother : last.isMark '{' = false := isMark_eq_false_of_ne hlast (by decide)
    have hclosing : closing? '{' '}' 0 (inside ++ last :: rest) = some (inside, last, rest) :=
      closing?_eq_some_iff.2 ⟨rfl, 0, hinside, depth?_eq_none_iff.2 ⟨rfl, hlast, hother⟩⟩
    obtain ⟨ds, hds⟩ := ih (opening :: (inside ++ last :: rest))
    refine ⟨ds ++ [⟨head, some (Block.ofBrace opening (inside ++ last :: rest))⟩], ?_⟩
    have hwhole : ts ++ opening :: inside ++ [last] ++ rest =
        ts ++ opening :: (inside ++ last :: rest) := by simp
    rw [hwhole, hds, declarationsFrom_cons, if_pos hopening, List.append_assoc,
      List.singleton_append]
    unfold Block.ofBrace
    rw [hclosing]

/-- A block without an inside opens with the last token. -/
theorem ofBrace_inside_error {opening : Token} {ts : List Token} {e : Fault}
    (h : (Block.ofBrace opening ts).inside = .error e) : ts = [] := by
  unfold Block.ofBrace at h
  split at h
  · cases h
  · split at h
    · cases h
    · next hlast => exact List.getLast?_eq_none_iff.1 hlast

/-- A declaration without an inside of its block is the last one, and a scan comes to its brace. -/
theorem outside_of_mem {before head ts : List Token} (h : Outside before head) {x : List Token}
    {block : Block} {e : Fault} (hx : ⟨x, some block⟩ ∈ declarationsFrom false head ts)
    (he : block.inside = .error e) :
    ∃ before' brace, before ++ ts = before' ++ [brace] ∧ brace.isMark '{' = true ∧
      Outside before' x := by
  -- behind the closing brace of a block the scan stands outside again, with less to come
  induction hn : ts.length using Nat.strongRecOn generalizing before head ts with
  | _ n ih =>
    cases ts with
    | nil => simp [declarationsFrom] at hx
    | cons t ts =>
      rw [declarationsFrom_cons] at hx
      by_cases hbrace : t.isMark '{' = true
      · rw [if_pos hbrace] at hx
        rcases List.mem_cons.1 hx with hx | hx
        · cases hx
          rw [ofBrace_inside_error he]
          exact ⟨before, t, rfl, hbrace, h⟩
        · cases hclosing : closing? '{' '}' 0 ts with
          | none =>
            have hafter : (Block.ofBrace t ts).after = [] := by
              unfold Block.ofBrace
              rw [hclosing]
              cases ts.getLast? <;> rfl
            rw [hafter, declarationsFrom] at hx
            cases hx
          | some y =>
            obtain ⟨inside, last, after⟩ := y
            have hafter : (Block.ofBrace t ts).after = after := by
              unfold Block.ofBrace
              rw [hclosing]
            obtain ⟨rfl, m, hinside, hlast⟩ := closing?_eq_some_iff.1 hclosing
            obtain ⟨rfl, hclose, -⟩ := depth?_eq_none_iff.1 hlast
            rw [hafter] at hx
            obtain ⟨before', brace, hwhole, hopens⟩ := ih after.length
              (by simp only [List.length_cons, List.length_append] at hn; omega)
              (h.block hbrace hinside hclose) hx rfl
            exact ⟨before', brace, by rw [← hwhole]; simp, hopens⟩
      · rw [if_neg hbrace] at hx
        have hnext (head' : List Token) (houtside : Outside (before ++ [t]) head')
            (hx : ⟨x, some block⟩ ∈ declarationsFrom false head' ts) :
            ∃ before' brace, before ++ t :: ts = before' ++ [brace] ∧ brace.isMark '{' = true ∧
              Outside before' x := by
          obtain ⟨before', brace, hwhole, hopens⟩ := ih ts.length
            (by rw [← hn, List.length_cons]; exact Nat.lt_succ_self _) houtside hx rfl
          exact ⟨before', brace, by rw [← hwhole]; simp, hopens⟩
        by_cases hsemicolon : t.isMark ';' = true
        · rw [if_pos hsemicolon] at hx
          exact hnext [] (h.semicolon hsemicolon) ((List.mem_cons.1 hx).resolve_left (by simp))
        · rw [if_neg hsemicolon] at hx
          exact hnext _ (h.token (by simpa using hbrace) (by simpa using hsemicolon)) hx

/-! ## Declarations that cannot be read -/

/-- The keywords of the records whose members are read. -/
theorem recordKind?_iff {t : Token} :
    (∃ kind, recordKind? t = some kind ∧ kind ≠ .enumType) ↔
      t.isWord "struct" ∨ t.isWord "class" ∨ t.isWord "union" := by
  have hword (s : String) : t.isWord s = true ↔ t.word? = some s := by
    unfold Token.isWord Token.word?
    cases t.lexeme <;> simp
  rw [hword, hword, hword]
  unfold recordKind?
  split <;> simp_all

theorem record?_error_iff {file : FilePath} {head : List Token} {block : Block} :
    (∃ e, record? file head block = .error e) ↔
      OpensRecord head ∧ ∃ e, block.inside = .error e := by
  have hshort (h : head.length < 2) : ¬ OpensRecord head := by
    rintro ⟨keyword, name, rest, rfl, -⟩
    simp only [List.length_cons] at h
    omega
  match head with
  | [] => simpa [record?] using fun h => absurd h (hshort (by simp))
  | [t] => simpa [record?] using fun h => absurd h (hshort (by simp))
  | keyword :: name :: rest =>
    have hopens : OpensRecord (keyword :: name :: rest) ↔
        (∃ kind, recordKind? keyword = some kind ∧ kind ≠ .enumType) ∧ name.word?.isSome := by
      rw [recordKind?_iff]
      constructor
      · rintro ⟨_, _, _, heq, hkeyword, hname⟩
        cases heq
        exact ⟨hkeyword, hname⟩
      · rintro ⟨hkeyword, hname⟩
        exact ⟨keyword, name, rest, rfl, hkeyword, hname⟩
    rw [hopens]
    unfold record?
    cases hkeyword : recordKind? keyword with
    | none => simp [hkeyword]
    | some kind =>
      cases hname : name.word? with
      | none => simp [hkeyword, hname]
      | some word =>
        by_cases hkind : kind = .enumType
        · simp [hkeyword, hname, hkind]
        · cases hinside : block.inside <;> simp [hkeyword, hname, hkind]

/-- A declaration cannot be read if its block has no inside, and it is asked for. -/
theorem entity?_error_iff {file : FilePath} {d : Declaration} :
    (∃ e, d.entity? file = .error e) ↔ ∃ block, d.block = some block ∧
      ((FunctionHead.read? d.tokens).isSome ∨ OpensRecord d.tokens) ∧
        ∃ e, block.inside = .error e := by
  unfold Declaration.entity?
  cases d.block with
  | none => simp
  | some block =>
    cases hread : FunctionHead.read? d.tokens with
    | none => simpa [hread] using record?_error_iff
    | some head => cases hinside : block.inside <;> simp [hinside]

/-- Some declaration of a file cannot be read if and only if the file ends with an open block. -/
theorem exists_error_iff (file : FilePath) {ts : List Token} :
    (∃ d ∈ declarations false ts, ∃ e, d.entity? file = .error e) ↔ OpensAtEnd ts := by
  constructor
  · rintro ⟨⟨head, block?⟩, hd, herror⟩
    obtain ⟨block, rfl, hopens, e, he⟩ := entity?_error_iff.1 herror
    obtain ⟨before, brace, hwhole, hbrace, houtside⟩ := outside_of_mem .start hd he
    exact ⟨before, head, brace, hwhole, hbrace, houtside, hopens⟩
  · rintro ⟨before, head, brace, rfl, hbrace, houtside, hopens⟩
    obtain ⟨ds, hds⟩ := houtside.declarationsFrom_append [brace]
    refine ⟨⟨head, some (Block.ofBrace brace [])⟩, ?_, entity?_error_iff.2 ⟨_, rfl, hopens, _, rfl⟩⟩
    unfold declarations
    rw [hds, declarationsFrom_cons, if_pos hbrace]
    exact List.mem_append_right _ List.mem_cons_self

end SketchSense.Model.ByPosition
