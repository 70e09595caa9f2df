import SketchSense.Model.Build
import SketchSense.Proofs.ByPosition.Heads
import SketchSense.Proofs.ByPosition.Words

/-!
# Entities by position

What statements and members declare, as a program on positions. Nodes are added one by one at the
end of the list of all nodes, and a node below another one is added to a list that holds that one.

* `Reading`, what has been read so far, with `push_below`;
* `Fitting`, tokens that end at places that fit, with `endOf_eq`;
* `member` and `declaration`, with `member_eq` and `declaration_eq`: they stop at heads that are too
  deep, and nowhere else;
* `members`, the loop over the body of a record, with `members_eq`.
-/

namespace SketchSense.Model.ByPosition

/-! ## Nodes -/

/-- What has been read so far. -/
structure Reading where
  nodes : List Draft := []
  uses : List Use := []
  diagnostics : List RawDiagnostic := []

namespace Reading

/-- Adds a node, at the top or below another one. -/
def push (r : Reading) (n : Named) (parent : Option Nat) : Checked Reading := do
  let nodes := r.nodes ++ [n.draft r.nodes.length parent]
  match parent with
  | none => return { r with nodes }
  | some p => do
    let _ ← entryAt nodes p
    return { r with nodes }

/-- Adds a node, if there is one to add. -/
def push? (r : Reading) (n : Option Named) (parent : Option Nat) : Checked Reading :=
  match n with
  | none => return r
  | some n => r.push n parent

/-- With more nodes below a node. -/
def below (r : Reading) (parent : Nat) (ns : List Named) : Reading :=
  { r with nodes := r.nodes ++ numberBelow parent r.nodes.length ns }

theorem numberBelow_append (parent id : Nat) (ns ms : List Named) :
    numberBelow parent id (ns ++ ms) =
      numberBelow parent id ns ++ numberBelow parent (id + ns.length) ms := by
  induction ns generalizing id with
  | nil => rfl
  | cons n ns ih => simp [numberBelow, ih, Nat.add_assoc, Nat.add_comm 1]

theorem below_below (r : Reading) (parent : Nat) (ns ms : List Named) :
    (r.below parent ns).below parent ms = r.below parent (ns ++ ms) := by
  simp [below, numberBelow_append, length_numberBelow]

theorem below_nil (r : Reading) (parent : Nat) : r.below parent [] = r := by
  simp [below, numberBelow]

theorem length_nodes_below (r : Reading) (parent : Nat) (ns : List Named) :
    (r.below parent ns).nodes.length = r.nodes.length + ns.length := by
  simp [below, length_numberBelow]

/-- A node below one that is there. -/
theorem push_below {r : Reading} {parent : Nat} (h : parent < r.nodes.length) (n : Named) :
    r.push n (some parent) = .ok (r.below parent [n]) := by
  have hentry : entryAt (r.nodes ++ [n.draft r.nodes.length (some parent)]) parent =
      .ok r.nodes[parent] := by
    unfold entryAt
    rw [List.getElem?_append_left h, List.getElem?_eq_getElem h]
  unfold push
  dsimp only
  rw [hentry]
  rfl

theorem push?_below {r : Reading} {parent : Nat} (h : parent < r.nodes.length)
    (n : Option Named) : r.push? n (some parent) = .ok (r.below parent n.toList) := by
  cases n with
  | none => rw [Option.toList_none, below_nil]; rfl
  | some n => exact push_below h n

end Reading

/-! ## Ends -/

/-- The place behind a token. -/
def endOf (file : FilePath) (t : Token) : Checked Location := do
  return ⟨file, t.place.line, ← word (t.place.column + t.length)⟩

/-- The place behind the last token. -/
def endOfLast (file : FilePath) (ts : List Token) : Checked Location :=
  match ts.getLast? with
  | none => return default
  | some t => endOf file t

/-- Tokens that end at places that fit. -/
def Fitting (ts : List Token) : Prop := ∀ t ∈ ts, t.stop.Fits

theorem Fitting.of_subset {ts us : List Token} (h : Fitting us) (hts : ts ⊆ us) : Fitting ts :=
  fun t ht => h t (hts ht)

theorem Fitting.concat {ts : List Token} {t : Token} (h : Fitting ts) (ht : t.stop.Fits) :
    Fitting (ts ++ [t]) := by
  intro u hu
  rcases List.mem_append.1 hu with hu | hu
  · exact h u hu
  · rwa [List.mem_singleton.1 hu]

theorem endOf_eq {t : Token} (h : t.stop.Fits) (file : FilePath) :
    endOf file t = .ok (t.endLocation file) := by
  have hcolumn : t.place.column + t.length < wordLimit := h.column
  unfold endOf
  rw [word_eq hcolumn]
  rfl

theorem endOfLast_eq {ts : List Token} (h : Fitting ts) (file : FilePath) :
    endOfLast file ts = .ok (lastEnd file ts) := by
  unfold endOfLast lastEnd
  cases hlast : ts.getLast? with
  | none => rfl
  | some t => exact endOf_eq (h t (List.mem_of_getLast? hlast)) file

/-! ## Statements -/

/-- The head with its name. -/
def HeadAt.toHead (h : HeadAt) (name : Token) (rest : List Token) : FunctionHead where
  name := name
  resultType := h.resultType
  isStatic := h.isStatic
  isVariadic := h.isVariadic
  parameters := h.parameters
  rest := rest

/-- The tokens before a `=`. -/
def beforeEquals (ts : List Token) : Checked (List Token) :=
  slice ts 0 ((ts.findIdx? (·.isMark '=')).getD ts.length)

/-- A field. -/
def field (file : FilePath) (owner name : String) (t : Token) (stop : Location)
    (types : List Token) : Named :=
  ⟨{ id := 0
     kind := .field
     spelling := name
     displayName := name
     usr := s!"c:@S@{owner}@FI@{name}"
     location := t.location file
     extentEnd := stop
     typeName := typeText types
     isDefinition := true }, t.length⟩

/-- The end of a member: the end of its block, or of its last token. -/
def endOfMember (file : FilePath) (ts : List Token) : Option Location → Checked Location
  | some blockEnd => return blockEnd
  | none => endOfLast file ts

/-- What a member of a record declares. `blockEnd` is the end of the block behind it. -/
def member (file : FilePath) (owner : String) (ts : List Token) (blockEnd : Option Location) :
    Checked (Option Named) := do
  match ← functionHead ts with
  | some head =>
    let name ← entryAt ts head.nameAt
    let stop ← endOfMember file ts blockEnd
    let cursor := (head.toHead name []).cursor file blockEnd.isSome stop
    return some ⟨{ cursor with kind := .method, usr := s!"c:@S@{owner}@F@{name.text}" },
      name.length⟩
  | none =>
    if blockEnd.isSome ∨ ts.length < 2 ∨ mentionsCall ts then return none
    else
      let decl ← beforeEquals ts
      match decl.getLast? with
      | none => return none
      | some t =>
        match t.word? with
        | none => return none
        | some name =>
          if decl.length < 2 then return none
          else
            let stop ← endOf file t
            let n ← less decl.length 1
            let types ← slice decl 0 n
            return some (field file owner name t stop types)

/-- A variable or a typedef. -/
def variableOf (file : FilePath) (name : String) (kind : CursorKind) (usr : String)
    (decl types : List Token) (t : Token) (stop : Location) : Named :=
  ⟨{ id := 0
     kind
     spelling := name
     displayName := name
     usr
     location := t.location file
     extentEnd := stop
     typeName := typeText (types.filter fun t => !t.isStorage && !t.isWord "typedef")
     isDefinition := !decl.any (·.isWord "extern")
     isStatic := decl.any (·.isWord "static") }, t.length⟩

/-- What a statement declares. -/
def declaration (file : FilePath) (ts : List Token) : Checked (Option Named) := do
  match ← functionHead ts with
  | some head =>
    let name ← entryAt ts head.nameAt
    let stop ← endOfLast file ts
    return some ⟨(head.toHead name []).cursor file false stop, name.length⟩
  | none =>
    let decl ← beforeEquals ts
    if decl.length < 2 ∨ mentionsCall decl then return none
    else
      let n ← less decl.length 1
      let t ← entryAt decl n
      match t.word? with
      | none => return none
      | some name =>
        let first ← entryAt decl 0
        match variableKind? first.word? name with
        | none => return none
        | some (kind, usr) =>
          let types ← slice decl 0 n
          let stop ← endOf file t
          return some (variableOf file name kind usr decl types t stop)

section Statements

variable {file : FilePath} {owner : String} {ts : List Token}

theorem beforeEquals_eq (ts : List Token) : beforeEquals ts = .ok (declarator ts) := by
  unfold beforeEquals declarator
  rw [findIdx?_getD]
  exact slice_eq [] _ List.takeWhile_append_dropWhile.symm rfl (Nat.zero_add _).symm

theorem fitting_declarator (h : Fitting ts) : Fitting (declarator ts) :=
  h.of_subset (List.takeWhile_sublist _).subset

/-- A member without a head of a function is a field, or nothing. -/
theorem member_of_none (hread : FunctionHead.read? ts = none) (hhead : functionHead ts = .ok none)
    (hfits : Fitting ts) (block : Option Block) :
    member file owner ts (block.map (·.last.endLocation file)) =
      .ok (member? file owner ⟨ts, block⟩) := by
  unfold member member?
  rw [hhead, hread, ok_bind]
  dsimp only
  rw [Option.isSome_map]
  -- the model asks behind the name for what the program asks before it looks for one
  by_cases hskip : block.isSome = true ∨ ts.length < 2 ∨ mentionsCall ts = true
  · have hnone : block.isSome = true ∨ ts.length < 2 ∨ mentionsCall ts = true ∨
        (declarator ts).length < 2 := hskip.imp_right (·.imp_right .inl)
    rw [if_pos hskip]
    cases (declarator ts).getLast? with
    | none => rfl
    | some t =>
      dsimp only
      cases t.word? with
      | none => rfl
      | some name =>
        dsimp only
        rw [if_pos hnone]
        rfl
  · rw [if_neg hskip, beforeEquals_eq, ok_bind]
    cases hlast : (declarator ts).getLast? with
    | none => rfl
    | some t =>
      obtain ⟨front, hfront⟩ := List.getLast?_eq_some_iff.1 hlast
      obtain ⟨hless, hslice, -⟩ := last_eq hfront
      have hend := endOf_eq (fitting_declarator hfits t (List.mem_of_getLast? hlast)) file
      dsimp only
      cases t.word? with
      | none => rfl
      | some name =>
        dsimp only
        by_cases hshort : (declarator ts).length < 2
        · rw [if_pos hshort, if_pos (.inr (.inr (.inr hshort)))]
          rfl
        · have hfield : ¬ (block.isSome = true ∨ ts.length < 2 ∨ mentionsCall ts = true ∨
              (declarator ts).length < 2) := by
            simp only [not_or] at hskip ⊢
            exact ⟨hskip.1, hskip.2.1, hskip.2.2, hshort⟩
          rw [if_neg hshort, if_neg hfield, hend, ok_bind, hless, ok_bind, hslice, ok_bind, hfront,
            List.dropLast_concat]
          rfl

/-- A member is read without a misstep, unless its head is too deep. -/
theorem member_eq (file : FilePath) (owner : String) (hfits : Fitting ts) (block : Option Block) :
    member file owner ts (block.map (·.last.endLocation file)) =
      overflowIf (HeadTooDeep ts) (.ok (member? file owner ⟨ts, block⟩)) := by
  have hreads := functionHead_reads ts
  generalize hhead : functionHead ts = r at hreads
  cases hreads with
  | tooDeep hdeep =>
    unfold member
    rw [overflowIf_of hdeep, hhead]
    rfl
  | none hread =>
    rw [overflowIf_of_not (not_headTooDeep hread)]
    exact member_of_none hread hhead hfits block
  | @some types h hread hwhole hshallow =>
    have hname : entryAt ts types.length = .ok h.name := entryAt_eq hwhole rfl
    unfold member member?
    rw [overflowIf_of_not hshallow, hhead, hread, ok_bind]
    dsimp only
    rw [hname, ok_bind]
    cases block with
    | none =>
      unfold endOfMember
      rw [Option.map_none, endOfLast_eq hfits, ok_bind]
      rfl
    | some block => rfl

/-- A statement without a head of a function is a variable or a typedef, or nothing. -/
theorem declaration_of_none (hread : FunctionHead.read? ts = none)
    (hhead : functionHead ts = .ok none) (hfits : Fitting ts) :
    declaration file ts = .ok ((statement? file ts).map (·.top)) := by
  unfold declaration statement?
  rw [hhead, hread, ok_bind]
  dsimp only
  rw [beforeEquals_eq, ok_bind]
  -- the model starts from the last token; the program gets there by the length
  rcases List.eq_nil_or_concat (declarator ts) with hnil | ⟨front, t, hfront⟩
  · rw [hnil]
    rfl
  rw [List.concat_eq_append] at hfront
  obtain ⟨hless, hslice, hentry⟩ := last_eq hfront
  have hlast : (declarator ts).getLast? = some t := by rw [hfront, List.getLast?_concat]
  have hend := endOf_eq (fitting_declarator hfits t (List.mem_of_getLast? hlast)) file
  rw [hlast]
  dsimp only
  by_cases hskip : (declarator ts).length < 2 ∨ mentionsCall (declarator ts) = true
  · rw [if_pos hskip]
    cases t.word? with
    | none => rfl
    | some name =>
      dsimp only
      rw [if_pos hskip]
      rfl
  · rw [if_neg hskip, hless, ok_bind, hentry, ok_bind]
    cases t.word? with
    | none => rfl
    | some name =>
      obtain ⟨first, rest, hfirst⟩ : ∃ first rest, declarator ts = first :: rest :=
        List.exists_cons_of_ne_nil (by simp [hfront])
      have hstart : entryAt (declarator ts) 0 = .ok first := by
        rw [hfirst]
        rfl
      have hhead? : (declarator ts).head? = some first := by rw [hfirst, List.head?_cons]
      dsimp only
      rw [hstart, ok_bind, if_neg hskip, hhead?, Option.bind_some]
      cases variableKind? first.word? name with
      | none => rfl
      | some x =>
        dsimp only
        rw [hslice, ok_bind, hend, ok_bind, hfront, List.dropLast_concat]
        rfl

/-- A statement is read without a misstep, unless its head is too deep. -/
theorem declaration_eq (hfits : Fitting ts) : declaration file ts =
    overflowIf (HeadTooDeep ts) (.ok ((statement? file ts).map (·.top))) := by
  have hreads := functionHead_reads ts
  generalize hhead : functionHead ts = r at hreads
  cases hreads with
  | tooDeep hdeep =>
    unfold declaration
    rw [overflowIf_of hdeep, hhead]
    rfl
  | none hread =>
    rw [overflowIf_of_not (not_headTooDeep hread)]
    exact declaration_of_none hread hhead hfits
  | @some types h hread hwhole hshallow =>
    have hname : entryAt ts types.length = .ok h.name := entryAt_eq hwhole rfl
    unfold declaration statement?
    rw [overflowIf_of_not hshallow, hhead, hread, ok_bind]
    dsimp only
    rw [hname, ok_bind, endOfLast_eq hfits, ok_bind]
    rfl

end Statements

/-! ## Members -/

/-- A walk over tokens between two rounds: the tokens since the last declaration, and what has been
read. -/
structure Walk where
  position : Nat := 0
  statement : List Token := []
  reading : Reading

/-- A round over the body of the record with the number `owner`. Blocks are passed over with the
semicolons behind them. -/
def Walk.recordRound (file : FilePath) (owner : Nat) (name : String) (body : List Token) (s : Walk) :
    Checked Walk := do
  let t ← entryAt body s.position
  if t.isMark ':' ∧ isAccessLabel s.statement then
    return { s with position := s.position + 1, statement := [] }
  else if t.isMark '{' then
    let close ← matching body s.position '{' '}'
    let last ← entryAt body close
    let stop ← endOf file last
    let n ← member file name s.statement (some stop)
    let reading ← s.reading.push? n (some owner)
    let semicolons := (body.drop (close + 1)).takeWhile (·.isMark ';')
    return ⟨close + 1 + semicolons.length, [], reading⟩
  else if t.isMark ';' then
    let n ← member file name s.statement none
    let reading ← s.reading.push? n (some owner)
    return ⟨s.position + 1, [], reading⟩
  else return { s with position := s.position + 1, statement := s.statement ++ [t] }

/-- The members of a record. -/
def members (file : FilePath) (owner : Nat) (name : String) (body : List Token) (r : Reading) :
    Checked Reading := do
  let s ← loop body.length Walk.position (Walk.recordRound file owner name body) { reading := r }
  return s.reading

section Members

variable {file : FilePath} {owner : Nat} {name : String} {body : List Token}

/-- Semicolons alone are empty members. -/
theorem exists_semicolons (ts : List Token) :
    ∃ ds, declarationsFrom true [] ts = ds ++ declarationsFrom true [] (ts.dropWhile (·.isMark ';')) ∧
      ∀ d ∈ ds, d = ⟨[], none⟩ := by
  induction ts with
  | nil => exact ⟨[], rfl, by simp⟩
  | cons t ts ih =>
    by_cases ht : t.isMark ';' = true
    · obtain ⟨ds, hds, hempty⟩ := ih
      have hbrace : t.isMark '{' = false := isMark_eq_false_of_ne ht (by decide)
      rw [List.dropWhile_cons_of_pos (p := fun t : Token => t.isMark ';') ht, declarationsFrom,
        if_neg (by simp [isAccessLabel]), if_neg (by simp [hbrace]), if_pos ht, hds]
      exact ⟨⟨[], none⟩ :: ds, rfl, List.forall_mem_cons.2 ⟨rfl, hempty⟩⟩
    · rw [List.dropWhile_cons_of_neg (p := fun t : Token => t.isMark ';') ht]
      exact ⟨[], rfl, by simp⟩

theorem not_headTooDeep_nil : ¬HeadTooDeep [] := not_headTooDeep rfl

/-- What a round leaves: the declarations that it reads and those that are still to be read are the
ones that were to be read before. -/
structure Walk.Advances (file : FilePath) (owner : Nat) (name : String) (body : List Token)
    (s s' : Walk) (ts : List Token) : Prop where
  moves : s.position < s'.position
  fits : Fitting s'.statement
  reads : ∃ ds,
    declarationsFrom true s.statement ts =
        ds ++ declarationsFrom true s'.statement (body.drop s'.position) ∧
      (∀ d ∈ ds, ¬HeadTooDeep d.tokens) ∧
      s'.reading = s.reading.below owner (ds.filterMap (member? file name))

/-- A round over the body of a record that goes on, unless it stops at a head that is too deep. -/
def Walk.AdvancesOrStops (file : FilePath) (owner : Nat) (name : String) (body : List Token)
    (s : Walk) (ts : List Token) (round : Checked Walk) : Prop :=
  (round = .error .overflow ∧
      ∃ d ∈ declarationsFrom true s.statement ts, HeadTooDeep d.tokens) ∨
    ∃ s', round = .ok s' ∧ Walk.Advances file owner name body s s' ts

variable {before rest ts : List Token} {t : Token} {s : Walk}

/-- A round that reads a declaration and goes on behind it, where only empty ones are passed over. -/
theorem advances_declaration {d : Declaration} {position : Nat}
    (howner : owner < s.reading.nodes.length) (hmoves : s.position < position)
    (hcut : declarationsFrom true s.statement ts = d :: declarationsFrom true [] rest)
    (hpassed : ∃ ds, declarationsFrom true [] rest =
      ds ++ declarationsFrom true [] (body.drop position) ∧ ∀ e ∈ ds, e = ⟨[], none⟩) :
    Walk.AdvancesOrStops file owner name body s ts
      (overflowIf (HeadTooDeep d.tokens) (.ok (member? file name d)) >>= fun n =>
        s.reading.push? n (some owner) >>= fun reading => .ok ⟨position, [], reading⟩) := by
  by_cases hdeep : HeadTooDeep d.tokens
  · rw [overflowIf_of hdeep]
    exact .inl ⟨rfl, d, hcut ▸ List.mem_cons_self, hdeep⟩
  · obtain ⟨ds, hds, hempty⟩ := hpassed
    have hnone : ds.filterMap (member? file name) = [] := by
      refine List.filterMap_eq_nil_iff.2 fun e he => ?_
      rw [hempty e he]
      rfl
    rw [overflowIf_of_not hdeep, ok_bind, Reading.push?_below howner, ok_bind]
    refine .inr ⟨_, rfl, hmoves, by simp [Fitting], d :: ds, ?_, ?_, ?_⟩
    · rw [hcut, hds, List.cons_append]
    · refine List.forall_mem_cons.2 ⟨hdeep, fun e he => ?_⟩
      rw [hempty e he]
      exact not_headTooDeep_nil
    · rw [List.filterMap_cons, hnone]
      cases member? file name d <;> rfl

/-- A round over the body of a record goes on, or it stops at a head that is too deep. -/
theorem round_members (file : FilePath) (name : String) (hts : body = before ++ t :: ts)
    (hi : s.position = before.length) (hbody : Fitting body) (hshallow : Shallow body)
    (hstatement : Fitting s.statement) (howner : owner < s.reading.nodes.length) :
    Walk.AdvancesOrStops file owner name body s (t :: ts) (s.recordRound file owner name body) := by
  have hnext := drop_succ_eq hts hi
  unfold Walk.recordRound
  rw [entryAt_eq hts hi, ok_bind]
  by_cases hlabel : t.isMark ':' = true ∧ isAccessLabel s.statement = true
  · rw [if_pos hlabel]
    refine .inr ⟨_, rfl, Nat.lt_succ_self _, by simp [Fitting], [], ?_, by simp,
      (Reading.below_nil _ _).symm⟩
    rw [declarationsFrom, if_pos ⟨rfl, hlabel⟩, hnext]
    rfl
  rw [if_neg hlabel]
  by_cases hbrace : t.isMark '{' = true
  · have hcut : declarationsFrom true s.statement (t :: ts) =
        ⟨s.statement, some (Block.ofBrace t ts)⟩ ::
          declarationsFrom true [] (Block.ofBrace t ts).after := by
      rw [declarationsFrom, if_neg fun h => hlabel h.2, if_pos hbrace]
    obtain ⟨close, hclose, hcloses⟩ :=
      matching_closes hts hi hbrace (hshallow before t ts hts hbrace)
    have hend := endOf_eq (hbody _ (mem_of_entryAt hcloses.last)) file
    have hmember := member_eq file name hstatement (some (Block.ofBrace t ts))
    rw [Option.map_some] at hmember
    rw [if_pos hbrace, hclose, ok_bind, hcloses.last, ok_bind, hend, ok_bind, hmember]
    have hle := hcloses.le
    refine advances_declaration howner (by omega) hcut ?_
    -- the semicolons that are passed over behind the block declare nothing
    rw [← List.drop_drop, hcloses.after, drop_length_takeWhile]
    exact exists_semicolons _
  rw [if_neg hbrace]
  by_cases hsemicolon : t.isMark ';' = true
  · have hcut : declarationsFrom true s.statement (t :: ts) =
        ⟨s.statement, none⟩ :: declarationsFrom true [] ts := by
      rw [declarationsFrom, if_neg fun h => hlabel h.2, if_neg hbrace, if_pos hsemicolon]
    have hmember := member_eq file name hstatement none
    rw [Option.map_none] at hmember
    rw [if_pos hsemicolon, hmember]
    refine advances_declaration howner (Nat.lt_succ_self _) hcut ⟨[], ?_, by simp⟩
    rw [hnext]
    rfl
  · rw [if_neg hsemicolon]
    refine .inr ⟨_, rfl, Nat.lt_succ_self _, ?_, [], ?_, by simp, (Reading.below_nil _ _).symm⟩
    · exact hstatement.concat (hbody t (by simp [hts]))
    · rw [declarationsFrom, if_neg fun h => hlabel h.2, if_neg hbrace, if_neg hsemicolon, hnext]
      rfl

/-- From any round on the loop adds the members that are left, unless a head of theirs is too deep. -/
theorem loop_members (file : FilePath) (name : String) (hbody : Fitting body)
    (hshallow : Shallow body) (hstatement : Fitting s.statement)
    (howner : owner < s.reading.nodes.length) :
    (loop body.length Walk.position (Walk.recordRound file owner name body) s >>=
        fun s => return s.reading) =
      overflowIf
        (∃ d ∈ declarationsFrom true s.statement (body.drop s.position), HeadTooDeep d.tokens)
        (.ok (s.reading.below owner ((declarationsFrom true s.statement
          (body.drop s.position)).filterMap (member? file name)))) := by
  induction hn : body.length - s.position using Nat.strongRecOn generalizing s with
  | _ n ih =>
    by_cases hlt : s.position < body.length
    · obtain ⟨before, t, hts, hi, hcons⟩ := exists_entry hlt
      have hround := round_members file name hts hi hbody hshallow hstatement howner
      rw [← hcons] at hround
      rcases hround with ⟨hround, hdeep⟩ | ⟨s', hround, hmoves, hfits, ds, hds, hread, hreading⟩
      · rw [loop_misstep hlt hround, overflowIf_of hdeep]
        rfl
      · -- what the round has read is not too deep, so only the rest decides
        have hrest : (∃ d ∈ declarationsFrom true s.statement (body.drop s.position),
            HeadTooDeep d.tokens) ↔ ∃ d ∈ declarationsFrom true s'.statement
              (body.drop s'.position), HeadTooDeep d.tokens := by
          rw [hds]
          constructor
          · rintro ⟨d, hd, hdeep⟩
            exact ⟨d, (List.mem_append.1 hd).resolve_left fun hmem => hread d hmem hdeep, hdeep⟩
          · rintro ⟨d, hd, hdeep⟩
            exact ⟨d, List.mem_append_right _ hd, hdeep⟩
        rw [loop_round hlt hround hmoves, ih (body.length - s'.position) (by omega) hfits
          (by rw [hreading, Reading.length_nodes_below]; omega) rfl, hrest, hreading,
          Reading.below_below, hds, List.filterMap_append]
    · rw [loop_done (Nat.le_of_not_lt hlt), List.drop_eq_nil_of_le (Nat.le_of_not_lt hlt),
        declarationsFrom, List.filterMap_nil, Reading.below_nil, overflowIf_of_not (by simp)]
      rfl

/-- The members of a record are read without a misstep, unless a head of theirs is too deep. -/
theorem members_eq (hbody : Fitting body) (hshallow : Shallow body) {r : Reading}
    (howner : owner < r.nodes.length) :
    members file owner name body r =
      overflowIf (∃ d ∈ declarations true body, HeadTooDeep d.tokens)
        (.ok (r.below owner ((declarations true body).filterMap (member? file name)))) :=
  loop_members file name hbody hshallow (s := { reading := r }) (by simp [Fitting]) howner

end Members

end SketchSense.Model.ByPosition
