import SketchSense.Proofs.ByPosition.Entities
import SketchSense.Proofs.ByPosition.OpenBlock
import SketchSense.Proofs.Model.Numbering

/-!
# Blocks by position

What heads with a block declare, as a program on positions. A brace is matched first and then looked
at, so a brace that is the last token is its own match, and the slice of its inside ends before it
starts.

* `openBrace`, what a head with a block declares;
* `TooDeep`, declarations that nest too deep, and `readDeclaration`, what is read of a declaration;
* `openBrace_eq`: a head with a block that can be matched adds what is read of it.
-/

namespace SketchSense.Model.ByPosition

/-! ## Entities -/

namespace Reading

/-- With more entities. -/
def addAll (r : Reading) (es : List Entity) : Reading :=
  { r with
    nodes := r.nodes ++ numberAll r.nodes.length es
    uses := r.uses ++ usesOf r.nodes.length es }

theorem addAll_nil (r : Reading) : r.addAll [] = r := by simp [addAll, numberAll, usesOf]

theorem addAll_addAll (r : Reading) (es fs : List Entity) :
    (r.addAll es).addAll fs = r.addAll (es ++ fs) := by
  simp [addAll, numberAll_append, usesOf_append]

/-- With what a declaration makes, if that is read. -/
def addFound (r : Reading) (x : Checked (Option Entity)) : Checked Reading :=
  x.map fun e => r.addAll e.toList

/-- With what declarations make, if that is read of all of them. -/
def addDeclared (r : Reading) (x : Checked (List (Option Entity))) : Checked Reading :=
  x.map fun es => r.addAll (es.filterMap id)

theorem addDeclared_ok (r : Reading) (es : List (Option Entity)) :
    r.addDeclared (.ok es) = .ok (r.addAll (es.filterMap id)) := rfl

theorem addDeclared_cons (r : Reading) (f : Declaration → Checked (Option Entity))
    (d : Declaration) (ds : List Declaration) :
    r.addDeclared ((d :: ds).mapM f) =
      r.addFound (f d) >>= fun r => r.addDeclared (ds.mapM f) := by
  rw [List.mapM_cons]
  cases f d with
  | error e => rfl
  | ok e =>
    cases ds.mapM f with
    | error e' => rfl
    | ok es =>
      cases e <;> simp [addFound, addDeclared, addAll_addAll, Except.map]

/-- With a node at the top. -/
def atTop (r : Reading) (n : Named) : Reading :=
  { r with nodes := r.nodes ++ [n.draft r.nodes.length none] }

theorem push_atTop (r : Reading) (n : Named) : r.push n none = .ok (r.atTop n) := rfl

theorem length_lt_atTop (r : Reading) (n : Named) : r.nodes.length < (r.atTop n).nodes.length := by
  simp [atTop]

/-- An entity is a node at the top with the nodes below it, and its uses. -/
theorem addAll_singleton (r : Reading) (e : Entity) :
    r.addAll [e] = { (r.atTop e.top).below r.nodes.length e.below with
      uses := r.uses ++ e.pending r.nodes.length } := by
  simp [below, addAll, atTop, numberAll, usesOf, Entity.drafts]

theorem addFound_some (r : Reading) (e : Entity) :
    r.addFound (.ok (some e)) = .ok { (r.atTop e.top).below r.nodes.length e.below with
      uses := r.uses ++ e.pending r.nodes.length } :=
  congrArg Except.ok (r.addAll_singleton e)

theorem addFound_none (r : Reading) : r.addFound (.ok none) = .ok r :=
  congrArg Except.ok r.addAll_nil

end Reading

/-! ## Blocks -/

/-- The inside of a block. -/
def insideOf (ts : List Token) (opening close : Nat) : Checked (List Token) :=
  (slice ts (opening + 1) close).mapError fun _ => .openBlock

/-- The body of a function. -/
def bodyOf (file : FilePath) (opening : Token) (stop : Location) : Named :=
  ⟨{ id := 0
     kind := .compound
     location := opening.location file
     extentEnd := stop }, 0⟩

/-- A record or an enumeration. -/
def recordOf (file : FilePath) (kind : CursorKind) (name : String) (t : Token) (stop : Location) :
    Named :=
  ⟨{ id := 0
     kind
     spelling := name
     displayName := name
     usr := "c:@S@" ++ name
     location := t.location file
     extentEnd := stop
     typeName := name
     isDefinition := true }, t.length⟩

/-- A parameter, where it is named behind the name of its function. -/
def parameterAt (file : FilePath) (rest : List Token) (p : Parameter) : Checked (Option Named) :=
  if p.name = "" then return none
  else
    match rest.find? (·.isWord p.name) with
    | none => return none
    | some t => do
      let stop ← endOf file t
      return some
        ⟨{ id := 0
           kind := .parameter
           spelling := p.name
           displayName := p.name
           location := t.location file
           extentEnd := stop
           typeName := p.typeName
           isDefinition := true }, t.length⟩

/-- Adds a parameter of a function below it. -/
def addParameter (file : FilePath) (statement : List Token) (nameAt owner : Nat) (r : Reading)
    (p : Parameter) : Checked Reading := do
  let rest ← slice statement (nameAt + 1) statement.length
  let n ← parameterAt file rest p
  r.push? n (some owner)

/-- What a statement with a block declares: the brace is at position `opening`, and its match at
position `close`. -/
def openBrace (file : FilePath) (statement ts : List Token) (opening close : Nat) (r : Reading) :
    Checked Reading := do
  match ← functionHead statement with
  | some head =>
    let name ← entryAt statement head.nameAt
    let last ← entryAt ts close
    let stop ← endOf file last
    let r' ← r.push ⟨(head.toHead name []).cursor file true stop, name.length⟩ none
    let brace ← entryAt ts opening
    let r' ← r'.push (bodyOf file brace stop) (some r.nodes.length)
    let r' ← head.parameters.foldlM (addParameter file statement head.nameAt r.nodes.length) r'
    let inside ← insideOf ts opening close
    let words := inside.filter fun t => t.word?.isSome
    return { r' with uses := r'.uses ++ words.map fun t => ⟨file, t, r.nodes.length + 1⟩ }
  | none =>
    match statement.head?.bind recordKind?, statement[1]? with
    | some kind, some t =>
      match t.word? with
      | none => return r
      | some name =>
        let last ← entryAt ts close
        let stop ← endOf file last
        let r' ← r.push (recordOf file kind name t stop) none
        if kind = .enumType then return r'
        else
          let inside ← insideOf ts opening close
          members file r.nodes.length name inside r'
    | _, _ => return r

/-- A record with a member whose head is too deep. -/
def MembersTooDeep (head : List Token) (block : Block) : Prop :=
  OpensRecord head ∧
    ∃ inside, block.inside = .ok inside ∧ ∃ m ∈ declarations true inside, HeadTooDeep m.tokens

/-- A declaration where too many marks are open somewhere: in its head, in its block, or, where the
members of a record are read, in the head of one of them. -/
def TooDeep (d : Declaration) : Prop :=
  HeadTooDeep d.tokens ∨ ∃ block, d.block = some block ∧
    (BlockTooDeep block ∨ FunctionHead.read? d.tokens = none ∧ MembersTooDeep d.tokens block)

/-- What is read of a declaration. -/
noncomputable def readDeclaration (file : FilePath) (d : Declaration) : Checked (Option Entity) :=
  overflowIf (TooDeep d) ((d.entity? file).mapError fun _ => .openBlock)

section Blocks

variable {file : FilePath} {statement ts : List Token} {opening close : Nat} {block : Block}
  {r : Reading}

theorem insideOf_eq (h : Closes ts opening close block) :
    insideOf ts opening close = block.inside.mapError fun _ => .openBlock := by
  unfold insideOf
  rw [h.inside]
  cases block.inside <;> rfl

theorem subset_of_slice {xs ys : List Token} {i j : Nat} (h : slice xs i j = .ok ys) : ys ⊆ xs := by
  unfold slice at h
  split at h
  · cases h
    exact ((List.drop_sublist i _).trans (List.take_sublist j xs)).subset
  · cases h

theorem parameterAt_eq {h : FunctionHead} (hfits : Fitting h.rest) (file : FilePath)
    (p : Parameter) : parameterAt file h.rest p = .ok (h.parameter? file p) := by
  unfold parameterAt FunctionHead.parameter?
  by_cases hname : p.name = ""
  · rw [if_pos hname, if_pos hname]
    rfl
  · rw [if_neg hname, if_neg hname]
    cases hfind : h.rest.find? (·.isWord p.name) with
    | none => rfl
    | some t =>
      dsimp only
      rw [endOf_eq (hfits t (List.mem_of_find?_eq_some hfind))]
      rfl

/-- Parameters become nodes below their function. -/
theorem foldlM_parameters (file : FilePath) {h : FunctionHead} {types : List Token}
    (hstatement : statement = types ++ h.name :: h.rest) (hfits : Fitting statement)
    (ps : List Parameter) {r : Reading} {owner : Nat} (howner : owner < r.nodes.length) :
    ps.foldlM (addParameter file statement types.length owner) r =
      .ok (r.below owner (ps.filterMap (h.parameter? file))) := by
  have hrest : slice statement (types.length + 1) statement.length = .ok h.rest :=
    slice_eq (types ++ [h.name]) [] (by simp [hstatement]) (by simp)
      (by simp [hstatement]; omega)
  have hadd (r : Reading) (howner : owner < r.nodes.length) (p : Parameter) :
      addParameter file statement types.length owner r p =
        .ok (r.below owner (h.parameter? file p).toList) := by
    unfold addParameter
    rw [hrest, ok_bind, parameterAt_eq (hfits.of_subset (subset_of_slice hrest)), ok_bind,
      Reading.push?_below howner]
  induction ps generalizing r with
  | nil => rw [List.foldlM_nil, List.filterMap_nil, Reading.below_nil]; rfl
  | cons p ps ih =>
    rw [List.foldlM_cons, hadd r howner, ok_bind,
      ih (by rw [Reading.length_nodes_below]; omega), Reading.below_below, List.filterMap_cons]
    cases h.parameter? file p <;> rfl

/-- A function with a block adds itself, its body and its parameters, unless the block has no
inside. -/
theorem openBrace_of_function {types : List Token} {h : FunctionHead}
    (hread : FunctionHead.read? statement = some h) (hwhole : statement = types ++ h.name :: h.rest)
    (hhead : functionHead statement =
      .ok (some ⟨types.length, h.resultType, h.isStatic, h.isVariadic, h.parameters⟩))
    (hstatement : Fitting statement) (hts : Fitting ts) (hcloses : Closes ts opening close block) :
    openBrace file statement ts opening close r =
      r.addFound ((Declaration.entity? file ⟨statement, some block⟩).mapError fun _ =>
        .openBlock) := by
  have hname : entryAt statement types.length = .ok h.name := entryAt_eq hwhole rfl
  have hend := endOf_eq (hts _ (mem_of_entryAt hcloses.last)) file
  have howner : r.nodes.length < ((r.atTop ⟨h.cursor file true (block.last.endLocation file),
      h.name.length⟩).below r.nodes.length
        [bodyOf file block.opening (block.last.endLocation file)]).nodes.length := by
    rw [Reading.length_nodes_below]
    exact Nat.lt_add_right _ (r.length_lt_atTop _)
  have hparameters := foldlM_parameters file hwhole hstatement h.parameters howner
  unfold openBrace Declaration.entity?
  rw [hhead, ok_bind, hread]
  dsimp only
  rw [hname, ok_bind, hcloses.last, ok_bind, hend, ok_bind, Reading.push_atTop, ok_bind,
    hcloses.opening, ok_bind, Reading.push_below (Reading.length_lt_atTop _ _), ok_bind]
  refine (congrArg (· >>= _) hparameters).trans ?_
  -- the inside is asked for last, when the function and its parameters are nodes already
  rw [ok_bind, Reading.below_below, insideOf_eq hcloses]
  cases block.inside with
  | error e => rfl
  | ok inside => exact (r.addFound_some (h.defined file block inside)).symm

/-- A record is added with its members, for which the inside of the block is needed. -/
theorem openBrace_of_opens (hread : FunctionHead.read? statement = none)
    (hhead : functionHead statement = .ok none) (hts : Fitting ts)
    (hshallow : ∀ inside, block.inside = .ok inside → Shallow inside)
    (hcloses : Closes ts opening close block) (hopens : OpensRecord statement) :
    openBrace file statement ts opening close r =
      r.addFound (overflowIf (MembersTooDeep statement block)
        ((Declaration.entity? file ⟨statement, some block⟩).mapError fun _ => .openBlock)) := by
  have hend := endOf_eq (hts _ (mem_of_entryAt hcloses.last)) file
  have hdeep : MembersTooDeep statement block ↔ ∃ inside, block.inside = .ok inside ∧
      ∃ m ∈ declarations true inside, HeadTooDeep m.tokens := and_iff_right hopens
  rw [hdeep]
  obtain ⟨first, t, rest, rfl, hkeyword, hname⟩ := hopens
  obtain ⟨kind, hkind, hne⟩ := recordKind?_iff.2 hkeyword
  obtain ⟨name, hname⟩ := Option.isSome_iff_exists.1 hname
  unfold openBrace Declaration.entity? record?
  rw [hhead, ok_bind, hread]
  dsimp only [List.head?_cons, Option.bind_some]
  rw [List.getElem?_cons_succ, List.getElem?_cons_zero, hkind]
  dsimp only
  rw [hname]
  dsimp only
  rw [hcloses.last, ok_bind, hend, ok_bind, Reading.push_atTop, ok_bind, if_neg hne, if_neg hne,
    insideOf_eq hcloses]
  cases hblock : block.inside with
  | error e =>
    -- the brace is the last token, and no member has been read
    rw [overflowIf_of_not (by simp)]
    rfl
  | ok inside =>
    have hslice := hcloses.inside
    rw [hblock] at hslice
    dsimp only [Except.mapError]
    rw [ok_bind, members_eq (hts.of_subset (subset_of_slice hslice)) (hshallow inside hblock)
      (Reading.length_lt_atTop _ _)]
    by_cases hmembers : ∃ m ∈ declarations true inside, HeadTooDeep m.tokens
    · rw [overflowIf_of hmembers, overflowIf_of ⟨inside, rfl, hmembers⟩]
      rfl
    · rw [overflowIf_of_not hmembers, overflowIf_of_not (by simpa using hmembers),
        Reading.addFound_some]
      simp [Reading.atTop, Reading.below, Entity.pending, recordOf]

/-- Other blocks without a head of a function add an enumeration, or nothing. -/
theorem openBrace_of_not_opens (hread : FunctionHead.read? statement = none)
    (hhead : functionHead statement = .ok none) (hts : Fitting ts)
    (hcloses : Closes ts opening close block) (hopens : ¬OpensRecord statement) :
    openBrace file statement ts opening close r =
      r.addFound ((Declaration.entity? file ⟨statement, some block⟩).mapError fun _ =>
        .openBlock) := by
  have hend := endOf_eq (hts _ (mem_of_entryAt hcloses.last)) file
  unfold openBrace Declaration.entity? record?
  rw [hhead, ok_bind, hread]
  dsimp only
  rcases statement with _ | ⟨first, _ | ⟨t, rest⟩⟩
  · exact r.addFound_none.symm
  · dsimp only [List.head?_cons, Option.bind_some]
    cases recordKind? first <;> exact r.addFound_none.symm
  · dsimp only [List.head?_cons, Option.bind_some]
    rw [List.getElem?_cons_succ, List.getElem?_cons_zero]
    cases hkind : recordKind? first with
    | none => exact r.addFound_none.symm
    | some kind =>
      dsimp only
      cases hname : t.word? with
      | none => exact r.addFound_none.symm
      | some name =>
        have henum : kind = .enumType := Classical.byContradiction fun hne =>
          hopens ⟨first, t, rest, rfl, recordKind?_iff.1 ⟨kind, hkind, hne⟩, by simp [hname]⟩
        dsimp only
        rw [hcloses.last, ok_bind, hend, ok_bind, Reading.push_atTop, ok_bind, if_pos henum,
          if_pos henum]
        dsimp only [Except.mapError]
        rw [Reading.addFound_some, Reading.below_nil]
        simp [Reading.atTop, Entity.pending, recordOf]

/-- A head with a block that can be matched adds what is read of it. -/
theorem openBrace_eq (hstatement : Fitting statement) (hts : Fitting ts)
    (hblock : ¬BlockTooDeep block)
    (hshallow : ∀ inside, block.inside = .ok inside → Shallow inside)
    (hcloses : Closes ts opening close block) :
    openBrace file statement ts opening close r =
      r.addFound (readDeclaration file ⟨statement, some block⟩) := by
  have hreads := functionHead_reads statement
  unfold readDeclaration
  generalize hhead : functionHead statement = x at hreads
  cases hreads with
  | tooDeep hdeep =>
    rw [overflowIf_of (.inl hdeep)]
    unfold openBrace
    rw [hhead]
    rfl
  | none hread =>
    have hdeep : TooDeep ⟨statement, some block⟩ ↔ MembersTooDeep statement block := by
      unfold TooDeep
      simp [not_headTooDeep hread, hblock, hread]
    rw [hdeep]
    by_cases hopens : OpensRecord statement
    · exact openBrace_of_opens hread hhead hts hshallow hcloses hopens
    · rw [overflowIf_of_not fun h : MembersTooDeep statement block => hopens h.1]
      exact openBrace_of_not_opens hread hhead hts hcloses hopens
  | some hread hwhole hhead' =>
    have hdeep : ¬TooDeep ⟨statement, some block⟩ := by
      unfold TooDeep
      simp [hhead', hblock, hread]
    rw [overflowIf_of_not hdeep]
    exact openBrace_of_function hread hwhole hhead hstatement hts hcloses

end Blocks

end SketchSense.Model.ByPosition
