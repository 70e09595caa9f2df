import SketchSense.Proofs.Model.Bodies
import SketchSense.Proofs.Model.Entities

/-!
# The same declarations in another file

What a text declares depends on its tokens and directives alone: read as another file, it declares
the same entities there. Each of them starts and ends on a line of the text.

* `Entity.moveTo`, an entity in another file, with `entity?_moveTo` and `macro?_moveTo`;
* `Entity.IsPlaced`, that an entity stands on lines, with `isPlaced_of_entity?`;
* `exists_ofBuffer_moveTo`, what is declared by texts that differ in nothing but their lines.
-/

namespace SketchSense

/-- The place in another file. -/
def Location.moveTo (file : FilePath) (l : Location) : Location := { l with file }

/-- The cursor in another file. -/
def Cursor.moveTo (file : FilePath) (c : Cursor) : Cursor :=
  { c with location := c.location.moveTo file, extentEnd := c.extentEnd.moveTo file }

namespace Model

def Named.moveTo (file : FilePath) (n : Named) : Named := ⟨n.cursor.moveTo file, n.nameLength⟩

/-- The entity in another file. -/
def Entity.moveTo (file : FilePath) (e : Entity) : Entity :=
  ⟨e.top.moveTo file, e.below.map (Named.moveTo file), e.uses⟩

/-! ## Moving declarations -/

section Moving

variable (file file' : FilePath)

theorem lastEnd_moveTo {ts : List Token} (h : ts ≠ []) :
    lastEnd file' ts = (lastEnd file ts).moveTo file' := by
  unfold lastEnd
  rw [List.getLast?_eq_some_getLast h]
  rfl

/-- The tokens of a function head are some. -/
theorem ne_nil_of_read? {ts : List Token} {h : FunctionHead} (hread : FunctionHead.read? ts = some h) :
    ts ≠ [] :=
  List.ne_nil_of_mem (FunctionHead.mem_of_read? hread).1

theorem parameter?_moveTo (h : FunctionHead) (p : Parameter) :
    h.parameter? file' p = (h.parameter? file p).map (Named.moveTo file') := by
  unfold FunctionHead.parameter?
  split
  · rfl
  · rw [Option.map_map]
    rfl

theorem defined_moveTo (h : FunctionHead) (block : Block) (inside : List Token) :
    h.defined file' block inside = (h.defined file block inside).moveTo file' := by
  have hparameters : h.parameters.filterMap (h.parameter? file') =
      (h.parameters.filterMap (h.parameter? file)).map (Named.moveTo file') := by
    rw [List.map_filterMap]
    exact List.filterMap_congr fun p _ => parameter?_moveTo file file' h p
  unfold FunctionHead.defined
  rw [hparameters]
  rfl

theorem member?_moveTo (owner : String) (d : Declaration) :
    member? file' owner d = (member? file owner d).map (Named.moveTo file') := by
  unfold member?
  cases hread : FunctionHead.read? d.tokens with
  | some head =>
    have hend := lastEnd_moveTo file file' (ne_nil_of_read? hread)
    cases d.block with
    | some block => rfl
    | none =>
      dsimp only
      rw [hend]
      rfl
  | none =>
    dsimp only
    cases (declarator d.tokens).getLast? with
    | none => rfl
    | some t =>
      dsimp only
      cases t.word? with
      | none => rfl
      | some name =>
        dsimp only
        split <;> rfl

theorem record?_moveTo (head : List Token) (block : Block) :
    record? file' head block = (record? file head block).map (Option.map (Entity.moveTo file')) := by
  unfold record?
  split
  · split
    · dsimp only
      split
      · rfl
      · cases block.inside with
        | error e => rfl
        | ok inside =>
          have hmembers (owner : String) : (declarations true inside).filterMap (member? file' owner) =
              ((declarations true inside).filterMap (member? file owner)).map
                (Named.moveTo file') := by
            rw [List.map_filterMap]
            exact List.filterMap_congr fun d _ => member?_moveTo file file' owner d
          dsimp only
          rw [hmembers]
          rfl
    · rfl
  · rfl

theorem statement?_moveTo (ts : List Token) :
    statement? file' ts = (statement? file ts).map (Entity.moveTo file') := by
  unfold statement?
  cases hread : FunctionHead.read? ts with
  | some head =>
    dsimp only
    rw [lastEnd_moveTo file file' (ne_nil_of_read? hread)]
    rfl
  | none =>
    dsimp only
    cases (declarator ts).getLast? with
    | none => rfl
    | some t =>
      dsimp only
      cases t.word? with
      | none => rfl
      | some name =>
        dsimp only
        split
        · rfl
        · rw [Option.map_map]
          rfl

/-- What a declaration makes in one file it makes in another. -/
theorem entity?_moveTo (d : Declaration) :
    d.entity? file' = (d.entity? file).map (Option.map (Entity.moveTo file')) := by
  unfold Declaration.entity?
  cases d.block with
  | none => exact congrArg Except.ok (statement?_moveTo file file' d.tokens)
  | some block =>
    dsimp only
    cases FunctionHead.read? d.tokens with
    | none => exact record?_moveTo file file' d.tokens block
    | some head =>
      dsimp only
      cases block.inside with
      | error e => rfl
      | ok inside => exact congrArg (Except.ok ∘ some) (defined_moveTo file file' head block inside)

theorem macro?_moveTo (d : Directive) :
    d.macro? file' = (d.macro? file).map (Entity.moveTo file') := by
  unfold Directive.macro?
  split
  · dsimp only
    split <;> rfl
  · rfl

end Moving

/-! ## On lines -/

/-- The cursor starts and ends on a line. -/
def Named.IsPlaced (n : Named) : Prop :=
  1 ≤ n.cursor.location.line ∧ 1 ≤ n.cursor.extentEnd.line

def Entity.IsPlaced (e : Entity) : Prop := ∀ n ∈ e.top :: e.below, n.IsPlaced

/-- The tokens stand on lines. -/
def OnLines (ts : List Token) : Prop := ∀ t ∈ ts, 1 ≤ t.place.line

theorem OnLines.lastEnd {ts : List Token} (h : OnLines ts) (hne : ts ≠ []) (file : FilePath) :
    1 ≤ (lastEnd file ts).line := by
  unfold Model.lastEnd
  rw [List.getLast?_eq_some_getLast hne]
  exact h _ (List.getLast_mem hne)

/-- The braces of a block are among the tokens. -/
theorem Block.last_mem (opening : Token) (ts : List Token) :
    (ofBrace opening ts).opening = opening ∧ (ofBrace opening ts).last ∈ opening :: ts := by
  unfold ofBrace
  split
  · next inside last after h =>
    rw [eq_of_closing? h]
    simp
  · split
    · next last h => exact ⟨rfl, List.mem_cons_of_mem _ (List.mem_of_getLast? h)⟩
    · exact ⟨rfl, List.mem_cons_self⟩

theorem mem_of_mem_declarationsFrom {inRecord : Bool} {head ts : List Token} :
    ∀ d ∈ declarationsFrom inRecord head ts, ∀ b ∈ d.block, b.opening ∈ ts ∧ b.last ∈ ts := by
  fun_induction declarationsFrom inRecord head ts with
  | case1 head => simp
  | case2 head t ts h ih =>
    intro d hd b hb
    exact (ih d hd b hb).imp (List.mem_cons_of_mem t) (List.mem_cons_of_mem t)
  | case3 head t ts h hbrace block hlen ih =>
    have hafter : ∀ u ∈ block.after, u ∈ t :: ts := fun u hu =>
      List.mem_cons_of_mem t ((Block.insideTokens_sublist t ts).subset (List.mem_append_right _ hu))
    intro d hd b hb
    rcases List.mem_cons.1 hd with rfl | hd
    · cases hb
      obtain ⟨hopening, hlast⟩ := Block.last_mem t ts
      exact ⟨hopening ▸ List.mem_cons_self, hlast⟩
    · exact (ih d hd b hb).imp (hafter _) (hafter _)
  | case4 head t ts h hbrace hsemi ih =>
    intro d hd b hb
    rcases List.mem_cons.1 hd with rfl | hd
    · cases hb
    · exact (ih d hd b hb).imp (List.mem_cons_of_mem t) (List.mem_cons_of_mem t)
  | case5 head t ts h hbrace hsemi ih =>
    intro d hd b hb
    exact (ih d hd b hb).imp (List.mem_cons_of_mem t) (List.mem_cons_of_mem t)

/-- The tokens of a declaration stand on lines, with the braces of its block. -/
structure Declaration.IsOnLines (d : Declaration) : Prop where
  tokens : OnLines d.tokens
  opening : ∀ b ∈ d.block, 1 ≤ b.opening.place.line
  last : ∀ b ∈ d.block, 1 ≤ b.last.place.line
  inside : ∀ b ∈ d.block, ∀ ts, b.inside = .ok ts → OnLines ts

theorem OnLines.declarations {ts : List Token} (h : OnLines ts) (inRecord : Bool) :
    ∀ d ∈ declarations inRecord ts, d.IsOnLines := by
  intro d hd
  refine ⟨fun t ht => h t (mem_of_mem_tokens hd ht), fun b hb => ?_, fun b hb => ?_,
    fun b hb inside hinside t ht => ?_⟩
  · exact h _ (mem_of_mem_declarationsFrom d hd b hb).1
  · exact h _ (mem_of_mem_declarationsFrom d hd b hb).2
  · refine h t (mem_of_mem_parts hd ?_)
    unfold Declaration.parts
    rw [insideTokens_of_block hb hinside]
    exact List.mem_append_right _ ht

variable {file : FilePath}

theorem isPlaced_of_member? {owner : String} {d : Declaration} (hd : d.IsOnLines) {n : Named}
    (h : member? file owner d = some n) : n.IsPlaced := by
  unfold member? at h
  split at h
  · next head hread =>
    have hname : 1 ≤ head.name.place.line := hd.tokens _ (FunctionHead.mem_of_read? hread).1
    cases h
    refine ⟨hname, ?_⟩
    dsimp only
    split
    · next b hb => exact hd.last b hb
    · exact hd.tokens.lastEnd (ne_nil_of_read? hread) file
  · dsimp only at h
    split at h
    · next t hlast =>
      have ht : 1 ≤ t.place.line := hd.tokens t (mem_declarator (List.mem_of_getLast? hlast))
      split at h
      · split at h
        · cases h
        · cases h
          exact ⟨ht, ht⟩
      · cases h
    · cases h

theorem isPlaced_of_record? {d : Declaration} (hd : d.IsOnLines) {block : Block}
    (hblock : d.block = some block) {e : Entity}
    (h : record? file d.tokens block = .ok (some e)) : e.IsPlaced := by
  have hlast := hd.last block hblock
  have htokens := hd.tokens
  unfold record? at h
  split at h
  · next first t rest heq =>
    have ht : 1 ≤ t.place.line := htokens t (by rw [heq]; simp)
    split at h
    · dsimp only at h
      split at h
      · cases h
        intro n hn
        rw [List.mem_singleton.1 hn]
        exact ⟨ht, hlast⟩
      · split at h
        · cases h
        · next inside hinside =>
          cases h
          intro n hn
          rcases List.mem_cons.1 hn with rfl | hn
          · exact ⟨ht, hlast⟩
          · obtain ⟨member, hmem, hmember⟩ := List.mem_filterMap.1 hn
            exact isPlaced_of_member?
              ((hd.inside block hblock inside hinside).declarations true member hmem) hmember
    · cases h
  · cases h

theorem isPlaced_of_statement? {ts : List Token} (hts : OnLines ts) {e : Entity}
    (h : statement? file ts = some e) : e.IsPlaced := by
  have halone {n : Named} (hn : n.IsPlaced) : Entity.IsPlaced { top := n } := by
    intro n' hn'
    rwa [List.mem_singleton.1 hn']
  unfold statement? at h
  split at h
  · next head hread =>
    cases h
    exact halone ⟨hts _ (FunctionHead.mem_of_read? hread).1,
      hts.lastEnd (ne_nil_of_read? hread) file⟩
  · dsimp only at h
    split at h
    · cases h
    · next t hlast =>
      have ht : 1 ≤ t.place.line := hts t (mem_declarator (List.mem_of_getLast? hlast))
      split at h
      · cases h
      · split at h
        · cases h
        · obtain ⟨x, -, rfl⟩ := Option.map_eq_some_iff.1 h
          exact halone ⟨ht, ht⟩

theorem isPlaced_of_parameter? {h : FunctionHead} {p : Parameter} {n : Named}
    (hrest : OnLines h.rest) (hn : h.parameter? file p = some n) : n.IsPlaced := by
  unfold FunctionHead.parameter? at hn
  split at hn
  · cases hn
  · obtain ⟨t, ht, rfl⟩ := Option.map_eq_some_iff.1 hn
    have hline := hrest t (List.mem_of_find?_eq_some ht)
    exact ⟨hline, hline⟩

/-- Everything that a declaration makes starts and ends on a line. -/
theorem isPlaced_of_entity? {d : Declaration} (hd : d.IsOnLines) {e : Entity}
    (h : d.entity? file = .ok (some e)) : e.IsPlaced := by
  rcases entity?_cases h with ⟨head, block, inside, hdefined, hblock, -, he⟩ |
    ⟨-, ⟨-, hstatement⟩ | ⟨block, hblock, hrecord⟩⟩
  · cases he
    obtain ⟨-, -, hread⟩ := Option.bind_eq_some_iff.1 hdefined
    obtain ⟨hname, hrest, -⟩ := FunctionHead.mem_of_read? hread
    intro n hn
    -- the function, then its body, then its parameters
    rcases List.mem_cons.1 hn with rfl | hn
    · exact ⟨hd.tokens _ hname, hd.last block hblock⟩
    · rcases List.mem_cons.1 hn with rfl | hn
      · exact ⟨hd.opening block hblock, hd.last block hblock⟩
      · obtain ⟨p, -, hp⟩ := List.mem_filterMap.1 hn
        exact isPlaced_of_parameter? (fun t ht => hd.tokens t (hrest t ht)) hp
  · exact isPlaced_of_statement? hd.tokens hstatement
  · exact isPlaced_of_record? hd hblock hrecord

theorem isPlaced_of_macro? {d : Directive} (hd : 1 ≤ d.place.line) {e : Entity}
    (h : d.macro? file = some e) : e.IsPlaced := by
  unfold Directive.macro? at h
  split at h
  · dsimp only at h
    split at h
    · cases h
    · cases h
      intro n hn
      rw [List.mem_singleton.1 hn]
      exact ⟨hd, hd⟩
  · cases h

/-! ## Files -/

/-- Everything that a file declares starts and ends on a line. -/
theorem isPlaced_of_ofBuffer {code : String} {m : FileModel}
    (h : FileModel.ofBuffer ⟨file, code⟩ = .ok m) : ∀ e ∈ m.entities, e.IsPlaced := by
  obtain ⟨lx, declared, hlex, hdeclared, rfl⟩ := ofBuffer_eq_ok.1 h
  have htokens : OnLines lx.tokens := fun t ht => (line_of_mem_tokens hlex ht).1
  intro e he
  rcases List.mem_append.1 he with he | he
  · obtain ⟨d, hd, hmacro⟩ := List.mem_filterMap.1 he
    exact isPlaced_of_macro? (line_of_mem_directives hlex hd) hmacro
  · obtain ⟨r, hr, hsome⟩ := List.mem_filterMap.1 he
    obtain ⟨d, hd, hentity⟩ := (mem_of_mapM_eq_ok hdeclared).2 r hr
    obtain rfl : r = some e := hsome
    exact isPlaced_of_entity? (htokens.declarations false d hd) hentity

/-- Texts with the same tokens and the same macros declare the same, each in its file. -/
theorem exists_ofBuffer_moveTo (file' : FilePath) {code code' : String} {lx lx' : Lexed}
    {m : FileModel} (hlex : lex code = .ok lx) (hlex' : lex code' = .ok lx')
    (htokens : lx'.tokens = lx.tokens)
    (hmacros : lx'.directives.filterMap (Directive.macro? file') =
      lx.directives.filterMap (Directive.macro? file'))
    (hm : FileModel.ofBuffer ⟨file, code⟩ = .ok m) :
    ∃ m', FileModel.ofBuffer ⟨file', code'⟩ = .ok m' ∧
      m'.entities = m.entities.map (Entity.moveTo file') := by
  obtain ⟨lx₁, declared, hlex₁, hdeclared, rfl⟩ := ofBuffer_eq_ok.1 hm
  obtain rfl : lx = lx₁ := Except.ok.inj (hlex.symm.trans hlex₁)
  have hdeclared' : (declarations false lx'.tokens).mapM (Declaration.entity? file') =
      .ok (declared.map (Option.map (Entity.moveTo file'))) := by
    rw [htokens, mapM_eq_ok_iff, List.forall₂_map_right_iff]
    refine (mapM_eq_ok_iff.1 hdeclared).imp fun d r hd => ?_
    rw [entity?_moveTo file file', hd]
    rfl
  refine ⟨_, ofBuffer_eq_ok.2 ⟨lx', _, hlex', hdeclared', rfl⟩, ?_⟩
  dsimp only
  rw [hmacros, List.map_append, List.map_filterMap, List.map_filterMap, List.filterMap_map]
  congr 1
  exact List.filterMap_congr fun d _ => macro?_moveTo file file' d

/-- What a file declares is in that file. -/
theorem moveTo_of_ofBuffer {code : String} {m : FileModel}
    (h : FileModel.ofBuffer ⟨file, code⟩ = .ok m) : ∀ e ∈ m.entities, e.moveTo file = e := by
  -- moving a file to where it is gives the same file
  obtain ⟨lx, -, hlex, -⟩ := ofBuffer_eq_ok.1 h
  obtain ⟨m', hm', hmoved⟩ := exists_ofBuffer_moveTo file hlex hlex rfl rfl h
  obtain rfl : m = m' := Except.ok.inj (h.symm.trans hm')
  have hfixed := List.map_eq_map_iff.1 (hmoved.symm.trans (List.map_id _).symm)
  exact hfixed

end Model

end SketchSense
