import SketchSense.Model.Entity
import SketchSense.Proofs.Model.Heads
import SketchSense.Proofs.Model.Places

/-!
# Where entities are named

Every cursor that a declaration makes is named by a token of that declaration, and only a defined
function has a cursor that defines a function. Words that may refer to entities stand where nothing
is named.

* `Declaration.naming`, the tokens that name cursors, with `namedBy_of_entity?`;
* `definesFunction` and which cursors do, with `definesFunction_entity?`;
* `entity?_cases`, all that a declaration can make, and `Entity.IsPrototype`, the entity of a
  prototype.
-/

namespace SketchSense.Model

/-! ## Naming tokens -/

/-- The tokens of a declaration that can name something: in a function those of its head. -/
def Declaration.naming (d : Declaration) : List Token :=
  d.tokens ++ if d.defined?.isSome then [] else (d.block.map Block.insideTokens).getD []

theorem Declaration.naming_sublist (d : Declaration) : d.naming.Sublist d.parts := by
  unfold naming parts
  refine (List.Sublist.refl _).append ?_
  split
  · exact List.nil_sublist _
  · exact List.Sublist.refl _

/-- A cursor is named by a token, or it has no name. -/
def Named.NamedBy (n : Named) (file : FilePath) (ts : List Token) : Prop :=
  n.nameLength = 0 ∨ ∃ t ∈ ts, n.cursor.location = t.location file ∧ n.nameLength = t.length

theorem Named.NamedBy.mono {n : Named} {file : FilePath} {ts us : List Token}
    (h : n.NamedBy file ts) (hsub : ∀ t ∈ ts, t ∈ us) : n.NamedBy file us := by
  rcases h with h | ⟨t, ht, hlocation, hlength⟩
  · exact .inl h
  · exact .inr ⟨t, hsub t ht, hlocation, hlength⟩

theorem mem_declarator {ts : List Token} {t : Token} (h : t ∈ declarator ts) : t ∈ ts :=
  (List.takeWhile_sublist _).subset h

theorem namedBy_of_member? {file : FilePath} {owner : String} {d : Declaration} {n : Named}
    (h : member? file owner d = some n) : n.NamedBy file d.tokens := by
  unfold member? at h
  split at h
  · next head hread =>
    cases h
    exact .inr ⟨head.name, (FunctionHead.mem_of_read? hread).1, rfl, rfl⟩
  · dsimp only at h
    split at h
    · next t hlast =>
      split at h
      · split at h
        · cases h
        · cases h
          exact .inr ⟨t, mem_declarator (List.mem_of_getLast? hlast), rfl, rfl⟩
      · cases h
    · cases h

theorem namedBy_of_statement? {file : FilePath} {ts : List Token} {e : Entity}
    (h : statement? file ts = some e) : e.top.NamedBy file ts ∧ e.below = [] ∧ e.uses = [] := by
  unfold statement? at h
  split at h
  · next head hread =>
    cases h
    exact ⟨.inr ⟨head.name, (FunctionHead.mem_of_read? hread).1, rfl, rfl⟩, rfl, rfl⟩
  · dsimp only at h
    split at h
    · cases h
    · next t hlast =>
      split at h
      · cases h
      · split at h
        · cases h
        · obtain ⟨x, -, rfl⟩ := Option.map_eq_some_iff.1 h
          exact ⟨.inr ⟨t, mem_declarator (List.mem_of_getLast? hlast), rfl, rfl⟩, rfl, rfl⟩

theorem namedBy_of_record? {file : FilePath} {head : List Token} {block : Block} {e : Entity}
    (h : record? file head block = .ok (some e)) :
    (∀ n ∈ e.top :: e.below, n.NamedBy file (head ++ block.insideTokens)) ∧ e.uses = [] := by
  unfold record? at h
  split at h
  · next first t rest =>
    split at h
    · next kind name hkind hname =>
      have htop : t ∈ first :: t :: rest ++ block.insideTokens := by simp
      dsimp only at h
      split at h
      · cases h
        refine ⟨fun n hn => ?_, rfl⟩
        rw [List.mem_singleton.1 hn]
        exact .inr ⟨t, htop, rfl, rfl⟩
      · split at h
        · cases h
        · next inside hinside =>
          cases h
          refine ⟨fun n hn => ?_, rfl⟩
          rcases List.mem_cons.1 hn with rfl | hn
          · exact .inr ⟨t, htop, rfl, rfl⟩
          · obtain ⟨d, hd, hmember⟩ := List.mem_filterMap.1 hn
            refine (namedBy_of_member? hmember).mono fun u hu => ?_
            refine List.mem_append_right _ ?_
            unfold Block.insideTokens
            rw [hinside]
            exact mem_of_mem_tokens hd hu
    · cases h
  · cases h

/-- The parameters of a function are named behind its name. -/
theorem namedBy_of_parameter? {h : FunctionHead} {file : FilePath} {p : Parameter} {n : Named}
    (hn : h.parameter? file p = some n) : n.NamedBy file h.rest := by
  unfold FunctionHead.parameter? at hn
  split at hn
  · cases hn
  · obtain ⟨t, ht, rfl⟩ := Option.map_eq_some_iff.1 hn
    exact .inr ⟨t, List.mem_of_find?_eq_some ht, rfl, rfl⟩

/-- All that a declaration can make: a function with its head and its body, what a statement
declares, or what a block behind another head does. -/
theorem entity?_cases {d : Declaration} {file : FilePath} {r : Option Entity}
    (h : d.entity? file = .ok r) :
    (∃ head block inside, d.defined? = some head ∧ d.block = some block ∧
        block.inside = .ok inside ∧ r = some (head.defined file block inside)) ∨
      d.defined? = none ∧
        (d.block = none ∧ statement? file d.tokens = r ∨
          ∃ block, d.block = some block ∧ record? file d.tokens block = .ok r) := by
  unfold Declaration.entity? at h
  unfold Declaration.defined?
  cases hblock : d.block with
  | none =>
    rw [hblock] at h
    exact .inr ⟨rfl, .inl ⟨rfl, Except.ok.inj h⟩⟩
  | some block =>
    rw [hblock] at h
    rw [Option.bind_some]
    cases hread : FunctionHead.read? d.tokens with
    | none =>
      simp only [hread] at h
      exact .inr ⟨rfl, .inr ⟨block, rfl, h⟩⟩
    | some head =>
      simp only [hread] at h
      cases hinside : block.inside with
      | error e =>
        rw [hinside] at h
        cases h
      | ok inside =>
        rw [hinside] at h
        cases h
        exact .inl ⟨head, block, inside, rfl, rfl, hinside, rfl⟩

/-- A defined function makes the entity with its head and its body. -/
theorem entity?_of_defined {d : Declaration} {file : FilePath} {head : FunctionHead}
    {r : Option Entity} (hd : d.defined? = some head) (h : d.entity? file = .ok r) :
    ∃ block inside, d.block = some block ∧ block.inside = .ok inside ∧
      r = some (head.defined file block inside) := by
  rcases entity?_cases h with ⟨head', block, inside, hhead, hblock, hinside, hr⟩ | ⟨hnone, -⟩
  · rw [hd] at hhead
    cases hhead
    exact ⟨block, inside, hblock, hinside, hr⟩
  · rw [hd] at hnone
    cases hnone

/-- What makes no entity defines no function. -/
theorem defined?_of_entity?_eq_none {d : Declaration} {file : FilePath}
    (h : d.entity? file = .ok none) : d.defined? = none := by
  rcases entity?_cases h with ⟨_, _, _, -, -, -, hsome⟩ | ⟨hnone, -⟩
  · cases hsome
  · exact hnone

/-- Every cursor of a declaration is named by one of its naming tokens. -/
theorem namedBy_of_entity? {d : Declaration} {file : FilePath} {e : Entity}
    (h : d.entity? file = .ok (some e)) : ∀ n ∈ e.top :: e.below, n.NamedBy file d.naming := by
  intro n hn
  have hnaming : ∀ t ∈ d.tokens, t ∈ d.naming := fun t ht => List.mem_append_left _ ht
  rcases entity?_cases h with ⟨head, block, inside, hd, -, -, he⟩ |
    ⟨hd, ⟨-, hstatement⟩ | ⟨block, hblock, hrecord⟩⟩
  · cases he
    obtain ⟨-, -, hread⟩ := Option.bind_eq_some_iff.1 hd
    have hmem := FunctionHead.mem_of_read? hread
    rcases List.mem_cons.1 hn with rfl | hn
    · exact .inr ⟨head.name, hnaming _ hmem.1, rfl, rfl⟩
    · rcases List.mem_cons.1 hn with rfl | hn
      · exact .inl rfl
      · obtain ⟨p, -, hp⟩ := List.mem_filterMap.1 hn
        exact (namedBy_of_parameter? hp).mono fun t ht => hnaming t (hmem.2.1 t ht)
  · obtain ⟨htop, hbelow, -⟩ := namedBy_of_statement? hstatement
    rw [hbelow] at hn
    rw [List.mem_singleton.1 hn]
    exact htop.mono hnaming
  · refine ((namedBy_of_record? hrecord).1 n hn).mono fun t ht => ?_
    simpa [Declaration.naming, hd, hblock] using ht

/-! ## Which cursors define functions -/

/-- The cursor defines the function of that name. -/
def definesFunction (name : String) (c : Cursor) : Bool :=
  c.kind.isSymbol && c.isDefinition && c.usr = "c:@F@" ++ name

/-- The key of a function starts with `c:@F`, and no other key does. -/
theorem usr_ne {c : Cursor} {name : String} (key : List Char)
    (husr : c.usr.toList.take 4 = key) (hkey : key ≠ ['c', ':', '@', 'F']) :
    definesFunction name c = false := by
  unfold definesFunction
  rw [Bool.and_eq_false_iff]
  right
  rw [decide_eq_false_iff_not]
  intro heq
  apply hkey
  rw [← husr, heq, String.toList_append]
  rfl

theorem definesFunction_member? {file : FilePath} {owner : String} {d : Declaration} {n : Named}
    (h : member? file owner d = some n) (name : String) : definesFunction name n.cursor = false := by
  unfold member? at h
  split at h
  · cases h
    exact usr_ne ['c', ':', '@', 'S'] (by simp [toString]) (by decide)
  · dsimp only at h
    split at h
    · split at h
      · split at h
        · cases h
        · cases h
          exact usr_ne ['c', ':', '@', 'S'] (by simp [toString]) (by decide)
      · cases h
    · cases h

theorem not_function_of_statement? {file : FilePath} {ts : List Token} {e : Entity}
    (h : statement? file ts = some e) :
    ¬ (e.top.cursor.kind = .function ∧ e.top.cursor.isDefinition = true) := by
  unfold statement? at h
  split at h
  · cases h
    simp [FunctionHead.cursor]
  · dsimp only at h
    split at h
    · cases h
    · split at h
      · cases h
      · split at h
        · cases h
        · obtain ⟨⟨kind, usr⟩, hkind, rfl⟩ := Option.map_eq_some_iff.1 h
          unfold variableKind? at hkind
          split at hkind <;> cases hkind <;> simp

theorem definesFunction_record? {file : FilePath} {head : List Token} {block : Block} {e : Entity}
    (h : record? file head block = .ok (some e)) (name : String) :
    (∀ n ∈ e.top :: e.below, definesFunction name n.cursor = false) ∧
      e.top.cursor.kind ≠ .function := by
  have htop (kind : CursorKind) (word : String) (n : Named)
      (hn : n.cursor.usr = "c:@S@" ++ word) : definesFunction name n.cursor = false :=
    usr_ne ['c', ':', '@', 'S'] (by rw [hn]; simp) (by decide)
  unfold record? at h
  split at h
  · next first t rest =>
    split at h
    · next kind word hkind hword =>
      have hfunction : kind ≠ .function := by
        rintro rfl
        unfold recordKind? at hkind
        split at hkind <;> cases hkind
      dsimp only at h
      split at h
      · cases h
        refine ⟨fun n hn => ?_, hfunction⟩
        rw [List.mem_singleton.1 hn]
        exact htop kind word _ rfl
      · split at h
        · cases h
        · cases h
          refine ⟨fun n hn => ?_, hfunction⟩
          rcases List.mem_cons.1 hn with rfl | hn
          · exact htop kind word _ rfl
          · obtain ⟨d, -, hmember⟩ := List.mem_filterMap.1 hn
            exact definesFunction_member? hmember name
    · cases h
  · cases h

/-- A declaration makes a function with a body if it defines one. -/
theorem function_of_entity? {d : Declaration} {file : FilePath} {e : Entity}
    (h : d.entity? file = .ok (some e)) :
    (e.top.cursor.kind = .function ∧ e.top.cursor.isDefinition = true) ↔ d.defined?.isSome := by
  rcases entity?_cases h with ⟨head, block, inside, hd, -, -, he⟩ |
    ⟨hd, ⟨-, hstatement⟩ | ⟨block, -, hrecord⟩⟩
  · cases he
    simp [hd, FunctionHead.defined, FunctionHead.cursor]
  · simpa [hd] using not_function_of_statement? hstatement
  · rw [hd]
    exact ⟨fun hfunction => absurd hfunction.1 (definesFunction_record? hrecord "").2,
      fun hsome => absurd hsome Bool.false_ne_true⟩

/-! ## Prototypes -/

/-- The entity of a function that is declared only. -/
def Entity.IsPrototype (e : Entity) (file : FilePath) : Prop :=
  ∃ (h : FunctionHead) (stop : Location), e = { top := ⟨h.cursor file false stop, h.name.length⟩ }

/-- A prototype can be referred to by its name, and defines nothing. -/
theorem Entity.IsPrototype.top {e : Entity} {file : FilePath} (h : e.IsPrototype file) :
    e.top.cursor.kind = .function ∧ e.top.cursor.location.file = file ∧
      e.top.cursor.usr = "c:@F@" ++ e.top.cursor.spelling ∧
      ∀ name, definesFunction name e.top.cursor = false := by
  obtain ⟨head, stop, rfl⟩ := h
  exact ⟨rfl, rfl, rfl, fun name => rfl⟩

theorem Entity.IsPrototype.alone {e : Entity} {file : FilePath} (h : e.IsPrototype file) :
    e.below = [] ∧ e.uses = [] := by
  obtain ⟨head, stop, rfl⟩ := h
  exact ⟨rfl, rfl⟩

end SketchSense.Model
