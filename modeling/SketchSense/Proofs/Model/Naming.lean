import SketchSense.Proofs.Model.Resolution

/-!
# Names of nodes

Every node with a name takes it from the text: from a directive, from a token of a declaration or
from a word of a body. What is named in one text never overlaps with a name of something else, so all
nodes at a place stand at one location and have one key.

* `eq_of_line_directives`, that directives stand on lines of their own;
* `Named.WellKeyed`, which cursors have keys, and `usr_eq_of_entity?`, names within a declaration;
* `Names` and `NameIn`, what is named in a text, and `NameIn.eq_of_spans`;
* `eq_of_isNamedAt`, that the nodes of a unit at a place agree.
-/

namespace SketchSense.Model

/-! ## Directives -/

/-- Where the line ends first, all that follows but the line feed itself is on later lines. -/
theorem Cuts.lt_line_of_head? {b b' : Bool} {s rest : List Char} {ps : List Piece}
    (h : Cuts b s ps b' rest) (hend : ∀ c, s.head? = some c → c = '\n') {p : Place}
    {e : Place × Piece} (he : e ∈ placed p ps) (hkind : e.2.kind ≠ .newline) :
    p.line < e.1.line := by
  cases h with
  | done => cases he
  | piece hfront _ =>
    obtain rfl := hend _ rfl
    rw [front_newline] at hfront
    cases hfront
    rw [placed] at he
    rcases List.mem_cons.1 he with rfl | he
    · exact absurd rfl hkind
    · exact lt_line_of_mem_placed he List.mem_cons_self

theorem exists_of_directive? {e : Place × Piece} {d : Directive} (h : directive? e = some d) :
    e.2.kind = .directive ∧ d.place = e.1 := by
  unfold directive? at h
  split at h
  · next hkind =>
    cases h
    exact ⟨hkind, rfl⟩
  · cases h

/-- Each directive stands on a line below the ones before it. -/
theorem Cuts.pairwise_directives {b b' : Bool} {s rest : List Char} {ps : List Piece}
    (h : Cuts b s ps b' rest) (p : Place) :
    ((placed p ps).filterMap directive?).Pairwise fun x y => x.place.line < y.place.line := by
  induction h generalizing p with
  | done => exact .nil
  | @piece b b' c cs rest kind split ps hfront hrest ih =>
    rw [placed, List.filterMap_cons]
    cases hd : directive? (p, ⟨kind, c :: split.1⟩) with
    | none => exact ih _
    | some d =>
      obtain ⟨hkind, hplace⟩ := exists_of_directive? hd
      refine List.pairwise_cons.2 ⟨?_, ih _⟩
      intro y hy
      obtain ⟨e, he, hey⟩ := List.mem_filterMap.1 hy
      obtain ⟨hkind', hplace'⟩ := exists_of_directive? hey
      obtain rfl : kind = .directive := hkind
      have hlt := hrest.lt_line_of_head? (rest_of_directive hfront).2 he (by rw [hkind']; decide)
      have hle := Place.line_le (Place.le_after p (c :: split.1))
      rw [hplace, hplace']
      exact Nat.lt_of_le_of_lt hle hlt

/-- Directives stand on lines of their own. -/
theorem eq_of_line_directives {text : String} {lx : Lexed} (h : lex text = .ok lx) {x y : Directive}
    (hx : x ∈ lx.directives) (hy : y ∈ lx.directives) (hline : x.place.line = y.place.line) :
    x = y := by
  obtain ⟨ps, b, hcuts, rfl⟩ := exists_cuts_of_lex h
  by_contra hne
  have hpairs := (hcuts.pairwise_directives .start).imp (fun hlt => Nat.ne_of_lt hlt)
  have hsymm : Std.Symm fun x y : Directive => x.place.line ≠ y.place.line :=
    ⟨fun _ _ hxy heq => hxy heq.symm⟩
  exact hpairs.forall hx hy hne hline

/-! ## Keys -/

/-- A cursor with a key is a symbol with a name, and one that can be referred to has a key. -/
structure Named.WellKeyed (n : Named) : Prop where
  symbol : n.cursor.usr ≠ "" → n.cursor.kind.isSymbol = true
  named : n.cursor.usr ≠ "" → n.nameLength ≠ 0
  target : isTarget n.cursor = true → n.cursor.usr ≠ ""

theorem append_ne_empty {s : String} (h : s ≠ "") (t : String) : s ++ t ≠ "" := by
  intro heq
  exact h (String.append_eq_empty_iff.1 heq).1

theorem Named.wellKeyed_of_symbol {n : Named} (husr : n.cursor.usr ≠ "")
    (hkind : n.cursor.kind.isSymbol = true) (hlength : n.nameLength ≠ 0) : n.WellKeyed :=
  ⟨fun _ => hkind, fun _ => hlength, fun _ => husr⟩

theorem Named.wellKeyed_of_not_isTarget {n : Named} (husr : n.cursor.usr = "")
    (htarget : isTarget n.cursor = false) : n.WellKeyed := by
  refine ⟨fun h => absurd husr h, fun h => absurd husr h, fun h => ?_⟩
  rw [htarget] at h
  cases h

theorem FunctionHead.usr_cursor_ne (h : FunctionHead) (file : FilePath) (isDefinition : Bool)
    (stop : Location) : (h.cursor file isDefinition stop).usr ≠ "" :=
  append_ne_empty (by decide) _

theorem wellKeyed_of_member? {file : FilePath} {owner : String} {d : Declaration} {n : Named}
    (h : member? file owner d = some n) (hpos : ∀ t ∈ d.tokens, 0 < t.length) : n.WellKeyed := by
  unfold member? at h
  split at h
  · next head hread =>
    cases h
    have hlength := hpos _ (FunctionHead.mem_of_read? hread).1
    exact Named.wellKeyed_of_symbol (by simp [toString]) rfl (Nat.ne_of_gt hlength)
  · dsimp only at h
    split at h
    · next t hlast =>
      split at h
      · split at h
        · cases h
        · cases h
          have hlength := hpos t (mem_declarator (List.mem_of_getLast? hlast))
          exact Named.wellKeyed_of_symbol (by simp [toString]) rfl (Nat.ne_of_gt hlength)
      · cases h
    · cases h

theorem wellKeyed_of_statement? {file : FilePath} {ts : List Token} {e : Entity}
    (h : statement? file ts = some e) (hpos : ∀ t ∈ ts, 0 < t.length) : e.top.WellKeyed := by
  unfold statement? at h
  split at h
  · next head hread =>
    cases h
    have hlength := hpos _ (FunctionHead.mem_of_read? hread).1
    exact Named.wellKeyed_of_symbol (head.usr_cursor_ne _ _ _) rfl (Nat.ne_of_gt hlength)
  · dsimp only at h
    split at h
    · cases h
    · next t hlast =>
      split at h
      · cases h
      · split at h
        · cases h
        · obtain ⟨⟨kind, usr⟩, hkind, rfl⟩ := Option.map_eq_some_iff.1 h
          have hlength := Nat.ne_of_gt (hpos t (mem_declarator (List.mem_of_getLast? hlast)))
          unfold variableKind? at hkind
          split at hkind <;> cases hkind
          · exact Named.wellKeyed_of_symbol (append_ne_empty (by decide) _) rfl hlength
          · exact Named.wellKeyed_of_symbol (append_ne_empty (by decide) _) rfl hlength

/-- A record is named by the second token of its head, and its members by tokens of its block. -/
theorem exists_of_record? {file : FilePath} {head : List Token} {block : Block} {e : Entity}
    (h : record? file head block = .ok (some e)) :
    ∃ first t rest name, head = first :: t :: rest ∧ t.word? = some name ∧
      e.top.cursor.location = t.location file ∧ e.top.nameLength = t.length ∧
      e.top.cursor.kind.isSymbol = true ∧ e.top.cursor.usr = "c:@S@" ++ name ∧
      ∀ n ∈ e.below, ∃ d ∈ declarations true block.insideTokens, member? file name d = some n := by
  unfold record? at h
  split at h
  · next first t rest =>
    split at h
    · next kind name hkind hname =>
      have hsymbol : kind.isSymbol = true := by
        unfold recordKind? at hkind
        split at hkind <;> cases hkind <;> rfl
      refine ⟨first, t, rest, name, rfl, hname, ?_⟩
      dsimp only at h
      split at h
      · cases h
        exact ⟨rfl, rfl, hsymbol, rfl, by simp⟩
      · split at h
        · cases h
        · next inside hinside =>
          cases h
          refine ⟨rfl, rfl, hsymbol, rfl, fun n hn => ?_⟩
          obtain ⟨d, hd, hmember⟩ := List.mem_filterMap.1 hn
          refine ⟨d, ?_, hmember⟩
          unfold Block.insideTokens
          rw [hinside]
          exact hd
    · cases h
  · cases h

/-- A parameter has no key and cannot be referred to. -/
theorem usr_of_parameter? {h : FunctionHead} {file : FilePath} {p : Parameter} {n : Named}
    (hn : h.parameter? file p = some n) : n.cursor.usr = "" ∧ isTarget n.cursor = false := by
  unfold FunctionHead.parameter? at hn
  split at hn
  · cases hn
  · obtain ⟨t, -, rfl⟩ := Option.map_eq_some_iff.1 hn
    exact ⟨rfl, rfl⟩

theorem wellKeyed_of_macro? {file : FilePath} {x : Directive} {e : Entity}
    (h : x.macro? file = some e) : e.top.WellKeyed := by
  unfold Directive.macro? at h
  split at h
  · dsimp only at h
    split at h
    · cases h
    · next hname =>
      cases h
      refine Named.wellKeyed_of_symbol (append_ne_empty (by decide) _) rfl ?_
      exact fun hzero => hname (List.length_eq_zero_iff.1 hzero)
  · cases h

/-- All cursors of a declaration are well keyed. -/
theorem wellKeyed_of_entity? {file : FilePath} {d : Declaration} {e : Entity}
    (h : d.entity? file = .ok (some e)) (hpos : ∀ t ∈ d.parts, 0 < t.length) :
    ∀ n ∈ e.top :: e.below, n.WellKeyed := by
  intro n hn
  have htokens : ∀ t ∈ d.tokens, 0 < t.length := fun t ht => hpos t (List.mem_append_left _ ht)
  rcases entity?_cases h with ⟨head, block, inside, hd, -, -, he⟩ |
    ⟨-, ⟨-, hstatement⟩ | ⟨block, hblock, hrecord⟩⟩
  · cases he
    obtain ⟨-, -, hread⟩ := Option.bind_eq_some_iff.1 hd
    rcases List.mem_cons.1 hn with rfl | hn
    · have hlength := htokens _ (FunctionHead.mem_of_read? hread).1
      exact Named.wellKeyed_of_symbol (head.usr_cursor_ne _ _ _) rfl (Nat.ne_of_gt hlength)
    · rcases List.mem_cons.1 hn with rfl | hn
      · exact Named.wellKeyed_of_not_isTarget rfl rfl
      · obtain ⟨p, -, hp⟩ := List.mem_filterMap.1 hn
        obtain ⟨husr, htarget⟩ := usr_of_parameter? hp
        exact Named.wellKeyed_of_not_isTarget husr htarget
  · obtain ⟨-, hbelow, -⟩ := namedBy_of_statement? hstatement
    rw [hbelow] at hn
    rw [List.mem_singleton.1 hn]
    exact wellKeyed_of_statement? hstatement htokens
  · obtain ⟨first, t, rest, name, htoks, -, -, hlength, hkind, husr, hbelow⟩ :=
      exists_of_record? hrecord
    rcases List.mem_cons.1 hn with rfl | hn
    · refine Named.wellKeyed_of_symbol ?_ hkind ?_
      · rw [husr]
        exact append_ne_empty (by decide) _
      · rw [hlength]
        exact Nat.ne_of_gt (htokens t (by simp [htoks]))
    · obtain ⟨x, hx, hmember⟩ := hbelow n hn
      refine wellKeyed_of_member? hmember fun u hu => hpos u (List.mem_append_right _ ?_)
      rw [hblock]
      exact mem_of_mem_tokens hx hu

/-! ## Names within a declaration -/

theorem place_eq_of_location_eq {t u : Token} {file : FilePath}
    (h : t.location file = u.location file) : t.place = u.place := by
  have hline : t.place.line = u.place.line := congrArg Location.line h
  have hcolumn : t.place.column = u.place.column := congrArg Location.column h
  calc t.place = ⟨t.place.line, t.place.column⟩ := rfl
    _ = ⟨u.place.line, u.place.column⟩ := by rw [hline, hcolumn]

/-- Tokens at one location are one token. -/
theorem InOrder.eq_of_location_eq {ts : List Token} (h : InOrder ts) {t u : Token} (ht : t ∈ ts)
    (hu : u ∈ ts) {file : FilePath} (hlocation : t.location file = u.location file) : t = u := by
  have hplace := place_eq_of_location_eq hlocation
  have htc : t.Covers t.place.line t.place.column :=
    ⟨rfl, Nat.le_refl _, Nat.lt_add_of_pos_right (h.2 t ht)⟩
  have huc : u.Covers t.place.line t.place.column := by
    rw [hplace]
    exact ⟨rfl, Nat.le_refl _, Nat.lt_add_of_pos_right (h.2 u hu)⟩
  exact h.eq_of_covers ht hu htc huc

theorem InOrder.sublist {ts us : List Token} (h : InOrder ts) (hsub : us.Sublist ts) : InOrder us :=
  ⟨h.1.sublist hsub, fun t ht => h.2 t (hsub.subset ht)⟩

/-- No token belongs to two declarations. -/
theorem eq_of_mem_parts {inRecord : Bool} {ts : List Token} (h : ts.Nodup) {x y : Declaration}
    (hx : x ∈ declarations inRecord ts) (hy : y ∈ declarations inRecord ts) {t : Token}
    (htx : t ∈ x.parts) (hty : t ∈ y.parts) : x = y := by
  obtain ⟨-, hpairs⟩ := List.nodup_flatMap.1 (h.sublist (parts_sublist inRecord ts))
  by_contra hne
  have hsymm : Std.Symm (Function.onFun List.Disjoint Declaration.parts) :=
    ⟨fun _ _ h a ha hb => h hb ha⟩
  exact hpairs.forall hx hy hne htx hty

theorem parts_sublist_of_mem {inRecord : Bool} {ts : List Token} {d : Declaration}
    (hd : d ∈ declarations inRecord ts) : d.parts.Sublist ts :=
  (List.sublist_flatten_of_mem (List.mem_map_of_mem hd)).trans (parts_sublist inRecord ts)

/-- The name of a function is none of the tokens behind it. -/
theorem FunctionHead.name_not_mem_rest {ts : List Token} {h : FunctionHead}
    (hread : read? ts = some h) (hnodup : ts.Nodup) : h.name ∉ h.rest := by
  obtain ⟨types, name, paren, rest, -, rfl, rfl⟩ := read?_eq_some_iff.1 hread
  have hname := (List.nodup_cons.1 (List.nodup_append.1 hnodup).2.1).1
  exact hname

section OneDeclaration

variable {file : FilePath} {e : Entity} {n n' : Named} (hn : n ∈ e.top :: e.below)
  (hn' : n' ∈ e.top :: e.below) (hnamed : n.nameLength ≠ 0) (hnamed' : n'.nameLength ≠ 0)
  (hlocation : n.cursor.location = n'.cursor.location)

include hn hn' hnamed hnamed' hlocation

/-- The parameters of a function are named behind it, and none of them has a key. -/
theorem usr_eq_of_defined {ts : List Token} {head : FunctionHead} {block : Block}
    {inside : List Token} (hread : FunctionHead.read? ts = some head) (horder : InOrder ts)
    (he : e = head.defined file block inside) : n.cursor.usr = n'.cursor.usr := by
  subst he
  have hparameter {m : Named} (hm : m ∈ (head.defined file block inside).below)
      (hlength : m.nameLength ≠ 0) :
      m.cursor.usr = "" ∧ m.cursor.location ≠ head.name.location file := by
    rcases List.mem_cons.1 hm with rfl | hm
    · exact absurd rfl hlength
    · obtain ⟨p, -, hp⟩ := List.mem_filterMap.1 hm
      refine ⟨(usr_of_parameter? hp).1, fun heq => ?_⟩
      obtain ⟨t, ht, hat, -⟩ := (namedBy_of_parameter? hp).resolve_left hlength
      obtain ⟨hname, hrest, -⟩ := FunctionHead.mem_of_read? hread
      obtain rfl := horder.eq_of_location_eq (hrest t ht) hname (hat.symm.trans heq)
      exact FunctionHead.name_not_mem_rest hread horder.nodup ht
  rcases List.mem_cons.1 hn with rfl | hn
  · rcases List.mem_cons.1 hn' with rfl | hn'
    · rfl
    · exact absurd hlocation.symm (hparameter hn' hnamed').2
  · rcases List.mem_cons.1 hn' with rfl | hn'
    · exact absurd hlocation (hparameter hn hnamed).2
    · rw [(hparameter hn hnamed).1, (hparameter hn' hnamed').1]

/-- The members of a record are named in its block, each by a token of its own declaration, and the
record before it. -/
theorem usr_eq_of_record? {ts : List Token} {block : Block}
    (hrecord : record? file ts block = .ok (some e)) (horder : InOrder (ts ++ block.insideTokens)) :
    n.cursor.usr = n'.cursor.usr := by
  obtain ⟨first, t, rest, name, htokens, -, hat, -, -, -, hbelow⟩ := exists_of_record? hrecord
  have ht : t ∈ ts := by simp [htokens]
  have hmember {m : Named} (hm : m ∈ e.below) (hlength : m.nameLength ≠ 0) :
      ∃ x ∈ declarations true block.insideTokens, member? file name x = some m ∧
        ∃ u ∈ x.tokens, m.cursor.location = u.location file := by
    obtain ⟨x, hx, hxm⟩ := hbelow m hm
    obtain ⟨u, hu, hmu, -⟩ := (namedBy_of_member? hxm).resolve_left hlength
    exact ⟨x, hx, hxm, u, hu, hmu⟩
  have hapart {m : Named} (hm : m ∈ e.below) (hlength : m.nameLength ≠ 0) :
      m.cursor.location ≠ e.top.cursor.location := by
    intro heq
    obtain ⟨x, hx, -, u, hu, hmu⟩ := hmember hm hlength
    have huin : u ∈ block.insideTokens := mem_of_mem_tokens hx hu
    have hsame := horder.eq_of_location_eq (List.mem_append_right _ huin)
      (List.mem_append_left _ ht) (hmu.symm.trans (heq.trans hat))
    exact (List.nodup_append.1 horder.nodup).2.2 t ht u huin hsame.symm
  rcases List.mem_cons.1 hn with rfl | hn
  · rcases List.mem_cons.1 hn' with rfl | hn'
    · rfl
    · exact absurd hlocation.symm (hapart hn' hnamed')
  · rcases List.mem_cons.1 hn' with rfl | hn'
    · exact absurd hlocation (hapart hn hnamed)
    · obtain ⟨x, hx, hxm, u, hu, hmu⟩ := hmember hn hnamed
      obtain ⟨x', hx', hxm', u', hu', hmu'⟩ := hmember hn' hnamed'
      have hinside : InOrder block.insideTokens := horder.sublist (List.sublist_append_right _ _)
      obtain rfl := hinside.eq_of_location_eq (mem_of_mem_tokens hx hu)
        (mem_of_mem_tokens hx' hu') (hmu.symm.trans (hlocation.trans hmu'))
      obtain rfl := eq_of_mem_parts hinside.nodup hx hx' (List.mem_append_left _ hu)
        (List.mem_append_left _ hu')
      rw [hxm] at hxm'
      cases hxm'
      rfl

/-- Cursors of a declaration that stand at one location have one key. -/
theorem usr_eq_of_entity? {d : Declaration} (h : d.entity? file = .ok (some e))
    (horder : InOrder d.parts) : n.cursor.usr = n'.cursor.usr := by
  rcases entity?_cases h with ⟨head, block, inside, hd, -, -, he⟩ |
    ⟨-, ⟨-, hstatement⟩ | ⟨block, hblock, hrecord⟩⟩
  · obtain ⟨-, -, hread⟩ := Option.bind_eq_some_iff.1 hd
    have htokens : InOrder d.tokens := horder.sublist (List.sublist_append_left _ _)
    exact usr_eq_of_defined hn hn' hnamed hnamed' hlocation hread htokens (Option.some.inj he)
  · obtain ⟨-, hbelow, -⟩ := namedBy_of_statement? hstatement
    rw [hbelow, List.mem_singleton] at hn hn'
    rw [hn, hn']
  · have hparts : d.parts = d.tokens ++ block.insideTokens := by
      unfold Declaration.parts
      rw [hblock]
      rfl
    rw [hparts] at horder
    exact usr_eq_of_record? hn hn' hnamed hnamed' hlocation hrecord horder

end OneDeclaration

/-! ## Names in a text -/

/-- A token of a text is a name of what has a key: it names a cursor of its declaration, or it is a
word of a body and the name of something declared. -/
inductive Names (file : FilePath) (lx : Lexed) (declared : List Draft) (t : Token) : String → Prop
  | declared {x : Declaration} {e : Entity} {n : Named} (hx : x ∈ declarations false lx.tokens)
      (h : x.entity? file = .ok (some e)) (hn : n ∈ e.top :: e.below) (ht : t ∈ x.naming)
      (hlocation : n.cursor.location = t.location file) (hlength : n.nameLength = t.length) :
      Names file lx declared t n.cursor.usr
  | used {name : String} {target : Cursor} (h : InBody lx.tokens t name)
      (htarget : target? declared name = some target) : Names file lx declared t target.usr

/-- A name in a text: it starts at a location, has a length and belongs to what has a key. -/
inductive NameIn (file : FilePath) (lx : Lexed) (declared : List Draft) :
    Location → Nat → String → Prop
  | directive {x : Directive} {e : Entity} (hx : x ∈ lx.directives) (h : x.macro? file = some e) :
      NameIn file lx declared e.top.cursor.location e.top.nameLength e.top.cursor.usr
  | token {t : Token} {usr : String} (h : Names file lx declared t usr) :
      NameIn file lx declared (t.location file) t.length usr

/-- A place of a line is within a name that starts at a location. -/
def Spans (l : Location) (length line column : Nat) : Prop :=
  l.line = line ∧ l.column ≤ column ∧ column < l.column + length

section OneText

variable {file : FilePath} {text : String} {lx : Lexed} {declared : List Draft} {t : Token}
  {usr usr' : String}

/-- A word that an entity uses is in the body of its declaration. -/
theorem inBody_of_uses {x : Declaration} {e : Entity} {name : String}
    (hx : x ∈ declarations false lx.tokens) (h : x.entity? file = .ok (some e)) (ht : t ∈ e.uses)
    (hword : t.word? = some name) : InBody lx.tokens t name := by
  refine ⟨hword, List.mem_flatMap.2 ⟨x, hx, ?_⟩⟩
  rcases entity?_cases h with ⟨head, block, inside, hd, hb, hinside, he⟩ |
    ⟨-, ⟨-, hstatement⟩ | ⟨block, -, hrecord⟩⟩
  · cases he
    have hdefined : x.defined?.isSome = true := by
      rw [hd]
      rfl
    unfold Declaration.bodyTokens
    rw [if_pos hdefined, insideTokens_of_block hb hinside]
    exact (List.mem_filter.1 ht).1
  · rw [(namedBy_of_statement? hstatement).2.2] at ht
    cases ht
  · rw [(namedBy_of_record? hrecord).2] at ht
    cases ht

theorem Names.mem_tokens (h : Names file lx declared t usr) : t ∈ lx.tokens := by
  cases h with
  | declared hx _ _ ht => exact mem_of_mem_parts hx (Declaration.naming_sublist _ |>.subset ht)
  | used h => exact h.mem

/-- A token is the name of one thing only. -/
theorem Names.usr_eq (horder : InOrder lx.tokens) (h : Names file lx declared t usr)
    (h' : Names file lx declared t usr') : usr = usr' := by
  have hlength := horder.2 t h.mem_tokens
  cases h with
  | @declared x e n hx hxe hn ht hat hn₁ =>
    cases h' with
    | @declared x' e' n' hx' hxe' hn' ht' hat' hn₁' =>
      obtain rfl := eq_of_mem_parts horder.nodup hx hx' (x.naming_sublist.subset ht)
        (x'.naming_sublist.subset ht')
      rw [hxe] at hxe'
      cases hxe'
      exact usr_eq_of_entity? hn hn' (by omega) (by omega) (hat.trans hat'.symm) hxe
        (horder.sublist (parts_sublist_of_mem hx))
    | used hbody _ => exact absurd ht (hbody.not_mem_naming horder.nodup hx)
  | @used name target hbody htarget =>
    cases h' with
    | declared hx' _ _ ht' => exact absurd ht' (hbody.not_mem_naming horder.nodup hx')
    | used hbody' htarget' =>
      obtain rfl : name = _ := Option.some.inj (hbody.1.symm.trans hbody'.1)
      rw [htarget] at htarget'
      cases htarget'
      rfl

/-- A name is in the file of its text. -/
theorem NameIn.file_eq {l : Location} {length : Nat} (h : NameIn file lx declared l length usr) :
    l.file = file := by
  cases h with
  | directive hx hxe =>
    unfold Directive.macro? at hxe
    split at hxe
    · dsimp only at hxe
      split at hxe
      · cases hxe
      · cases hxe
        rfl
    · cases hxe
  | token => rfl

variable (hlex : lex text = .ok lx)

include hlex

/-- Names at one place start at one location and belong to one key. -/
theorem NameIn.eq_of_spans {l l' : Location} {length length' line column : Nat}
    (h : NameIn file lx declared l length usr) (h' : NameIn file lx declared l' length' usr')
    (hspans : Spans l length line column) (hspans' : Spans l' length' line column) :
    l = l' ∧ usr = usr' := by
  -- no token is on the line of a macro
  have hapart {x : Directive} {e : Entity} {u : Token} (hx : x ∈ lx.directives)
      (hxe : x.macro? file = some e) (hu : u ∈ lx.tokens) :
      u.place.line ≠ e.top.cursor.location.line := by
    rw [(of_macro? hxe).1]
    exact line_ne_of_mem_directives hlex hx hu
  have horder := inOrder_tokens hlex
  cases h with
  | directive hx hxe =>
    cases h' with
    | directive hx' hxe' =>
      have hline := hspans.1.trans hspans'.1.symm
      rw [(of_macro? hxe).1, (of_macro? hxe').1] at hline
      obtain rfl := eq_of_line_directives hlex hx hx' hline
      rw [hxe] at hxe'
      cases hxe'
      exact ⟨rfl, rfl⟩
    | token hu =>
      exact absurd (hspans'.1.trans hspans.1.symm) (hapart hx hxe hu.mem_tokens)
  | token hu =>
    cases h' with
    | directive hx' hxe' =>
      exact absurd (hspans.1.trans hspans'.1.symm) (hapart hx' hxe' hu.mem_tokens)
    | token hu' =>
      obtain rfl := horder.eq_of_covers hu.mem_tokens hu'.mem_tokens hspans hspans'
      exact ⟨rfl, hu.usr_eq horder hu'⟩

end OneText

/-! ## Names in a unit -/

section Unit

variable {buffers : List FileBuffer} {files : List FileModel}

/-- What is known of a text that was read into a unit. -/
theorem exists_buffer_of_mem (hfiles : buffers.mapM FileModel.ofBuffer = .ok files) {e : Entity}
    (he : e ∈ files.flatMap (·.entities)) :
    ∃ b ∈ buffers, ∃ lx, lex b.code = .ok lx ∧
      ((∃ x ∈ lx.directives, x.macro? b.path = some e) ∨
        ∃ x ∈ declarations false lx.tokens, x.entity? b.path = .ok (some e)) := by
  obtain ⟨m, hm, he⟩ := List.mem_flatMap.1 he
  obtain ⟨b, hb, hread⟩ := (mem_of_mapM_eq_ok hfiles).2 m hm
  obtain ⟨lx, -, hlex, -⟩ := ofBuffer_eq_ok.1 hread
  exact ⟨b, hb, lx, hlex, mem_entities hlex hread he⟩

theorem wellKeyed_of_mem (hfiles : buffers.mapM FileModel.ofBuffer = .ok files) {e : Entity}
    (he : e ∈ files.flatMap (·.entities)) : ∀ n ∈ e.top :: e.below, n.WellKeyed := by
  obtain ⟨b, -, lx, hlex, ⟨x, -, hx⟩ | ⟨x, hx, hentity⟩⟩ := exists_buffer_of_mem hfiles he
  · intro n hn
    rw [(of_macro? hx).2.1, List.mem_singleton] at hn
    rw [hn]
    exact wellKeyed_of_macro? hx
  · exact wellKeyed_of_entity? hentity
      fun t ht => (inOrder_tokens hlex).2 t (mem_of_mem_parts hx ht)

/-- Every node with a name takes it from one of the texts. -/
theorem exists_nameIn (hfiles : buffers.mapM FileModel.ofBuffer = .ok files) {d : Draft}
    (hd : d ∈ draftsOf (files.flatMap (·.entities))) (hnamed : d.nameLength ≠ 0) :
    ∃ b ∈ buffers, ∃ lx, lex b.code = .ok lx ∧
      NameIn b.path lx (numberAll 0 (files.flatMap (·.entities))) d.cursor.location d.nameLength
        d.cursor.usr := by
  rcases List.mem_append.1 hd with hd | hd
  · obtain ⟨e, he, n, hn, i, p, rfl⟩ := mem_numberAll hd
    obtain ⟨b, hb, lx, hlex, hmade⟩ := exists_buffer_of_mem hfiles he
    refine ⟨b, hb, lx, hlex, ?_⟩
    show NameIn b.path lx _ n.cursor.location n.nameLength n.cursor.usr
    rcases hmade with ⟨x, hx, hmacro⟩ | ⟨x, hx, hentity⟩
    · rw [(of_macro? hmacro).2.1, List.mem_singleton] at hn
      rw [hn]
      exact .directive hx hmacro
    · obtain ⟨t, ht, hat, hlength⟩ := (namedBy_of_entity? hentity n hn).resolve_left hnamed
      rw [hat, hlength]
      exact .token (.declared hx hentity hn ht hat hlength)
  · obtain ⟨d', hd', i, rfl⟩ := mem_renumber hd
    obtain ⟨w, hw, hdraft⟩ := List.mem_filterMap.1 hd'
    obtain ⟨name, target, hname, htarget, husr, -, hat, hlength, -⟩ :=
      exists_draft_of_draft? hdraft
    obtain ⟨e, he, huse, hfile⟩ := mem_usesOf hw
    obtain ⟨b, hb, lx, hlex, hmade⟩ := exists_buffer_of_mem hfiles he
    refine ⟨b, hb, lx, hlex, ?_⟩
    dsimp only
    rcases hmade with ⟨x, -, hmacro⟩ | ⟨x, hx, hentity⟩
    · rw [(of_macro? hmacro).2.2.1] at huse
      cases huse
    · rw [hat, hlength, husr, hfile, (mem_parts_of_uses hentity huse).2]
      exact .token (.used (inBody_of_uses hx hentity huse hname) htarget)

end Unit

/-- The nodes of a unit at one place stand at one location and have one key. -/
theorem eq_of_isNamedAt {main : FilePath} {unsaved : List FileBuffer} {u : CompilationUnit}
    (hu : buildUnit main unsaved = .ok u)
    (hpaths : ∀ a ∈ unsaved, ∀ b ∈ unsaved, (a.path == b.path) = true → a = b) {n n' : Node}
    (hn : n ∈ u.nodes) (hn' : n' ∈ u.nodes) {l : Location} (h : n.isNamedAt l = true)
    (h' : n'.isNamedAt l = true) :
    n.cursor.location = n'.cursor.location ∧ n.cursor.usr = n'.cursor.usr := by
  obtain ⟨files, hfiles, rfl⟩ := buildUnit_eq_ok.1 hu
  obtain ⟨d, hd, rfl⟩ := List.mem_map.1 hn
  obtain ⟨d', hd', rfl⟩ := List.mem_map.1 hn'
  obtain ⟨hfile, hspans⟩ := isNamedAt_iff.1 h
  obtain ⟨hfile', hspans'⟩ := isNamedAt_iff.1 h'
  have hne {d : Draft} (h : Spans d.cursor.location d.nameLength l.line l.column) :
      d.nameLength ≠ 0 := by
    obtain ⟨-, hle, hlt⟩ := h
    omega
  obtain ⟨b, hb, lx, hlex, hname⟩ := exists_nameIn hfiles hd (hne hspans)
  obtain ⟨b', hb', lx', hlex', hname'⟩ := exists_nameIn hfiles hd' (hne hspans')
  -- both names are in the text at the file of the place
  have hpath : (b.path == b'.path) = true := by
    rw [← hname.file_eq, ← hname'.file_eq]
    exact PartialEquivBEq.trans hfile (PartialEquivBEq.symm hfile')
  obtain rfl := hpaths b (mem_mainLast.1 hb) b' (mem_mainLast.1 hb') hpath
  rw [hlex] at hlex'
  cases hlex'
  exact hname.eq_of_spans hlex hname' hspans hspans'

end SketchSense.Model
