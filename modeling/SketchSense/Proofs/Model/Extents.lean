import SketchSense.Proofs.Cache.Reading
import SketchSense.Proofs.Model.Linking
import SketchSense.Proofs.Model.Relocation
import SketchSense.Proofs.Symbol.Collect
import SketchSense.Proofs.Text.Snippet

/-!
# The lines of declarations

A name stands on a line that shows something, and a body does not end above the name of its function.
So the lines from a name to the end of its body show something.

* `NameIn.showsAt`, the line of a name;
* `line_le_of_body?`, the last line of a body;
* `CachedUnit.ReadAlone.line_le_of_bodyOf?`, the same for the cursors of a unit.
-/

namespace SketchSense

theorem CursorKind.isFunctionLike_of_isReference {k : CursorKind} (h : k.isReference = true) :
    k.isFunctionLike = false := by
  cases k <;> first | rfl | cases h

namespace Model

/-! ## Lines of names -/

/-- Neither a line end nor blank space starts what the parser sees, or a directive. -/
theorem head_of_isOnLine {b : Bool} {c : Char} {cs : List Char} {kind : PieceKind} {split : Split}
    (h : front b c cs = .ok (kind, split)) (hline : (Piece.mk kind (c :: split.1)).isOnLine = true) :
    c ≠ '\n' ∧ c ≠ '\r' := by
  have hfront : c ≠ '\n' ∧ isSpace c = false := by
    unfold front at h
    split at h
    · cases h
      cases hline
    · next hnewline =>
      refine ⟨hnewline, ?_⟩
      split at h
      · cases h
        cases hline
      · next hspace => simpa using hspace
  refine ⟨hfront.1, ?_⟩
  rintro rfl
  exact absurd hfront.2 (by decide)

/-- What the parser sees starts neither with a line end nor with blank space. -/
theorem Cuts.exists_head {b b' : Bool} {s rest : List Char} {ps : List Piece}
    (h : Cuts b s ps b' rest) {p : Piece} (hp : p ∈ ps) (hline : p.isOnLine = true) :
    ∃ c cs, p.text = c :: cs ∧ c ≠ '\n' ∧ c ≠ '\r' := by
  induction h with
  | done => cases hp
  | piece hfront _ ih =>
    rcases List.mem_cons.1 hp with rfl | hp
    · exact ⟨_, _, rfl, head_of_isOnLine hfront hline⟩
    · exact ih hp

/-- A piece that stays on its line stands on one that shows something. -/
theorem showsAt_of_mem_placed {code : String} {ps : List Piece} {b : Bool}
    (hcuts : Cuts true code.toList ps b []) {e : Place × Piece} (he : e ∈ placed .start ps)
    (hline : e.2.isOnLine = true) : Text.ShowsAt code e.1.line := by
  obtain ⟨before, behind, htext, hplace⟩ := exists_append_of_mem_placed he
  obtain ⟨c, cs, hcons, hdark⟩ := hcuts.exists_head (le_of_mem_placed he).2.2 hline
  have hcode : code.toList = before ++ c :: (cs ++ behind) := by
    rw [hcuts.text_eq, List.append_nil, htext, hcons, List.cons_append]
  obtain ⟨l, hl, hc⟩ := Text.exists_line_of_append before hdark.1 (cs ++ behind)
  rw [hplace, Place.line_after]
  refine ⟨Nat.le_add_right 1 _, l, ?_, c, hc, hdark.2⟩
  rw [hcode, Place.start, Nat.add_sub_cancel_left]
  exact hl

variable {code : String} {lx : Lexed}

theorem showsAt_of_mem_tokens (hlex : lex code = .ok lx) {t : Token} (ht : t ∈ lx.tokens) :
    Text.ShowsAt code t.place.line := by
  obtain ⟨ps, b, hcuts, rfl⟩ := exists_cuts_of_lex hlex
  obtain ⟨e, he, htoken⟩ := List.mem_filterMap.1 ht
  obtain ⟨lexeme, hlexeme, rfl⟩ := exists_piece_of_token? htoken
  exact showsAt_of_mem_placed hcuts he (by simp [Piece.isOnLine, hlexeme])

theorem showsAt_of_mem_directives (hlex : lex code = .ok lx) {d : Directive}
    (hd : d ∈ lx.directives) : Text.ShowsAt code d.place.line := by
  obtain ⟨ps, b, hcuts, rfl⟩ := exists_cuts_of_lex hlex
  obtain ⟨e, he, hdirective⟩ := List.mem_filterMap.1 hd
  obtain ⟨hkind, hplace⟩ := exists_of_directive? hdirective
  rw [hplace]
  exact showsAt_of_mem_placed hcuts he (by simp [Piece.isOnLine, hkind])

/-- A name stands on a line that shows something. -/
theorem NameIn.showsAt {file : FilePath} {declared : List Draft} {l : Location} {length : Nat}
    {usr : String} (hlex : lex code = .ok lx) (h : NameIn file lx declared l length usr) :
    Text.ShowsAt code l.line := by
  cases h with
  | directive hx h =>
    rw [(of_macro? h).1]
    exact showsAt_of_mem_directives hlex hx
  | token h =>
    cases h with
    | declared hx _ _ ht =>
      exact showsAt_of_mem_tokens hlex
        (mem_of_mem_parts hx ((Declaration.naming_sublist _).subset ht))
    | used h => exact showsAt_of_mem_tokens hlex h.mem

/-! ## Ends of bodies -/

/-- A token of a declaration stands before the end of its block. -/
theorem pair_sublist_of_mem_declarationsFrom {inRecord : Bool} {head ts : List Token} :
    ∀ d ∈ declarationsFrom inRecord head ts, ∀ b ∈ d.block, ∀ t ∈ d.tokens,
      [t, b.last].Sublist (head ++ ts) := by
  fun_induction declarationsFrom inRecord head ts with
  | case1 head => simp
  | case2 head t ts h ih =>
    intro d hd b hb u hu
    exact ((ih d hd b hb u hu).trans (List.sublist_cons_self t ts)).trans
      (List.sublist_append_right head _)
  | case3 head t ts h hbrace block hlen ih =>
    intro d hd b hb u hu
    rcases List.mem_cons.1 hd with rfl | hd
    · cases hb
      have hlast := (Block.last_mem t ts).2
      exact (List.singleton_sublist.2 hu).append (List.singleton_sublist.2 hlast)
    · have hafter : block.after.Sublist ts :=
        (List.sublist_append_right _ _).trans (Block.insideTokens_sublist t ts)
      exact (((ih d hd b hb u hu).trans hafter).trans (List.sublist_cons_self t ts)).trans
        (List.sublist_append_right head _)
  | case4 head t ts h hbrace hsemi ih =>
    intro d hd b hb u hu
    rcases List.mem_cons.1 hd with rfl | hd
    · cases hb
    · exact ((ih d hd b hb u hu).trans (List.sublist_cons_self t ts)).trans
        (List.sublist_append_right head _)
  | case5 head t ts h hbrace hsemi ih =>
    intro d hd b hb u hu
    simpa using ih d hd b hb u hu

/-- A record is no function. -/
theorem isFunctionLike_of_record? {file : FilePath} {head : List Token} {block : Block} {e : Entity}
    (h : record? file head block = .ok (some e)) : e.top.cursor.kind.isFunctionLike = false := by
  unfold record? at h
  split at h
  · next first t rest =>
    split at h
    · next kind name hkind _ =>
      have hrecord : kind.isFunctionLike = false := by
        unfold recordKind? at hkind
        split at hkind <;> cases hkind <;> rfl
      dsimp only at h
      split at h
      · cases h
        exact hrecord
      · split at h
        · cases h
        · cases h
          exact hrecord
    · cases h
  · cases h

/-- The body of an entity is that of a defined function, up to the last token of its block. -/
theorem exists_defined_of_body? {file : FilePath} {d : Declaration} {e : Entity}
    (h : d.entity? file = .ok (some e)) {body : Cursor} (hbody : e.body? = some body) :
    ∃ head block, d.defined? = some head ∧ d.block = some block ∧
      e.top.cursor.location = head.name.location file ∧
      body.extentEnd = block.last.endLocation file := by
  unfold Entity.body? at hbody
  split at hbody
  · next hkind =>
    obtain ⟨n, hn, rfl⟩ := List.mem_map.1 (List.mem_of_find?_eq_some hbody)
    rcases entity?_cases h with ⟨head, block, inside, hdefined, hblock, -, he⟩ |
      ⟨-, ⟨-, hstatement⟩ | ⟨block, -, hrecord⟩⟩
    · cases he
      refine ⟨head, block, hdefined, hblock, rfl, ?_⟩
      rcases List.mem_cons.1 hn with rfl | hn
      · rfl
      · -- parameters are no bodies
        obtain ⟨p, -, hp⟩ := List.mem_filterMap.1 hn
        have hcompound := List.find?_some hbody
        unfold FunctionHead.parameter? at hp
        split at hp
        · cases hp
        · obtain ⟨t, -, rfl⟩ := Option.map_eq_some_iff.1 hp
          simp [isBodyIn] at hcompound
    · rw [(namedBy_of_statement? hstatement).2.1] at hn
      cases hn
    · rw [isFunctionLike_of_record? hrecord] at hkind
      cases hkind
  · cases hbody

/-- A body does not end above the name of its function. -/
theorem line_le_of_body? {file : FilePath} {d : Declaration} {e : Entity}
    (horder : InOrder lx.tokens) (hd : d ∈ declarations false lx.tokens)
    (h : d.entity? file = .ok (some e)) {body : Cursor} (hbody : e.body? = some body) :
    e.top.cursor.location.line ≤ body.extentEnd.line := by
  obtain ⟨head, block, hdefined, hblock, hlocation, hend⟩ := exists_defined_of_body? h hbody
  obtain ⟨-, -, hread⟩ := Option.bind_eq_some_iff.1 hdefined
  have hpair := pair_sublist_of_mem_declarationsFrom d hd block hblock head.name
    (FunctionHead.mem_of_read? hread).1
  have hle : head.name.stop ≤ block.last.place :=
    (List.pairwise_cons.1 (horder.sublist hpair).1).1 _ (List.mem_singleton_self _)
  rw [hlocation, hend]
  show head.name.stop.line ≤ block.last.place.line
  exact Place.line_le hle

/-- The declared nodes are those of the entities and those below them. -/
theorem exists_entityId_of_mem_numberAll {id : Nat} {es : List Entity} {d : Draft}
    (h : d ∈ numberAll id es) :
    ∃ x ∈ entityIds id es,
      d = x.2.top.draft x.1 none ∨ d ∈ numberBelow x.1 (x.1 + 1) x.2.below := by
  induction es generalizing id with
  | nil => cases h
  | cons e es ih =>
    rcases List.mem_append.1 h with h | h
    · exact ⟨(id, e), List.mem_cons_self, List.mem_cons.1 h⟩
    · obtain ⟨x, hx, hd⟩ := ih h
      exact ⟨x, List.mem_cons_of_mem _ hx, hd⟩

/-- A cursor with a body is that of an entity with this body. -/
theorem HasEntities.exists_of_bodyOf? {u : CachedUnit} {es : List Entity}
    (h : HasEntities u.unit es) {d : Draft} (hd : d ∈ draftsOf es) {body : Cursor}
    (hbody : u.unit.bodyOf? d.cursor = some body) :
    ∃ e ∈ es, bare d.cursor = bare e.top.cursor ∧ ∃ b, e.body? = some b ∧ bare body = bare b := by
  rcases List.mem_append.1 hd with hd | hd
  · obtain ⟨x, hx, rfl | hbelow⟩ := exists_entityId_of_mem_numberAll hd
    · have hbare := h.bodyOf?_bare hx
      rw [hbody, Option.map_some] at hbare
      obtain ⟨b, hb, hsame⟩ := Option.map_eq_some_iff.1 hbare.symm
      have hmem : x.2 ∈ (entityIds 0 es).map (·.2) := List.mem_map_of_mem hx
      rw [map_snd_entityIds] at hmem
      exact ⟨x.2, hmem, bare_draft _ _ _, b, hb, hsame.symm⟩
    · rw [h.bodyOf?_numberBelow hx hbelow] at hbody
      cases hbody
  · -- references have no bodies
    have hkind := (mem_referenceDrafts hd).1
    unfold CompilationUnit.bodyOf? at hbody
    split at hbody
    · next hlike =>
      rw [CursorKind.isFunctionLike_of_isReference hkind] at hlike
      cases hlike
    · cases hbody

end Model

open Model

/-- The body of a cursor does not end above it. -/
theorem CachedUnit.ReadAlone.line_le_of_bodyOf? {u : CachedUnit} (hu : u.ReadAlone) {c body : Cursor}
    (hc : c ∈ u.unit.cursors) (hbody : u.unit.bodyOf? c = some body) :
    c.location.line ≤ body.extentEnd.line := by
  obtain ⟨files, hfiles, hunit⟩ := buildUnit_eq_ok.1 hu.built
  have hentities : HasEntities u.unit (files.flatMap (·.entities)) := by
    rw [hunit]
    rfl
  obtain ⟨n, hn, rfl⟩ := List.mem_map.1 hc
  obtain ⟨d, hd, rfl⟩ := hentities.mem_nodes.1 hn
  obtain ⟨e, he, hcursor, b, hb, hsame⟩ := hentities.exists_of_bodyOf? hd hbody
  have hlocation : (bare d.cursor).location = (bare e.top.cursor).location := by rw [hcursor]
  have hend : (bare body).extentEnd = (bare b).extentEnd := by rw [hsame]
  show (bare d.cursor).location.line ≤ (bare body).extentEnd.line
  rw [hlocation, hend]
  obtain ⟨buffer, -, lx, hlex, ⟨x, -, hmacro⟩ | ⟨x, hx, hentity⟩⟩ := exists_buffer_of_mem hfiles he
  · -- a macro has nothing below it
    unfold Entity.body? at hb
    rw [(of_macro? hmacro).2.1] at hb
    split at hb <;> cases hb
  · show e.top.cursor.location.line ≤ b.extentEnd.line
    exact line_le_of_body? (inOrder_tokens hlex) hx hentity hb

end SketchSense
