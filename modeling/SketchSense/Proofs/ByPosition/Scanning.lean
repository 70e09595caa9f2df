import SketchSense.Proofs.ByPosition.Blocks
import SketchSense.Proofs.ByPosition.Texts
import SketchSense.Proofs.Model.Resolution

/-!
# Scanning by position

The scan of a file as a program on positions: its directives first, and then its declarations one by
one.

* `directive`, what a directive adds, with `directive_eq`;
* `scan`, the scan of a file, with `loop_scan`;
* `Stops`, why the scan of a text stops, and `scan_scans`: it stops so, or it adds what the file
  declares and reports.
-/

namespace SketchSense.Model.ByPosition

/-! ## Directives -/

/-- A macro. -/
def macroOf (file : FilePath) (d : Directive) (name : List Char) (column stop : Nat) : Named :=
  ⟨{ id := 0
     kind := .macroDefinition
     spelling := String.ofList name
     displayName := String.ofList name
     usr := "c:macro@" ++ String.ofList name
     location := ⟨file, d.place.line, column⟩
     extentEnd := ⟨file, d.place.line, stop⟩
     isDefinition := true }, name.length⟩

/-- What a directive asks for: a report or a macro. -/
def directive (file : FilePath) (r : Reading) (d : Directive) : Checked Reading :=
  match d.kind with
  | .define rest =>
    let name := (Text.trimStart rest).takeWhile isWordPart
    if name = [] then return r
    else do
      let blank ← less (Text.utf8Length rest) (Text.utf8Length (Text.trimStart rest))
      let column ← word (d.place.column + 1)
      let column ← word (column + "define".length)
      let column ← word (column + blank)
      let stop ← word (column + name.length)
      r.push (macroOf file d name column stop) none
  | _ => return { r with diagnostics := r.diagnostics ++ (d.report? file).toList }

/-- With more reports. -/
def Reading.report (r : Reading) (ds : List RawDiagnostic) : Reading :=
  { r with diagnostics := r.diagnostics ++ ds }

theorem Reading.addAll_report (r : Reading) (ds : List RawDiagnostic) (es : List Entity) :
    (r.report ds).addAll es = (r.addAll es).report ds := rfl

theorem Reading.report_report (r : Reading) (ds ds' : List RawDiagnostic) :
    (r.report ds).report ds' = r.report (ds ++ ds') := by
  simp [report]

/-- What a file declares and reports. -/
def Reading.addFile (r : Reading) (m : FileModel) : Reading :=
  (r.addAll m.entities).report m.diagnostics

theorem body_eq_of_define {d : Directive} {rest : List Char} (h : d.kind = .define rest) :
    d.body = "define".toList ++ rest := by
  unfold Directive.kind at h
  split at h
  · cases h
  · split at h
    · cases h
    · split at h
      · next hafter =>
        cases h
        exact Text.after?_eq_some_iff.1 hafter
      · cases h

theorem directive_eq (file : FilePath) (r : Reading) {d : Directive} (hfits : DirectiveFits d) :
    directive file r d =
      .ok ((r.addAll (d.macro? file).toList).report (d.report? file).toList) := by
  unfold directive Directive.macro? Directive.report?
  cases hkind : d.kind with
  | define rest =>
    dsimp only
    by_cases hname : (Text.trimStart rest).takeWhile isWordPart = []
    · rw [if_pos hname, if_pos hname, Option.toList_none, Reading.addAll_nil]
      simp [Reading.report]
    · have hblank : Text.utf8Length rest = Text.utf8Length (Text.trimStart rest) +
          Text.utf8Length (rest.takeWhile Text.isBlank) := by
        rw [Nat.add_comm, ← Text.utf8Length_append]
        unfold Text.trimStart
        rw [List.takeWhile_append_dropWhile]
      have hwidth : d.place.column + 1 + "define".length = d.place.column + defineWidth := rfl
      -- the name ends within the body, so the last column is a word, and all before it are
      have hlast : d.place.column + 1 + "define".length +
          Text.utf8Length (rest.takeWhile Text.isBlank) +
            ((Text.trimStart rest).takeWhile isWordPart).length < wordLimit := by
        have hbody := congrArg Text.utf8Length (body_eq_of_define hkind)
        have hdefine : Text.utf8Length "define".toList = "define".length := rfl
        have hprefix := Text.utf8Length_le_of_prefix
          (List.takeWhile_prefix (l := Text.trimStart rest) isWordPart)
        have hlength := Text.length_le_utf8Length ((Text.trimStart rest).takeWhile isWordPart)
        unfold DirectiveFits at hfits
        rw [Text.utf8Length_append, hdefine, hblank] at hbody
        omega
      rw [if_neg hname, if_neg hname, less_eq hblank, ok_bind, word_eq (by omega), ok_bind,
        word_eq (by omega), ok_bind, word_eq (by omega), ok_bind, word_eq hlast, ok_bind,
        Reading.push_atTop, Option.toList_some, Reading.addAll_singleton, Reading.below_nil, hwidth]
      simp [Reading.report, Reading.atTop, Entity.pending, macroOf]
  | _ => simp [Reading.addAll_nil, Reading.report]

theorem foldlM_directives (file : FilePath) {ds : List Directive}
    (hfits : ∀ d ∈ ds, DirectiveFits d) (r : Reading) :
    ds.foldlM (directive file) r =
      .ok ((r.addAll (ds.filterMap (Directive.macro? file))).report
        (ds.filterMap (Directive.report? file))) := by
  induction ds generalizing r with
  | nil => simp [Reading.addAll_nil, Reading.report]
  | cons d ds ih =>
    rw [List.forall_mem_cons] at hfits
    rw [List.foldlM_cons, directive_eq file r hfits.1, ok_bind, ih hfits.2, List.filterMap_cons,
      List.filterMap_cons]
    rw [Reading.addAll_report, Reading.addAll_addAll, Reading.report_report]
    cases d.macro? file <;> cases d.report? file <;> rfl

/-! ## Files -/

/-- A round over the tokens of a file. -/
def Walk.fileRound (file : FilePath) (ts : List Token) (s : Walk) : Checked Walk := do
  let t ← entryAt ts s.position
  if t.isMark '{' then
    let close ← matching ts s.position '{' '}'
    let reading ← openBrace file s.statement ts s.position close s.reading
    return ⟨close + 1, [], reading⟩
  else if t.isMark ';' then
    let n ← declaration file s.statement
    let reading ← s.reading.push? n none
    return ⟨s.position + 1, [], reading⟩
  else return { s with position := s.position + 1, statement := s.statement ++ [t] }

/-- Adds what a file declares and reports. -/
def scan (r : Reading) (b : FileBuffer) : Checked Reading := do
  let lexed ← lex b.code.toList
  let r' ← lexed.directives.foldlM (directive b.path) r
  let s ← loop lexed.tokens.length Walk.position (Walk.fileRound b.path lexed.tokens) { reading := r' }
  return s.reading

section Files

variable {file : FilePath} {ts : List Token}

/-- A statement declares a single node, unless its head is too deep. -/
theorem declaration_bind (hfits : Fitting ts) (r : Reading) :
    (declaration file ts >>= fun n => r.push? n none) =
      r.addFound (readDeclaration file ⟨ts, none⟩) := by
  have hdeep : TooDeep ⟨ts, none⟩ ↔ HeadTooDeep ts := by simp [TooDeep]
  unfold readDeclaration
  rw [declaration_eq hfits, hdeep]
  by_cases h : HeadTooDeep ts
  · rw [overflowIf_of h, overflowIf_of h]
    rfl
  · rw [overflowIf_of_not h, overflowIf_of_not h]
    unfold Declaration.entity?
    cases hstatement : statement? file ts with
    | none => exact r.addFound_none.symm
    | some e =>
      obtain ⟨-, hbelow, huses⟩ := namedBy_of_statement? hstatement
      dsimp only [Except.mapError]
      rw [Reading.addFound_some, hbelow, Reading.below_nil]
      simp [Reading.push?, Reading.push_atTop, Reading.atTop, Entity.pending, huses]

/-- A round over a file goes on, with less to declare, or it stops at the declaration that it reads. -/
theorem round_scan (file : FilePath) {before rest : List Token} {t : Token} {s : Walk}
    (hts : ts = before ++ t :: rest) (hi : s.position = before.length) (hfits : Fitting ts)
    (hstatement : Fitting s.statement) :
    (∃ e, s.fileRound file ts = .error e ∧
        s.reading.addDeclared ((declarationsFrom false s.statement (t :: rest)).mapM
          (readDeclaration file)) = .error e) ∨
      ∃ s', s.fileRound file ts = .ok s' ∧ s.position < s'.position ∧ Fitting s'.statement ∧
        s.reading.addDeclared ((declarationsFrom false s.statement (t :: rest)).mapM
            (readDeclaration file)) =
          s'.reading.addDeclared ((declarationsFrom false s'.statement (ts.drop s'.position)).mapM
            (readDeclaration file)) := by
  have hentry := entryAt_eq hts hi
  have hnext := drop_succ_eq hts hi
  unfold Walk.fileRound
  rw [hentry, ok_bind, declarationsFrom_cons]
  by_cases hbrace : t.isMark '{' = true
  · rw [if_pos hbrace, if_pos hbrace, Reading.addDeclared_cons]
    by_cases hdeep : NestsTooDeep '{' '}' 0 rest
    · -- the brace cannot be matched, and so its declaration is not read
      have hread : TooDeep ⟨s.statement, some (Block.ofBrace t rest)⟩ :=
        .inr ⟨_, rfl, .inl (blockTooDeep_iff.2 hdeep)⟩
      rw [matching_overflow hts hi hbrace hdeep]
      unfold readDeclaration
      rw [overflowIf_of hread]
      exact .inl ⟨.overflow, rfl, rfl⟩
    · obtain ⟨close, hclose, hcloses⟩ := matching_closes hts hi hbrace hdeep
      have hblock : ¬BlockTooDeep (Block.ofBrace t rest) := mt blockTooDeep_iff.1 hdeep
      rw [hclose, ok_bind, openBrace_eq hstatement hfits hblock
        (fun inside h => shallow_of_inside h hdeep) hcloses]
      cases s.reading.addFound (readDeclaration file ⟨s.statement, some (Block.ofBrace t rest)⟩) with
      | error e => exact .inl ⟨e, rfl, rfl⟩
      | ok r' =>
        refine .inr ⟨_, rfl, Nat.lt_succ_of_le hcloses.le, by simp [Fitting], ?_⟩
        dsimp only
        rw [hcloses.after]
        rfl
  rw [if_neg hbrace, if_neg hbrace]
  by_cases hsemicolon : t.isMark ';' = true
  · rw [if_pos hsemicolon, if_pos hsemicolon, Reading.addDeclared_cons,
      ← declaration_bind hstatement s.reading]
    cases declaration file s.statement with
    | error e => exact .inl ⟨e, rfl, rfl⟩
    | ok n =>
      rw [ok_bind, ok_bind]
      cases s.reading.push? n none with
      | error e => exact .inl ⟨e, rfl, rfl⟩
      | ok r' =>
        refine .inr ⟨_, rfl, Nat.lt_succ_self _, by simp [Fitting], ?_⟩
        rw [hnext]
        rfl
  · rw [if_neg hsemicolon, if_neg hsemicolon]
    refine .inr ⟨_, rfl, Nat.lt_succ_self _, hstatement.concat (hfits t (by simp [hts])), ?_⟩
    rw [hnext]

/-- From any round on the loop adds the declarations that are left, or it stops at the first one that
cannot be read. -/
theorem loop_scan (file : FilePath) (hfits : Fitting ts) {s : Walk} (hstatement : Fitting s.statement) :
    (loop ts.length Walk.position (Walk.fileRound file ts) s >>= fun s => return s.reading) =
      s.reading.addDeclared ((declarationsFrom false s.statement (ts.drop s.position)).mapM
        (readDeclaration file)) := by
  induction hn : ts.length - s.position using Nat.strongRecOn generalizing s with
  | _ n ih =>
    by_cases hlt : s.position < ts.length
    · obtain ⟨before, t, hwhole, hi, hcons⟩ := exists_entry hlt
      have hround := round_scan file hwhole hi hfits hstatement
      rw [← hcons] at hround
      rcases hround with ⟨e, hround, hadd⟩ | ⟨s', hround, hmoves, hfits', hadd⟩
      · rw [loop_misstep hlt hround, hadd]
        rfl
      · rw [loop_round hlt hround hmoves, hadd]
        exact ih (ts.length - s'.position) (by omega) hfits' rfl
    · rw [loop_done (Nat.le_of_not_lt hlt), List.drop_eq_nil_of_le (Nat.le_of_not_lt hlt),
        declarationsFrom, List.mapM_nil]
      exact congrArg Except.ok (Reading.addAll_nil _).symm

/-- Why the scan of a text stops: a place is too large, too many marks are open, or a block at the end
of the text has no inside. -/
inductive Stops (text : String) : Misstep → Prop
  | overlong (h : Overlong text.toList) : Stops text .overflow
  | tooDeep {lx : Lexed} {d : Declaration} (hlex : Model.lex text = .ok lx)
      (hd : d ∈ declarations false lx.tokens) (h : TooDeep d) : Stops text .overflow
  | openBlock {lx : Lexed} (hlex : Model.lex text = .ok lx) (h : OpensAtEnd lx.tokens) :
      Stops text .openBlock

theorem readDeclaration_eq_ok_iff {d : Declaration} {x : Option Entity} :
    readDeclaration file d = .ok x ↔ ¬TooDeep d ∧ d.entity? file = .ok x := by
  unfold readDeclaration
  by_cases h : TooDeep d
  · rw [overflowIf_of h]
    simp [h]
  · rw [overflowIf_of_not h, and_iff_right h]
    cases d.entity? file with
    | error e => simp [Except.mapError]
    | ok y => simp [Except.mapError]

/-- A declaration that cannot be read nests too deep, or the model cannot read it either. -/
theorem eq_of_readDeclaration_eq_error {d : Declaration} {e : Misstep}
    (h : readDeclaration file d = .error e) :
    e = .overflow ∧ TooDeep d ∨ e = .openBlock ∧ ∃ e', d.entity? file = .error e' := by
  unfold readDeclaration at h
  by_cases hdeep : TooDeep d
  · rw [overflowIf_of hdeep] at h
    exact .inl ⟨(Except.error.inj h).symm, hdeep⟩
  · rw [overflowIf_of_not hdeep] at h
    cases hentity : d.entity? file with
    | error e' =>
      rw [hentity] at h
      exact .inr ⟨(Except.error.inj h).symm, e', rfl⟩
    | ok x =>
      rw [hentity] at h
      cases h

/-- The declarations of a text are read as the model says, or the scan has a reason to stop. -/
theorem mapM_readDeclaration (file : FilePath) {text : String} {lx : Lexed}
    (hlex : Model.lex text = .ok lx) :
    (∃ e, (declarations false lx.tokens).mapM (readDeclaration file) = .error e ∧ Stops text e) ∨
      ∃ es, (declarations false lx.tokens).mapM (readDeclaration file) = .ok es ∧
        (declarations false lx.tokens).mapM (Declaration.entity? file) = .ok es ∧
        ∀ d ∈ declarations false lx.tokens, ¬TooDeep d := by
  cases hdeclared : (declarations false lx.tokens).mapM (readDeclaration file) with
  | error e =>
    refine .inl ⟨e, rfl, ?_⟩
    obtain ⟨d, hd, herror⟩ := exists_of_mapM_eq_error hdeclared
    obtain ⟨rfl, hdeep⟩ | ⟨rfl, e', hentity⟩ := eq_of_readDeclaration_eq_error herror
    · exact .tooDeep hlex hd hdeep
    · exact .openBlock hlex ((exists_error_iff file).1 ⟨d, hd, e', hentity⟩)
  | ok es =>
    refine .inr ⟨es, rfl, mapM_eq_ok_iff.2 ?_, fun d hd => ?_⟩
    · exact (mapM_eq_ok_iff.1 hdeclared).imp fun _ _ h => (readDeclaration_eq_ok_iff.1 h).2
    · obtain ⟨x, -, hx⟩ := (mem_of_mapM_eq_ok hdeclared).1 d hd
      exact (readDeclaration_eq_ok_iff.1 hx).1

/-- What comes of the scan of a file: it stops for a reason, or it adds what the file declares and
reports. -/
inductive Scans (r : Reading) (b : FileBuffer) : Checked Reading → Prop
  | stops {e : Misstep} (h : Stops b.code e) : Scans r b (.error e)
  | adds {m : FileModel} (hm : FileModel.ofBuffer b = .ok m) (hgoes : ∀ e, ¬Stops b.code e)
      (hfits : ∀ e ∈ m.entities, Fitting e.uses) : Scans r b (.ok (r.addFile m))

theorem scan_scans (r : Reading) {b : FileBuffer} (hascii : ∀ c ∈ b.code.toList, isAscii c = true)
    (hshort : b.code.toList.length < wordLimit) : Scans r b (scan r b) := by
  obtain ⟨lx, hmodel, hlex, hfits⟩ := lex_eq hascii hshort
  unfold scan
  rw [hlex]
  by_cases hoverlong : Overlong b.code.toList
  · rw [overflowIf_of hoverlong]
    exact .stops (.overlong hoverlong)
  · have hlexed := hfits hoverlong
    have hloop (r' : Reading) := loop_scan b.path hlexed.tokens (s := { reading := r' })
      (by simp [Fitting])
    rw [overflowIf_of_not hoverlong, ok_bind, foldlM_directives b.path hlexed.directives, ok_bind,
      hloop]
    rcases mapM_readDeclaration b.path hmodel with ⟨e, herror, hstops⟩ | ⟨es, hread, hentity, hdeep⟩
    · have hdeclared : (declarationsFrom false [] (lx.tokens.drop 0)).mapM (readDeclaration b.path) =
          .error e := herror
      rw [hdeclared]
      exact .stops hstops
    · have hdeclared : (declarationsFrom false [] (lx.tokens.drop 0)).mapM (readDeclaration b.path) =
          .ok es := hread
      have hm := ofBuffer_eq_ok.2 ⟨lx, es, hmodel, hentity, rfl⟩
      have hadds : ((r.addAll (lx.directives.filterMap (Directive.macro? b.path))).report
          (lx.directives.filterMap (Directive.report? b.path))).addDeclared (.ok es) =
            .ok (r.addFile ⟨lx.directives.filterMap (Directive.macro? b.path) ++ es.filterMap id,
              lx.directives.filterMap (Directive.report? b.path)⟩) := by
        rw [Reading.addDeclared_ok, Reading.addFile, Reading.addAll_report, Reading.addAll_addAll]
      rw [hdeclared, hadds]
      refine .adds hm ?_ ?_
      · rintro _ (h | ⟨hlex', hd, h⟩ | ⟨hlex', h⟩)
        · exact hoverlong h
        · rw [hmodel] at hlex'
          cases hlex'
          exact hdeep _ hd h
        · rw [hmodel] at hlex'
          cases hlex'
          obtain ⟨d, hd, e', hd'⟩ := (exists_error_iff b.path).2 h
          obtain ⟨x, -, hx⟩ := (mem_of_mapM_eq_ok hentity).1 d hd
          rw [hd'] at hx
          cases hx
      · intro e he t ht
        rcases mem_entities hmodel hm he with ⟨d, -, hmacro⟩ | ⟨d, hd, hdeclares⟩
        · rw [(of_macro? hmacro).2.2.1] at ht
          cases ht
        · exact hlexed.tokens t (mem_of_mem_parts hd (mem_parts_of_uses hdeclares ht).1)

end Files

end SketchSense.Model.ByPosition
