import SketchSense.Proofs.ByPosition.Scanning
import SketchSense.Proofs.Model.Linking

/-!
# Building by position

A unit as a program on positions: the files are scanned one after the other into one list of nodes;
then every use of a name looks its target up by position, and its node is added below its body.

* `refer`, the node of a use, with `refer_eq`, and `foldlM_refer`, the nodes of all uses;
* `build`, the unit, with `build_builds`: it is the unit of the model, or the scan of a file stops.
-/

namespace SketchSense.Model.ByPosition

/-! ## References -/

/-- The position of the first node that a name can refer to. -/
def targetAt? (nodes : List Draft) (name : String) : Option Nat :=
  nodes.findIdx? fun d => isTarget d.cursor && d.cursor.spelling = name

/-- The node of a use of a name. -/
def referenceOf (u : Use) (name : String) (target : Cursor) (stop : Location) : Named :=
  ⟨{ id := 0
     kind := if target.kind = .macroDefinition then .macroExpansion else .declReference
     spelling := name
     displayName := name
     usr := target.usr
     location := u.token.location u.file
     extentEnd := stop
     typeName := target.typeName }, u.token.length⟩

/-- Adds the node of a use below its owner, and then sets what it refers to. Names refer to the nodes
in `declared`. -/
def refer (declared : List Draft) (r : Reading) (u : Use) : Checked Reading :=
  match u.token.word? with
  | none => return r
  | some name =>
    match targetAt? declared name with
    | none => return r
    | some i => do
      let target ← entryAt r.nodes i
      let stop ← endOf u.file u.token
      let r' ← r.push (referenceOf u name target.cursor stop) (some u.owner)
      let node ← entryAt r'.nodes r.nodes.length
      return { r' with nodes := r'.nodes.set r.nodes.length { node with target := some i } }

section References

variable {declared : List Draft}

/-- The target of a name by its position. -/
theorem target?_eq (hnumbered : Numbered 0 declared) (name : String) :
    (∃ i d, targetAt? declared name = some i ∧ declared[i]? = some d ∧
        target? declared name = some d.cursor ∧ d.cursor.id = i) ∨
      targetAt? declared name = none ∧ target? declared name = none := by
  unfold targetAt? target?
  rw [List.find?_map]
  cases hfind : declared.findIdx? fun d => isTarget d.cursor && d.cursor.spelling = name with
  | none =>
    refine .inr ⟨rfl, ?_⟩
    rw [List.find?_eq_none.2 fun d hd => by
      simpa using List.findIdx?_eq_none_iff.1 hfind d hd]
    rfl
  | some i =>
    obtain ⟨hi, htarget, hfirst⟩ := List.findIdx?_eq_some_iff_getElem.1 hfind
    have hfound : declared.find? ((fun c => isTarget c && c.spelling = name) ∘ (·.cursor)) =
        some declared[i] :=
      List.find?_eq_some_iff_getElem.2 ⟨htarget, i, hi, rfl, fun j hj =>
        Bool.not_eq_true' _ ▸ Bool.eq_false_iff.2 (hfirst j hj)⟩
    refine .inl ⟨i, declared[i], rfl, List.getElem?_eq_getElem hi, ?_, ?_⟩
    · rw [hfound]
      rfl
    · simpa using hnumbered i _ (List.getElem?_eq_getElem hi)

/-- The node of a use is added without a misstep, with the next number. -/
theorem refer_eq {r : Reading} {more : List Draft} (hnodes : r.nodes = declared ++ more)
    (hnumbered : Numbered 0 declared) {u : Use} (howner : u.owner < declared.length)
    (hfits : u.token.stop.Fits) :
    refer declared r u = .ok { r with
      nodes := r.nodes ++ renumber r.nodes.length (u.draft? declared).toList } := by
  cases hword : u.token.word? with
  | none => simp [refer, Use.draft?, hword, renumber]
  | some name =>
    rcases target?_eq hnumbered name with ⟨i, d, hat, hget, htarget, hid⟩ | ⟨hat, htarget⟩
    · have hentry : entryAt r.nodes i = .ok d := by
        unfold entryAt
        rw [hnodes, List.getElem?_append_left (List.getElem?_eq_some_iff.1 hget).1, hget]
      have howner' : u.owner < r.nodes.length := by
        rw [hnodes, List.length_append]
        omega
      have hdraft : u.draft? declared =
          some { (referenceOf u name d.cursor (u.token.endLocation u.file)).draft 0 (some u.owner) with
            target := some i } := by
        unfold Use.draft?
        simp only [hword, htarget, hid, Option.bind_eq_bind, Option.bind_some]
        rfl
      unfold refer
      simp only [hword, hat]
      rw [hentry, ok_bind, endOf_eq hfits, ok_bind, Reading.push_below howner', ok_bind, hdraft]
      unfold Reading.below
      rw [numberBelow, numberBelow, entryAt_eq rfl rfl, ok_bind,
        List.set_append_right _ _ (Nat.le_refl _), Nat.sub_self]
      rfl
    · simp [refer, Use.draft?, hword, hat, htarget, renumber]

/-- The nodes of all uses are added without a misstep. -/
theorem foldlM_refer (hnumbered : Numbered 0 declared) {us : List Use}
    (howner : ∀ u ∈ us, u.owner < declared.length) (hfits : ∀ u ∈ us, u.token.stop.Fits)
    {r : Reading} {more : List Draft} (hnodes : r.nodes = declared ++ more) :
    us.foldlM (refer declared) r = .ok { r with
      nodes := r.nodes ++ renumber r.nodes.length (us.filterMap (Use.draft? declared)) } := by
  -- nodes are added behind those that are declared, so these stay where they are
  induction us generalizing r more with
  | nil => simp [renumber]
  | cons u us ih =>
    rw [List.forall_mem_cons] at howner hfits
    rw [List.foldlM_cons, refer_eq hnodes hnumbered howner.1 hfits.1, ok_bind,
      ih howner.2 hfits.2 (by rw [hnodes, List.append_assoc])]
    refine congrArg Except.ok ?_
    rw [List.filterMap_cons]
    cases u.draft? declared <;> simp [renumber]

end References

/-! ## Units -/

/-- The unit of some nodes. -/
def unitOf (main : FilePath) (nodes : List Draft) (diagnostics : List RawDiagnostic) :
    CompilationUnit :=
  let cursors := nodes.map (·.cursor)
  { mainFile := main
    nodes := nodes.map (link cursors)
    diagnostics
    candidates := (cursors.filter isTarget).map candidate }

/-- The unit of a main file and the texts given with it. -/
def build (main : FilePath) (unsaved : List FileBuffer) : Checked CompilationUnit := do
  let r ← (mainLast main unsaved).foldlM scan {}
  let r' ← r.uses.foldlM (refer r.nodes) r
  return unitOf main r'.nodes r'.diagnostics

section Units

variable {main : FilePath} {unsaved : List FileBuffer}

/-- Files are scanned one after the other as their models say, up to the first that stops the scan. -/
theorem foldlM_scan {bs : List FileBuffer}
    (hascii : ∀ b ∈ bs, ∀ c ∈ b.code.toList, isAscii c = true)
    (hshort : ∀ b ∈ bs, b.code.toList.length < wordLimit) (r : Reading) :
    (∃ b ∈ bs, ∃ e, Stops b.code e ∧ bs.foldlM scan r = .error e) ∨
      (∀ b ∈ bs, ∀ e, ¬Stops b.code e) ∧ ∃ files, bs.mapM FileModel.ofBuffer = .ok files ∧
        bs.foldlM scan r = .ok ((r.addAll (files.flatMap (·.entities))).report
          (files.flatMap (·.diagnostics))) ∧
        ∀ e ∈ files.flatMap (·.entities), Fitting e.uses := by
  induction bs generalizing r with
  | nil =>
    refine .inr ⟨by simp, [], rfl, ?_, by simp⟩
    simp [Reading.addAll_nil, Reading.report]
  | cons b bs ih =>
    rw [List.forall_mem_cons] at hascii hshort
    rw [List.foldlM_cons, List.mapM_cons]
    have hscans := scan_scans r hascii.1 hshort.1
    generalize scan r b = x at hscans
    cases hscans with
    | @stops e h => exact .inl ⟨b, List.mem_cons_self, e, h, rfl⟩
    | @adds m hm hgoes hfits =>
      rw [ok_bind, hm]
      rcases ih hascii.2 hshort.2 (r.addFile m) with ⟨c, hc, e, h, herror⟩ |
        ⟨hgoes', files, hfiles, hfold, hfits'⟩
      · exact .inl ⟨c, List.mem_cons_of_mem b hc, e, h, herror⟩
      · rw [hfiles, hfold]
        refine .inr ⟨List.forall_mem_cons.2 ⟨hgoes, hgoes'⟩, m :: files, rfl, ?_, ?_⟩
        · rw [Reading.addFile, Reading.addAll_report, Reading.addAll_addAll, Reading.report_report,
            List.flatMap_cons, List.flatMap_cons]
        · intro e he
          rw [List.flatMap_cons] at he
          exact (List.mem_append.1 he).elim (hfits e) (hfits' e)

/-- What comes of a unit: it is not built as the scan of a file stops, or it is the unit of the
model. -/
inductive Builds (main : FilePath) (unsaved : List FileBuffer) : Checked CompilationUnit → Prop
  | stops {b : FileBuffer} {e : Misstep} (hb : b ∈ unsaved) (h : Stops b.code e) :
      Builds main unsaved (.error e)
  | builds {u : CompilationUnit} (hu : buildUnit main unsaved = .ok u)
      (hgoes : ∀ b ∈ unsaved, ∀ e, ¬Stops b.code e) : Builds main unsaved (.ok u)

theorem build_builds (main : FilePath)
    (hascii : ∀ b ∈ unsaved, ∀ c ∈ b.code.toList, isAscii c = true)
    (hshort : ∀ b ∈ unsaved, b.code.toList.length < wordLimit) :
    Builds main unsaved (build main unsaved) := by
  unfold build
  rcases foldlM_scan (fun b (hb : b ∈ mainLast main unsaved) => hascii b (mem_mainLast.1 hb))
    (fun b hb => hshort b (mem_mainLast.1 hb)) {} with
    ⟨b, hb, e, h, herror⟩ | ⟨hgoes, files, hfiles, hfold, hfits⟩
  · rw [herror]
    exact .stops (mem_mainLast.1 hb) h
  · have hnumbered := numbered_numberAll 0 (files.flatMap (·.entities))
    have howner : ∀ u ∈ usesOf 0 (files.flatMap (·.entities)),
        u.owner < (numberAll 0 (files.flatMap (·.entities))).length := by
      intro u hu
      obtain ⟨d, hd, hid⟩ := owner_of_mem_usesOf (fun e he => owned_of_mem hfiles he) hu
      obtain ⟨i, hi, rfl⟩ := List.getElem_of_mem hd
      rw [← hid, hnumbered i _ (List.getElem?_eq_getElem hi), Nat.zero_add]
      exact hi
    have huses : ∀ u ∈ usesOf 0 (files.flatMap (·.entities)), u.token.stop.Fits := by
      intro u hu
      obtain ⟨e, he, htoken, -⟩ := mem_usesOf hu
      exact hfits e he u.token htoken
    have hrefer := foldlM_refer (r := (Reading.addAll {} (files.flatMap (·.entities))).report
      (files.flatMap (·.diagnostics))) hnumbered howner huses (List.append_nil _).symm
    have hunit : buildUnit main unsaved = .ok (unitOf main (draftsOf (files.flatMap (·.entities)))
        (files.flatMap (·.diagnostics))) := buildUnit_eq_ok.2 ⟨files, hfiles, rfl⟩
    have hbuild := congrArg
      (· >>= fun r : Reading => (return unitOf main r.nodes r.diagnostics : Checked CompilationUnit))
      hrefer
    rw [hfold, ok_bind]
    exact cast (congrArg (Builds main unsaved) hbuild.symm)
      (.builds hunit fun b hb => hgoes b (mem_mainLast.2 hb))

end Units

end SketchSense.Model.ByPosition
