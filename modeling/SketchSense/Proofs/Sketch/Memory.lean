import SketchSense.Proofs.Sketch.Coordinates
import SketchSense.Proofs.Sketch.HeaderCache
import SketchSense.Proofs.Sketch.Rewriting

/-!
# What the insertion memo remembers

The memo has, for every skeleton, the line whose place the include took in the last text with it. On
the next text with that skeleton the include goes to this line as long as it is blank, wherever the
first function now stands. Two texts with one skeleton may break their lines at different places, so
the remembered line need not be the one that is found without the memo, and may lie inside a body.

* `blankPlace?`, the blank line above some definitions, and `InjectedText.place?`, the line whose
  place an include has taken;
* `InsertionMemo.Placed`, the calls since the last clear;
* `InsertionMemo.Placed.get?_points`, what is remembered after them;
* `InsertionMemo.Placed.replay_agrees_iff`, when a rewrite from memory is the one without a memo.
-/

namespace SketchSense

/-! ## Blank lines and includes -/

/-- The signature under which the place of an include is remembered. -/
def InsertionMemo.signatureOf (path : FilePath) (code : String) : ContentHash :=
  (Skeleton.ofCode code).signature path.display

/-- The nearest blank line above the first of some definitions, counted from 0. -/
def blankPlace? (code : String) (ds : List Definition) : Option Nat :=
  (ds.map (·.line)).min?.bind fun first =>
    blankAbove? (Text.splitLines code.toList)
      (min (first - 1) (Text.splitLines code.toList).length)

/-- The blank line whose place the include has taken, if any. -/
def InjectedText.place? (r : InjectedText) (path : FilePath) (code : String) : Option Nat :=
  (List.range (Text.lineCount code.toList)).find? fun k =>
    ((Text.splitLines code.toList)[k]?.any Text.isBlankText) &&
      decide (r = InsertionMemo.atLine path (Text.splitLines code.toList) k)

variable {path : FilePath} {code : String} {ds : List Definition} {r : InjectedText}

theorem line_of_blankPlace? {place : Nat} (h : blankPlace? code ds = some place) :
    ∀ d ∈ ds, place + 1 < d.line := by
  unfold blankPlace? at h
  obtain ⟨first, hfirst, hplace⟩ := Option.bind_eq_some_iff.1 h
  obtain ⟨hlt, -⟩ := blankAbove?_eq_some hplace
  intro d hd
  have hle : first ≤ d.line := (List.min?_eq_some_iff.1 hfirst).2 _ (List.mem_map_of_mem hd)
  omega

namespace InsertionMemo

/-- A text with the include in place of a blank line starts with the lines above it, and goes on
with the include. -/
theorem text_atLine (path : FilePath) {k : Nat} {old : List Char}
    (hold : (Text.splitLines code.toList)[k]? = some old) :
    ∃ rest, (atLine path (Text.splitLines code.toList) k).text.toList =
      Text.wholeLines ((Text.splitLines code.toList).take k) ++ '#' :: rest := by
  have hinclude : ∃ tail, includeLine path old = '#' :: tail := by
    unfold includeLine
    rw [FilePath.includeDirective_eq]
    split
    · exact ⟨_, rfl⟩
    · exact ⟨_, rfl⟩
  obtain ⟨tail, htail⟩ := hinclude
  have hjoined (ls : List (List Char)) : ∃ rest, Text.joinLines (('#' :: tail) :: ls) =
      '#' :: rest := by
    cases ls with
    | nil => exact ⟨_, rfl⟩
    | cons l ls => exact ⟨_, rfl⟩
  obtain ⟨rest, hrest⟩ := hjoined ((Text.splitLines code.toList).drop (k + 1))
  refine ⟨rest, ?_⟩
  unfold atLine
  dsimp only
  rw [String.toList_ofList, replaceLine_eq hold, Text.joinLines_append _ (List.cons_ne_nil _ _),
    htail, hrest]

/-- Includes in place of two blank lines make two texts. -/
theorem atLine_ne_of_lt (path : FilePath) {j k : Nat} {old : List Char} (hjk : j < k)
    (hold : (Text.splitLines code.toList)[j]? = some old) (hblank : Text.isBlankText old = true)
    (hk : k < Text.lineCount code.toList) :
    atLine path (Text.splitLines code.toList) j ≠ atLine path (Text.splitLines code.toList) k := by
  intro heq
  obtain ⟨above, habove⟩ := text_atLine path hold
  obtain ⟨below, hbelow⟩ := text_atLine path (List.getElem?_eq_getElem hk)
  rw [heq, hbelow] at habove
  -- the line that the first include replaces stands above the second one
  have hlines : (Text.splitLines code.toList).take k =
      (Text.splitLines code.toList).take j ++
        old :: ((Text.splitLines code.toList).take k).drop (j + 1) := by
    have hj : ((Text.splitLines code.toList).take k)[j]? = some old := by
      rw [List.getElem?_take_of_lt hjk, hold]
    obtain ⟨hlt, hget⟩ := List.getElem?_eq_some_iff.1 hj
    calc (Text.splitLines code.toList).take k
        = ((Text.splitLines code.toList).take k).take j ++
            ((Text.splitLines code.toList).take k).drop j := (List.take_append_drop _ _).symm
      _ = _ := by
        rw [List.take_take, Nat.min_eq_left (Nat.le_of_lt hjk), List.drop_eq_getElem_cons hlt, hget]
  rw [hlines] at habove
  have hfirst : ∃ c rest, old ++ ['\n'] = c :: rest ∧ c ≠ '#' := by
    cases old with
    | nil => exact ⟨'\n', [], rfl, by decide⟩
    | cons c cs =>
      refine ⟨c, _, rfl, ?_⟩
      rintro rfl
      simp [Text.isBlankText, Text.isBlank] at hblank
  obtain ⟨c, rest, hcons, hne⟩ := hfirst
  unfold Text.wholeLines at habove
  rw [List.flatMap_append, List.flatMap_cons, hcons, List.append_assoc,
    List.append_cancel_left_eq] at habove
  exact hne (List.cons.inj habove).1

/-- The place of an include in a blank line can be read off the text. -/
theorem place?_atLine (path : FilePath) {k : Nat} {old : List Char}
    (hold : (Text.splitLines code.toList)[k]? = some old) (hblank : Text.isBlankText old = true) :
    (atLine path (Text.splitLines code.toList) k).place? path code = some k := by
  obtain ⟨hk, -⟩ := List.getElem?_eq_some_iff.1 hold
  unfold InjectedText.place?
  rw [List.find?_range_eq_some]
  refine ⟨by simp [hold, hblank], List.mem_range.2 hk, ?_⟩
  intro j hj
  have hlt : j < (Text.splitLines code.toList).length := Nat.lt_trans hj hk
  by_cases hother : Text.isBlankText (Text.splitLines code.toList)[j] = true
  · have hne := atLine_ne_of_lt path hj (List.getElem?_eq_getElem hlt) hother hk
    simp [Ne.symm hne]
  · simp [List.getElem?_eq_getElem hlt, hother]

/-! ## Single calls -/

variable {σ : Type} {e : Engine σ} {args : List String} {s s' s₁ : σ} {m m' : InsertionMemo}
  {seen : List (ContentHash × Nat)}

/-- What a call adds to the history: the place of its include, if it has taken that of a line. -/
def placed (path : FilePath) (code : String) (r : InjectedText) : List (ContentHash × Nat) :=
  (r.place? path code).toList.map fun place => (signatureOf path code, place)

theorem placed_eq_nil (h : r.place? path code = none) : placed path code r = [] := by
  simp [placed, h]

theorem place?_eq_none (h : r.injected = false ∨ r.lineShift ≠ 0) :
    r.place? path code = none := by
  unfold InjectedText.place?
  rw [List.find?_eq_none]
  intro k _ hk
  rw [Bool.and_eq_true, decide_eq_true_eq] at hk
  rw [hk.2] at h
  rcases h with h | h
  · cases h
  · exact h rfl

/-- A rewrite from memory has the include in place of the remembered line, which is blank. -/
theorem replay_eq_some {signature : ContentHash} (h : m.replay signature path code = some r) :
    ∃ place old, m.points.get? signature = some place ∧
      (Text.splitLines code.toList)[place]? = some old ∧ Text.isBlankText old = true ∧
      r = atLine path (Text.splitLines code.toList) place := by
  unfold replay at h
  cases hget : m.points.get? signature with
  | none => simp [hget] at h
  | some place =>
    rw [hget] at h
    dsimp only at h
    cases hline : (Text.splitLines code.toList)[place]? with
    | none => simp [hline] at h
    | some old =>
      rw [hline] at h
      dsimp only at h
      split at h
      · next hblank =>
        cases h
        exact ⟨place, old, rfl, hline, hblank, rfl⟩
      · cases h

/-- Without memory the include goes to the blank line above the definitions, which is remembered,
or else it takes no line's place. -/
theorem inject_cases (m : InsertionMemo) (signature : ContentHash) (path : FilePath)
    (code : String) (ds : List Definition) :
    (∃ place old, blankPlace? code ds = some place ∧
        (Text.splitLines code.toList)[place]? = some old ∧ Text.isBlankText old = true ∧
        m.inject signature path code ds =
          (atLine path (Text.splitLines code.toList) place, ⟨m.points.insert signature place⟩)) ∨
      (blankPlace? code ds = none ∧ ∃ r, m.inject signature path code ds = (r, m) ∧
        (r.injected = false ∨ r.lineShift ≠ 0)) := by
  unfold inject blankPlace?
  cases (ds.map (·.line)).min? with
  | none => exact .inr ⟨rfl, _, rfl, .inl rfl⟩
  | some first =>
    dsimp only [Option.bind_some]
    cases hplace : blankAbove? (Text.splitLines code.toList)
        (min (first - 1) (Text.splitLines code.toList).length) with
    | none => exact .inr ⟨rfl, _, rfl, .inr Nat.one_ne_zero⟩
    | some place =>
      obtain ⟨-, old, hold, hblank⟩ := blankAbove?_eq_some hplace
      exact .inl ⟨place, old, rfl, hold, hblank, rfl⟩

/-- A call remembers the place of its include, and nothing else changes. -/
theorem get?_points_of_replayOrInject {scan : EngineM σ (List Definition)}
    (h : Yields (m.replayOrInject (signatureOf path code) path code scan) s (r, m') s')
    (k : ContentHash) :
    m'.points.get? k = (Table.find? k (placed path code r)).or (m.points.get? k) := by
  rcases yields_replayOrInject.1 h with ⟨hreplay, rfl, -⟩ | ⟨-, ds, -, hinject⟩
  · obtain ⟨place, old, hget, hold, hblank, rfl⟩ := replay_eq_some hreplay
    unfold placed
    rw [place?_atLine path hold hblank]
    cases hk : signatureOf path code == k with
    | true =>
      rw [beq_iff_eq] at hk
      subst hk
      simp [Table.find?, hget]
    | false => simp [Table.find?, hk]
  · rcases inject_cases m (signatureOf path code) path code ds with
      ⟨place, old, -, hold, hblank, hmade⟩ | ⟨-, r', hmade, hnone⟩
    · obtain ⟨rfl, rfl⟩ := Prod.mk.inj (hinject.trans hmade)
      unfold placed
      rw [place?_atLine path hold hblank]
      cases hk : signatureOf path code == k with
      | true =>
        rw [beq_iff_eq] at hk
        subst hk
        simp [Table.find?]
      | false =>
        rw [Table.get?_insert_of_ne _ hk]
        simp [Table.find?, hk]
    · obtain ⟨rfl, rfl⟩ := Prod.mk.inj (hinject.trans hmade)
      rw [placed_eq_nil (place?_eq_none hnone)]
      rfl

/-- A sketch gets its include from memory or after a scan. -/
theorem yields_transformedSource (e : Engine σ) (args : List String) (hkind : path.kind = .sketchEntry)
    {s s' : σ} :
    Yields (transformedSource e path code args m) s (r, m') s' ↔
      Yields (m.replayOrInject (signatureOf path code) path code
        do return (← definitions? e path code args).getD []) s (r, m') s' := by
  unfold transformedSource
  rw [if_neg (by simp [hkind])]
  rfl

/-- A sketch whose include cannot be placed from memory is scanned. -/
theorem yields_transformedSource_of_scan (hkind : path.kind = .sketchEntry)
    (hscan : Yields (definitions? e path code args) s (some ds) s₁)
    (hreplay : m.replay (signatureOf path code) path code = none) :
    Yields (transformedSource e path code args m) s
      (m.inject (signatureOf path code) path code ds) s₁ := by
  rw [← Prod.eta (m.inject _ _ _ _), yields_transformedSource e args hkind]
  exact yields_replayOrInject.2 (.inr ⟨hreplay, ds,
    yields_bind.2 ⟨_, _, hscan, yields_pure.2 ⟨rfl, rfl⟩⟩, Prod.eta _⟩)

theorem get?_points_of_transformedSource
    (h : Yields (transformedSource e path code args m) s (r, m') s') (k : ContentHash) :
    m'.points.get? k = (Table.find? k (placed path code r)).or (m.points.get? k) := by
  unfold transformedSource at h
  split at h
  · obtain ⟨hunchanged, -⟩ := yields_pure.1 h
    obtain ⟨rfl, rfl⟩ := Prod.mk.inj hunchanged
    rw [placed_eq_nil (place?_eq_none (.inl rfl))]
    rfl
  · exact get?_points_of_replayOrInject h k

end InsertionMemo

/-- Sources as an injection makes them. -/
def Sources.injectedText (made : Sources) : InjectedText :=
  ⟨made.main.code, made.map.lineShift, made.header.isSome⟩

theorem Sources.injectedText_injected (path : FilePath) (header : String) (r : InjectedText) :
    (Sources.injected path header r).injectedText = r := by
  obtain ⟨text, lineShift, injected⟩ := r
  cases injected <;> rfl

namespace Transformer

open InsertionMemo

variable {σ : Type} {e : Engine σ} {path : FilePath} {code : String} {args : List String}
  {s s' : σ} {t t' : Transformer} {made : Sources}

theorem get?_points_of_withHeader {header : String} {scan : EngineM σ (List Definition)}
    (h : Yields (t.withHeader path code header scan) s (made, t') s') (k : ContentHash) :
    t'.memo.points.get? k =
      (Table.find? k (placed path code made.injectedText)).or (t.memo.points.get? k) := by
  rcases yields_withHeader.1 h with ⟨-, rfl, rfl, -⟩ | ⟨-, r, memo, hr, rfl, rfl⟩
  · rw [placed_eq_nil (place?_eq_none (.inl rfl))]
    rfl
  · rw [Sources.injectedText_injected]
    exact get?_points_of_replayOrInject hr k

theorem get?_points_of_sources (h : Yields (t.sources e path code args) s (made, t') s')
    (k : ContentHash) :
    t'.memo.points.get? k =
      (Table.find? k (placed path code made.injectedText)).or (t.memo.points.get? k) := by
  by_cases hkind : path.kind = .sketchEntry
  · rcases (yields_sources hkind).1 h with ⟨_, -, h⟩ | ⟨-, _, _, -, h⟩
    · exact get?_points_of_withHeader h k
    · exact get?_points_of_withHeader h k
  · obtain ⟨hplain, -⟩ := (yields_sources_plain hkind).1 h
    obtain ⟨rfl, rfl⟩ := Prod.mk.inj hplain
    rw [placed_eq_nil (place?_eq_none (.inl rfl))]
    rfl

end Transformer

namespace InsertionMemo

variable {σ : Type} {e : Engine σ} {path : FilePath} {code : String} {args : List String}
  {s s' s₁ : σ} {m m' : InsertionMemo} {ds : List Definition} {r : InjectedText}
  {seen : List (ContentHash × Nat)}

/-! ## Calls one after the other -/

/-- Texts get their includes one after the other, on their own or with a header; `seen` has, the
latest first, the signature of every text since the last clear in which the include took the place
of a line, with that line. The engine may change between the calls. -/
inductive Placed (e : Engine σ) : List (ContentHash × Nat) → InsertionMemo → Prop where
  | fresh : Placed e [] {}
  | transformed {seen : List (ContentHash × Nat)} {m m' : InsertionMemo} {path : FilePath}
      {code : String} {args : List String} {s s' : σ} {r : InjectedText} :
    Placed e seen m → Yields (transformedSource e path code args m) s (r, m') s' →
    Placed e (placed path code r ++ seen) m'
  | sources {seen : List (ContentHash × Nat)} {t t' : Transformer} {path : FilePath}
      {code : String} {args : List String} {s s' : σ} {made : Sources} :
    Placed e seen t.memo → Yields (t.sources e path code args) s (made, t') s' →
    Placed e (placed path code made.injectedText ++ seen) t'.memo
  | clear {seen : List (ContentHash × Nat)} {m : InsertionMemo} : Placed e seen m → Placed e [] {}

/-- What is remembered for a signature is the place of the include in the last text with it. -/
theorem Placed.get?_points (h : Placed e seen m) (k : ContentHash) :
    m.points.get? k = Table.find? k seen := by
  induction h with
  | fresh => rfl
  | clear _ _ => rfl
  | transformed _ hcall ih => rw [Table.find?_append, get?_points_of_transformedSource hcall, ih]
  | sources _ hcall ih =>
    rw [Table.find?_append, Transformer.get?_points_of_sources hcall, ih]

/-- After any calls, a rewrite from memory is the one that a fresh memo leads to exactly if the
include took, in the last text with this skeleton, the place of the line that is now the nearest
blank one above the definitions. Only then is it known to stand above them. -/
theorem Placed.replay_agrees_iff (h : Placed e seen m) (hkind : path.kind = .sketchEntry)
    (hscan : Yields (definitions? e path code args) s (some ds) s₁)
    (hreplay : m.replay (signatureOf path code) path code = some r) :
    Yields (transformedSource e path code args m) s (r, m) s ∧
      ∃ fresh m', Yields (transformedSource e path code args {}) s (fresh, m') s₁ ∧
        (fresh, m') = ({} : InsertionMemo).inject (signatureOf path code) path code ds ∧
        ∃ place, Table.find? (signatureOf path code) seen = some place ∧
          (r = fresh ↔ blankPlace? code ds = some place) ∧
          (r = fresh → ∀ d ∈ ds, place + 1 < d.line) := by
  have hmemory := (yields_transformedSource e args hkind (s := s)).2
    (yields_replayOrInject.2 (.inl ⟨hreplay, rfl, rfl⟩))
  obtain ⟨place, old, hget, hold, hblank, rfl⟩ := replay_eq_some hreplay
  have hplace := place?_atLine path hold hblank
  have hagree : atLine path (Text.splitLines code.toList) place =
      (({} : InsertionMemo).inject (signatureOf path code) path code ds).1 ↔
        blankPlace? code ds = some place := by
    rcases inject_cases {} (signatureOf path code) path code ds with
      ⟨own, line, hown, hline, hown_blank, hmade⟩ | ⟨hown, r', hmade, hnone⟩
    · rw [hmade, hown, Option.some.injEq]
      constructor
      · intro heq
        rw [heq, place?_atLine path hline hown_blank, Option.some.injEq] at hplace
        exact hplace
      · rintro rfl
        rfl
    · rw [hmade, hown]
      simp only [reduceCtorEq, iff_false]
      rintro rfl
      rw [place?_eq_none hnone] at hplace
      cases hplace
  refine ⟨hmemory, _, _, yields_transformedSource_of_scan hkind hscan rfl, rfl, place,
    (h.get?_points _).symm.trans hget, hagree, ?_⟩
  intro heq
  exact line_of_blankPlace? (hagree.1 heq)

/-! ## Two texts with one skeleton -/

/-- One text whose include takes the place of a blank line. -/
theorem Placed.exists_one (place : Nat) (hkind : path.kind = .sketchEntry)
    (hscan : Yields (definitions? e path code args) s (some ds) s₁)
    (hplace : blankPlace? code ds = some place) :
    ∃ m, Placed e [(signatureOf path code, place)] m := by
  have hcall := yields_transformedSource_of_scan (m := {}) hkind hscan rfl
  rcases inject_cases {} (signatureOf path code) path code ds with
    ⟨own, old, hown, hold, hblank, hmade⟩ | ⟨hown, -⟩
  · obtain rfl : own = place := Option.some.inj (hown.symm.trans hplace)
    rw [hmade] at hcall
    have hone := Placed.transformed .fresh hcall
    unfold placed at hone
    rw [place?_atLine path hold hblank] at hone
    exact ⟨_, hone⟩
  · rw [hown] at hplace
    cases hplace

theorem signatureOf_of_skeleton_eq (path : FilePath) {code' : String}
    (h : (Skeleton.ofCode code').text = (Skeleton.ofCode code).text) :
    signatureOf path code' = signatureOf path code := by
  unfold signatureOf Skeleton.signature Skeleton.signatureBytes
  rw [h]

/-- What is remembered for another text with the same skeleton is put in place of its line. -/
theorem Placed.replay_of_skeleton_eq {code' : String} {place : Nat} (old : List Char)
    (h : Placed e [(signatureOf path code, place)] m)
    (hskeleton : (Skeleton.ofCode code').text = (Skeleton.ofCode code).text)
    (hold : (Text.splitLines code'.toList)[place]? = some old)
    (hblank : Text.isBlankText old = true) :
    m.replay (signatureOf path code') path code' =
      some (atLine path (Text.splitLines code'.toList) place) := by
  have hsame := signatureOf_of_skeleton_eq path hskeleton
  unfold replay
  rw [h.get?_points, hsame]
  simp [Table.find?, hold, hblank]

open Model

/-- An edit inside a body keeps the place of the include. -/
theorem replay_agrees_after_body_edit :
    ∃ seen m r m' s', Placed modelEngine seen m ∧
      m.replay (signatureOf ⟨"/s/Blink.ino"⟩ "int a;\n\nvoid f() \x7b a; \x7d\n") ⟨"/s/Blink.ino"⟩
        "int a;\n\nvoid f() \x7b a; \x7d\n" = some r ∧
      Yields (transformedSource modelEngine ⟨"/s/Blink.ino"⟩ "int a;\n\nvoid f() \x7b a; \x7d\n" []
        {}) {} (r, m') s' ∧
      r.text = "int a;\n#include \"Blink.ino.hpp\"\nvoid f() \x7b a; \x7d\n" := by
  have hkind : (FilePath.mk "/s/Blink.ino").kind = .sketchEntry := by decide
  have hskeleton : (Skeleton.ofCode "int a;\n\nvoid f() \x7b a; \x7d\n").text =
      (Skeleton.ofCode "int a;\n\nvoid f() \x7b \x7d\n").text := by cbv
  have hbefore := yields_definitions? (s := {}) ⟨"/s/Blink.ino"⟩
    "int a;\n\nvoid f() \x7b \x7d\n" [] (by cbv) rfl
  have hafter := yields_definitions? (s := {}) ⟨"/s/Blink.ino"⟩
    "int a;\n\nvoid f() \x7b a; \x7d\n" [] (by cbv) rfl
  have hfound : definedIn? "int a;\n\nvoid f() \x7b \x7d\n" = some [⟨"f", 3, "void f()"⟩] := by cbv
  have hfound' : definedIn? "int a;\n\nvoid f() \x7b a; \x7d\n" =
      some [⟨"f", 3, "void f()"⟩] := by cbv
  rw [hfound] at hbefore
  rw [hfound'] at hafter
  obtain ⟨m, hm⟩ := Placed.exists_one 1 hkind hbefore (by decide)
  have hreplay := hm.replay_of_skeleton_eq [] hskeleton (by decide) rfl
  obtain ⟨-, fresh, m', hfresh, -, place, hplace, hiff, -⟩ :=
    Placed.replay_agrees_iff hm hkind hafter hreplay
  have hone : place = 1 := by
    rw [signatureOf_of_skeleton_eq _ hskeleton] at hplace
    simpa [Table.find?, eq_comm] using hplace
  subst hone
  rw [← hiff.2 (by decide)] at hfresh
  exact ⟨_, m, _, m', _, hm, hreplay, hfresh, by decide⟩

/-- Lines may be broken elsewhere while the skeleton stays: the remembered line is then blank, but
lies inside the body of the first function, and the include goes there. -/
theorem replay_into_body :
    ∃ seen m r s₁ fresh m' s', Placed modelEngine seen m ∧
      Yields (definitions? modelEngine ⟨"/s/Blink.ino"⟩ "int a; void f() \x7b\n\n\x7d\n" []) {}
        (some [⟨"f", 1, "void f()"⟩]) s₁ ∧
      m.replay (signatureOf ⟨"/s/Blink.ino"⟩ "int a; void f() \x7b\n\n\x7d\n") ⟨"/s/Blink.ino"⟩
        "int a; void f() \x7b\n\n\x7d\n" = some r ∧
      Yields (transformedSource modelEngine ⟨"/s/Blink.ino"⟩ "int a; void f() \x7b\n\n\x7d\n" [] {})
        {} (fresh, m') s' ∧
      r = ⟨"int a; void f() \x7b\n#include \"Blink.ino.hpp\"\n\x7d\n", 0, true⟩ ∧
      fresh = ⟨"#include \"Blink.ino.hpp\"\nint a; void f() \x7b\n\n\x7d\n", 1, true⟩ ∧
      r ≠ fresh := by
  have hkind : (FilePath.mk "/s/Blink.ino").kind = .sketchEntry := by decide
  have hskeleton : (Skeleton.ofCode "int a; void f() \x7b\n\n\x7d\n").text =
      (Skeleton.ofCode "int a;\n\nvoid f() \x7b\n\x7d\n").text := by cbv
  have hbefore := yields_definitions? (s := {}) ⟨"/s/Blink.ino"⟩
    "int a;\n\nvoid f() \x7b\n\x7d\n" [] (by cbv) rfl
  have hafter := yields_definitions? (s := {}) ⟨"/s/Blink.ino"⟩
    "int a; void f() \x7b\n\n\x7d\n" [] (by cbv) rfl
  have hfound : definedIn? "int a;\n\nvoid f() \x7b\n\x7d\n" = some [⟨"f", 3, "void f()"⟩] := by cbv
  have hfound' : definedIn? "int a; void f() \x7b\n\n\x7d\n" = some [⟨"f", 1, "void f()"⟩] := by cbv
  rw [hfound] at hbefore
  rw [hfound'] at hafter
  obtain ⟨m, hm⟩ := Placed.exists_one 1 hkind hbefore (by decide)
  have hreplay := hm.replay_of_skeleton_eq [] hskeleton (by decide) rfl
  have hfresh := yields_transformedSource_of_scan (m := {}) hkind hafter rfl
  exact ⟨_, m, _, _, _, _, _, hm, hafter, hreplay, hfresh, by decide, by decide, by decide⟩

end InsertionMemo

end SketchSense
