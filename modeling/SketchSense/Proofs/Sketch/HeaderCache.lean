import SketchSense.Proofs.Sketch.Coordinates

/-!
# What the header cache hands out

Generated headers are kept by the layout of a text. The header that a sketch gets is therefore the
one of the first text with its layout, and this need not be the header of its own functions: the
layout counts the lines on which bodies open, the header the lines on which names stand.

* `Transformer.Handed`, the calls since the last clear;
* `Transformer.header_of_sources`, which header a call attaches;
* `Transformer.attaches_own_header_iff`, when it is the header of the text of the call.
-/

namespace SketchSense

/-! ## The first value of a key -/

theorem Table.find?_append {κ α : Type} [BEq κ] (k : κ) (es fs : List (κ × α)) :
    Table.find? k (es ++ fs) = (Table.find? k es).or (Table.find? k fs) := by
  induction es with
  | nil => rfl
  | cons e es ih =>
    rw [List.cons_append, Table.find?, Table.find?, ih]
    split
    · rfl
    · rfl

namespace Transformer

/-- The header that is generated for a text, or none if it is empty. -/
def ownHeader? (path : FilePath) (ds : List Definition) : Option FileBuffer :=
  if prototypeHeader path ds = "" then none
  else some ⟨path.prototypeHeader, prototypeHeader path ds⟩

variable {σ : Type} {e : Engine σ} {path : FilePath} {code : String} {args : List String}
  {s s' s₁ : σ} {t t' : Transformer} {made : Sources} {ds : List Definition}
  {seen : List (ContentHash × String)}

/-- The layout under which a text is remembered. -/
def layoutOf (path : FilePath) (code : String) : ContentHash :=
  (Skeleton.ofCode code).layout path.display

/-! ## Single calls -/

theorem headers_of_withHeader {header : String} {scan : EngineM σ (List Definition)}
    (h : Yields (t.withHeader path code header scan) s (made, t') s') : t'.headers = t.headers := by
  rcases yields_withHeader.1 h with ⟨-, -, rfl, -⟩ | ⟨-, _, _, -, -, rfl⟩
  · rfl
  · rfl

/-- With a known header the sources are made whenever the scan succeeds. -/
theorem exists_withHeader {header : String} {scan : EngineM σ (List Definition)}
    (hscan : Yields scan s ds s₁) :
    ∃ made t' s', Yields (t.withHeader path code header scan) s (made, t') s' := by
  by_cases hheader : header = ""
  · exact ⟨_, _, _, yields_withHeader.2 (.inl ⟨hheader, rfl, rfl, rfl⟩)⟩
  · cases hreplay : t.memo.replay ((Skeleton.ofCode code).signature path.display) path code with
    | some r =>
      exact ⟨_, _, _, yields_withHeader.2 (.inr ⟨hheader, _, _,
        InsertionMemo.yields_replayOrInject.2 (.inl ⟨hreplay, rfl, rfl⟩), rfl, rfl⟩)⟩
    | none =>
      exact ⟨_, _, _, yields_withHeader.2 (.inr ⟨hheader, _, _,
        InsertionMemo.yields_replayOrInject.2 (.inr ⟨hreplay, _, hscan, Prod.eta _⟩), rfl, rfl⟩)⟩

/-- The header goes with the text unless it is empty or there is no place to include it. -/
theorem header_of_withHeader {header : String} {scan : EngineM σ (List Definition)}
    (hscan : Yields scan s ds s₁)
    (h : Yields (t.withHeader path code header scan) s (made, t') s') :
    made.header =
      if header = "" ∨ (ds = [] ∧
        t.memo.replay ((Skeleton.ofCode code).signature path.display) path code = none) then none
      else some ⟨path.prototypeHeader, header⟩ := by
  rcases yields_withHeader.1 h with ⟨hempty, rfl, -⟩ | ⟨hheader, r, memo, hr, rfl, -⟩
  · rw [if_pos (.inl hempty)]
    rfl
  rcases InsertionMemo.yields_replayOrInject.1 hr with ⟨hreplay, -⟩ | ⟨hreplay, ds', hds, hinject⟩
  · have hinjected : r.injected = true := by
      unfold InsertionMemo.replay at hreplay
      split at hreplay
      · cases hreplay
      · dsimp only at hreplay
        split at hreplay
        · split at hreplay
          · cases hreplay
            rfl
          · cases hreplay
        · cases hreplay
    rw [if_neg (by simp [hheader, hreplay])]
    simp [Sources.injected, hinjected]
  · obtain ⟨rfl, -⟩ := hscan.unique hds
    have hr : r = _ := congrArg Prod.fst hinject
    rw [InsertionMemo.inject_eq] at hr
    cases hsite : includeSite? path (Text.splitLines code.toList) ds with
    | none =>
      rw [hsite] at hr
      subst hr
      rw [if_pos (.inr ⟨includeSite?_eq_none.1 hsite, hreplay⟩)]
      rfl
    | some i =>
      rw [hsite] at hr
      subst hr
      have hne : ds ≠ [] := by
        rintro rfl
        cases hsite
      rw [if_neg (by simp [hheader, hne])]
      rfl

/-! ## Calls one after the other -/

/-- Sketches are handed over one after the other; `seen` has the layout of every text since the last
clear, with the header of the functions found in it. The engine may change between the calls. -/
inductive Handed (e : Engine σ) : List (ContentHash × String) → Transformer → Prop where
  | fresh : Handed e [] {}
  | sources {seen : List (ContentHash × String)} {t t' : Transformer} {path : FilePath}
      {code : String} {args : List String} {s s₁ s' : σ} {ds : List Definition} {made : Sources} :
    Handed e seen t → path.kind = .sketchEntry →
    Yields (definitions? e path code args) s (some ds) s₁ →
    Yields (t.sources e path code args) s (made, t') s' →
    Handed e (seen ++ [(layoutOf path code, prototypeHeader path ds)]) t'
  | clear {seen : List (ContentHash × String)} {t : Transformer} : Handed e seen t → Handed e [] {}

/-- The header under which a text is handed over: that of the first text with its layout. -/
def firstHeader (seen : List (ContentHash × String)) (path : FilePath) (code : String)
    (ds : List Definition) : String :=
  (Table.find? (layoutOf path code) seen).getD (prototypeHeader path ds)

/-- The remembered headers are those of the first text of each layout. -/
theorem Handed.get?_headers (h : Handed e seen t) (k : ContentHash) :
    t.headers.get? k = Table.find? k seen := by
  induction h generalizing k with
  | fresh => rfl
  | clear _ _ => rfl
  | @sources seen t t' path code args s s₁ s' ds made _ hkind hscan hmade ih =>
    rw [Table.find?_append, ← ih k]
    rcases (yields_sources hkind).1 hmade with ⟨header, hget, h⟩ | ⟨hget, found, s₂, hfound, h⟩
    · -- a layout that is known keeps its header
      rw [headers_of_withHeader h]
      cases hk : t.headers.get? k with
      | some other => rfl
      | none =>
        have hne : (layoutOf path code == k) = false := by
          by_contra heq
          rw [Bool.not_eq_false, beq_iff_eq] at heq
          rw [← heq] at hk
          exact absurd (hget.symm.trans hk) (by simp)
        simp [Table.find?, hne]
    · -- a layout that is new is remembered with the header of this text
      obtain ⟨rfl, -⟩ := hscan.unique hfound
      rw [headers_of_withHeader h]
      cases hkey : layoutOf path code == k with
      | true =>
        rw [beq_iff_eq] at hkey
        subst hkey
        have hnone : t.headers.get? (layoutOf path code) = none := hget
        rw [hnone]
        simp [Table.find?, layoutOf]
      | false =>
        have hother : (((Skeleton.ofCode code).layout path.display) == k) = false := hkey
        rw [Table.get?_insert_of_ne _ hother]
        simp [Table.find?, hkey]

/-- A call attaches the header of the first text with the same layout, if there is one to attach and
a place to include it. -/
theorem Handed.header_of_sources (h : Handed e seen t) (hkind : path.kind = .sketchEntry)
    (hscan : Yields (definitions? e path code args) s (some ds) s₁)
    (hmade : Yields (t.sources e path code args) s (made, t') s') :
    made.header =
      if firstHeader seen path code ds = "" ∨ (ds = [] ∧
        t.memo.replay ((Skeleton.ofCode code).signature path.display) path code = none) then none
      else some ⟨path.prototypeHeader, firstHeader seen path code ds⟩ := by
  unfold firstHeader
  rw [← h.get?_headers]
  rcases (yields_sources hkind).1 hmade with ⟨header, hget, hwith⟩ | ⟨hget, found, s₂, hfound, hwith⟩
  · have hget' : t.headers.get? (layoutOf path code) = some header := hget
    have hds : Yields (do return (← definitions? e path code args).getD []) s ds s₁ :=
      yields_bind.2 ⟨_, _, hscan, yields_pure.2 ⟨rfl, rfl⟩⟩
    rw [hget', Option.getD_some]
    exact header_of_withHeader hds hwith
  · have hget' : t.headers.get? (layoutOf path code) = none := hget
    obtain ⟨rfl, rfl⟩ := hscan.unique hfound
    have hheader := header_of_withHeader (yields_pure.2 ⟨rfl, rfl⟩) hwith
    rw [hget', Option.getD_none]
    exact hheader

/-- The sources of a sketch are made whenever it can be scanned. -/
theorem exists_sources (hkind : path.kind = .sketchEntry)
    (hscan : Yields (definitions? e path code args) s (some ds) s₁) :
    ∃ made t' s', Yields (t.sources e path code args) s (made, t') s' := by
  cases hget : t.headers.get? ((Skeleton.ofCode code).layout path.display) with
  | some header =>
    have hds : Yields (do return (← definitions? e path code args).getD []) s ds s₁ :=
      yields_bind.2 ⟨_, _, hscan, yields_pure.2 ⟨rfl, rfl⟩⟩
    obtain ⟨made, t', s', hmade⟩ := exists_withHeader hds
    exact ⟨made, t', s', (yields_sources hkind).2 (.inl ⟨header, hget, hmade⟩)⟩
  | none =>
    obtain ⟨made, t', s', hmade⟩ := exists_withHeader (yields_pure.2 ⟨rfl, rfl⟩)
    exact ⟨made, t', s', (yields_sources hkind).2 (.inr ⟨hget, _, _, hscan, hmade⟩)⟩

/-- After any calls, a sketch gets the header of its own functions exactly if the first text with its
layout has the same header, or if it defines nothing and no place for the include is remembered. -/
theorem Handed.attaches_own_header_iff (h : Handed e seen t) (hkind : path.kind = .sketchEntry)
    (hscan : Yields (definitions? e path code args) s (some ds) s₁) :
    ∃ made t' s', Yields (t.sources e path code args) s (made, t') s' ∧
      Handed e (seen ++ [(layoutOf path code, prototypeHeader path ds)]) t' ∧
      (made.header = ownHeader? path ds ↔
        firstHeader seen path code ds = prototypeHeader path ds ∨ (ds = [] ∧
          t.memo.replay ((Skeleton.ofCode code).signature path.display) path code = none)) := by
  obtain ⟨made, t', s', hmade⟩ := exists_sources hkind hscan
  refine ⟨made, t', s', hmade, .sources h hkind hscan hmade, ?_⟩
  rw [h.header_of_sources hkind hscan hmade]
  unfold ownHeader?
  by_cases hnone : ds = [] ∧
      t.memo.replay ((Skeleton.ofCode code).signature path.display) path code = none
  · obtain ⟨rfl, hreplay⟩ := hnone
    have hempty : prototypeHeader path [] = "" := rfl
    simp [hreplay, hempty]
  · by_cases hfirst : firstHeader seen path code ds = ""
    · by_cases hown : prototypeHeader path ds = ""
      · simp [hfirst, hown]
      · simp [hfirst, hown, hnone, Ne.symm hown]
    · by_cases hown : prototypeHeader path ds = ""
      · simp [hfirst, hown, hnone]
      · simp [hfirst, hown, hnone]

/-! ## Two texts with one skeleton -/

theorem Handed.exists_one (hkind : path.kind = .sketchEntry)
    (hscan : Yields (definitions? e path code args) s (some ds) s₁) :
    ∃ t, Handed e [(layoutOf path code, prototypeHeader path ds)] t := by
  obtain ⟨_, t, _, hmade⟩ := exists_sources (t := {}) hkind hscan
  exact ⟨t, .sources .fresh hkind hscan hmade⟩

theorem firstHeader_of_skeleton_eq {code' header : String}
    (h : Skeleton.ofCode code' = Skeleton.ofCode code) :
    firstHeader [(layoutOf path code, header)] path code' ds = header := by
  unfold firstHeader layoutOf
  rw [h]
  simp [Table.find?]

open Model

/-- An edit inside a body keeps the header. -/
theorem attaches_own_header_after_body_edit :
    ∃ seen t made t' s', Handed modelEngine seen t ∧
      Yields (t.sources modelEngine ⟨"/s/Blink.ino"⟩ "void f() \x7b b; \x7d\n" []) {} (made, t') s' ∧
      made.header = some ⟨⟨"/s/Blink.ino.hpp"⟩,
        "#pragma once\n#line 1 \"/s/Blink.ino\"\nvoid f();\n"⟩ := by
  have hkind : (FilePath.mk "/s/Blink.ino").kind = .sketchEntry := by decide
  have hskeleton : Skeleton.ofCode "void f() \x7b b; \x7d\n" =
      Skeleton.ofCode "void f() \x7b a; \x7d\n" := by decide
  have hown : ownHeader? ⟨"/s/Blink.ino"⟩ [⟨"f", 1, "void f()"⟩] = some ⟨⟨"/s/Blink.ino.hpp"⟩,
      "#pragma once\n#line 1 \"/s/Blink.ino\"\nvoid f();\n"⟩ := by rfl
  have hbefore := yields_definitions? (s := {}) ⟨"/s/Blink.ino"⟩
    "void f() \x7b a; \x7d\n" [] (by cbv) rfl
  have hafter := yields_definitions? (s := {}) ⟨"/s/Blink.ino"⟩
    "void f() \x7b b; \x7d\n" [] (by cbv) rfl
  have hfound : definedIn? "void f() \x7b a; \x7d\n" = some [⟨"f", 1, "void f()"⟩] := by cbv
  have hfound' : definedIn? "void f() \x7b b; \x7d\n" = some [⟨"f", 1, "void f()"⟩] := by cbv
  rw [hfound] at hbefore
  rw [hfound'] at hafter
  obtain ⟨t, ht⟩ := Handed.exists_one hkind hbefore
  obtain ⟨made, t', s', hmade, -, hiff⟩ := Handed.attaches_own_header_iff ht hkind hafter
  rw [hown, firstHeader_of_skeleton_eq hskeleton] at hiff
  exact ⟨_, t, made, t', s', ht, hmade, hiff.2 (.inl rfl)⟩

/-- Where the name and the body of a function stand on lines of their own, the name may move while
the layout stays: the header of the old text is attached. -/
theorem attaches_stale_header :
    ∃ seen t made t' s₁ s', Handed modelEngine seen t ∧
      Yields (definitions? modelEngine ⟨"/s/Blink.ino"⟩ "void\nf() \x7b\x7d\n" []) {}
        (some [⟨"f", 2, "void f()"⟩]) s₁ ∧
      Yields (t.sources modelEngine ⟨"/s/Blink.ino"⟩ "void\nf() \x7b\x7d\n" []) {} (made, t') s' ∧
      made.header = ownHeader? ⟨"/s/Blink.ino"⟩ [⟨"f", 1, "void f()"⟩] ∧
      made.header ≠ ownHeader? ⟨"/s/Blink.ino"⟩ [⟨"f", 2, "void f()"⟩] := by
  have hkind : (FilePath.mk "/s/Blink.ino").kind = .sketchEntry := by decide
  have hskeleton : Skeleton.ofCode "void\nf() \x7b\x7d\n" =
      Skeleton.ofCode "void f()\n\x7b\x7d\n" := by cbv
  have hold : prototypeHeader ⟨"/s/Blink.ino"⟩ [⟨"f", 1, "void f()"⟩] ≠ "" := by decide
  have hnew : prototypeHeader ⟨"/s/Blink.ino"⟩ [⟨"f", 2, "void f()"⟩] ≠ "" := by decide
  have hmoved : prototypeHeader ⟨"/s/Blink.ino"⟩ [⟨"f", 1, "void f()"⟩] ≠
      prototypeHeader ⟨"/s/Blink.ino"⟩ [⟨"f", 2, "void f()"⟩] := by decide
  have hbefore := yields_definitions? (s := {}) ⟨"/s/Blink.ino"⟩
    "void f()\n\x7b\x7d\n" [] (by cbv) rfl
  have hafter := yields_definitions? (s := {}) ⟨"/s/Blink.ino"⟩
    "void\nf() \x7b\x7d\n" [] (by cbv) rfl
  have hfound : definedIn? "void f()\n\x7b\x7d\n" = some [⟨"f", 1, "void f()"⟩] := by cbv
  have hfound' : definedIn? "void\nf() \x7b\x7d\n" = some [⟨"f", 2, "void f()"⟩] := by cbv
  rw [hfound] at hbefore
  rw [hfound'] at hafter
  obtain ⟨t, ht⟩ := Handed.exists_one hkind hbefore
  obtain ⟨made, t', s', hmade⟩ := exists_sources (t := t) hkind hafter
  have hheader := ht.header_of_sources hkind hafter hmade
  rw [firstHeader_of_skeleton_eq hskeleton, if_neg (by simp [hold])] at hheader
  refine ⟨_, t, made, t', _, s', ht, hafter, hmade, ?_, ?_⟩
  · rw [hheader, ownHeader?, if_neg hold]
  · rw [hheader, ownHeader?, if_neg hnew]
    intro h
    exact hmoved (congrArg FileBuffer.code (Option.some.inj h))

end Transformer

end SketchSense
