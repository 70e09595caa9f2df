import SketchSense.Proofs.Sketch.HeaderCache

/-!
# After a scan that failed

The header cache does not tell a sketch that could not be scanned from one that declares nothing: for
both the empty header is kept under the layout. So after a failure the engine is not asked again
about a sketch of that layout, and the sketch gets no header, until the cache is cleared.

* `SourceCall` and `Serves`, texts handed over one after the other;
* `sources_of_failed_scan`, what a call with a failed scan leaves behind;
* `BlindTo`, two transformers of which one keeps an empty header that the other does not know of;
* `failed_scan_unseen_iff`, on which later texts the failure cannot be seen.
-/

namespace SketchSense

/-- A text that is handed over, with the state in which the engine is at that time. -/
structure SourceCall (σ : Type) where
  path : FilePath
  code : String
  args : List String
  engine : σ

namespace SourceCall

variable {σ : Type}

/-- The scan of the text finds these functions. -/
def Finds (call : SourceCall σ) (e : Engine σ) (ds : List Definition) : Prop :=
  ∃ s, Yields (definitions? e call.path call.code call.args) call.engine (some ds) s

/-- Whether the text is a sketch whose header is kept under this layout. -/
def isKeptUnder (layout : ContentHash) (call : SourceCall σ) : Bool :=
  call.path.kind = .sketchEntry && Transformer.layoutOf call.path call.code == layout

theorem Finds.unique {call : SourceCall σ} {e : Engine σ} {ds ds' : List Definition}
    (h : call.Finds e ds) (h' : call.Finds e ds') : ds = ds' := by
  obtain ⟨s, hs⟩ := h
  obtain ⟨s', hs'⟩ := h'
  exact Option.some.inj (hs.unique hs').1

end SourceCall

namespace Transformer

variable {σ : Type} {e : Engine σ} {path : FilePath} {code : String} {args : List String}
  {s s' s₁ : σ} {t t' u u' : Transformer} {made : Sources} {calls : List (SourceCall σ)}
  {layout : ContentHash}

/-- Texts are handed over one after the other. Between the calls the engine may change in any
way. -/
inductive Serves (e : Engine σ) :
    Transformer → List (SourceCall σ) → List Sources → Transformer → Prop where
  | nil {t : Transformer} : Serves e t [] [] t
  | cons {t t₁ t' : Transformer} {call : SourceCall σ} {calls : List (SourceCall σ)}
      {made : Sources} {answers : List Sources} {s : σ}
      (head : Yields (t.sources e call.path call.code call.args) call.engine (made, t₁) s)
      (tail : Serves e t₁ calls answers t') : Serves e t (call :: calls) (made :: answers) t'

/-- The transformer with a header kept for a layout. -/
def keepHeader (t : Transformer) (layout : ContentHash) (header : String) : Transformer :=
  { t with headers := t.headers.insert layout header }

theorem get?_keepHeader_self (t : Transformer) (layout : ContentHash) (header : String) :
    (t.keepHeader layout header).headers.get? layout = some header :=
  Table.get?_insert_self ..

theorem get?_keepHeader_of_ne (t : Transformer) (header : String) {k : ContentHash}
    (h : k ≠ layout) : (t.keepHeader layout header).headers.get? k = t.headers.get? k :=
  Table.get?_insert_of_ne _ (beq_eq_false_iff_ne.2 (Ne.symm h)) _

/-! ## The call that fails -/

/-- A call with a failed scan changes nothing where the layout is known. Otherwise the empty header
is kept for it. -/
theorem sources_of_failed_scan (hkind : path.kind = .sketchEntry)
    (hfails : Yields (definitions? e path code args) s none s₁) :
    ∃ made t' s', Yields (t.sources e path code args) s (made, t') s' ∧
      (t.headers.get? (layoutOf path code) ≠ none ∧ t' = t ∨
        t.headers.get? (layoutOf path code) = none ∧ made = .renamed path code ∧
          t' = t.keepHeader (layoutOf path code) "") := by
  cases hget : t.headers.get? (layoutOf path code) with
  | none =>
    refine ⟨_, _, _, (yields_sources hkind).2 (.inr ⟨hget, none, s₁, hfails,
      yields_withHeader.2 (.inl ⟨rfl, rfl, rfl, rfl⟩)⟩), .inr ⟨rfl, rfl, rfl⟩⟩
  | some header =>
    have hnothing : Yields (do return (← definitions? e path code args).getD []) s [] s₁ :=
      yields_bind.2 ⟨none, s₁, hfails, yields_pure.2 ⟨rfl, rfl⟩⟩
    obtain ⟨made, t', s', hmade⟩ : ∃ made t' s', Yields (t.withHeader path code header
        (do return (← definitions? e path code args).getD [])) s (made, t') s' :=
      exists_withHeader hnothing
    refine ⟨made, t', s', (yields_sources hkind).2 (.inl ⟨header, hget, hmade⟩),
      .inl ⟨Option.some_ne_none _, ?_⟩⟩
    rcases yields_withHeader.1 hmade with ⟨-, -, rfl, -⟩ | ⟨-, r, memo, hr, -, rfl⟩
    · rfl
    · -- above no definition there is no place for an include, so none is remembered
      rcases InsertionMemo.yields_replayOrInject.1 hr with ⟨-, rfl, -⟩ | ⟨-, ds, hds, hinject⟩
      · rfl
      · obtain ⟨rfl, -⟩ := hnothing.unique hds
        obtain ⟨-, rfl⟩ := Prod.mk.inj hinject
        rfl

/-! ## What one call looks at -/

/-- With a known header a call looks at the memo alone, and changes no header. -/
theorem yields_withHeader_of_memo {header : String} {scan : EngineM σ (List Definition)}
    (hmemo : u.memo = t.memo) (h : Yields (t.withHeader path code header scan) s (made, t') s') :
    ∃ u', Yields (u.withHeader path code header scan) s (made, u') s' ∧ u'.memo = t'.memo ∧
      t'.headers = t.headers ∧ u'.headers = u.headers := by
  rcases yields_withHeader.1 h with ⟨hempty, rfl, rfl, rfl⟩ | ⟨hheader, r, memo, hr, rfl, rfl⟩
  · exact ⟨u, yields_withHeader.2 (.inl ⟨hempty, rfl, rfl, rfl⟩), hmemo, rfl, rfl⟩
  · rw [← hmemo] at hr
    exact ⟨_, yields_withHeader.2 (.inr ⟨hheader, r, memo, hr, rfl, rfl⟩), rfl, rfl, rfl⟩

/-- A call looks at the memo and at the header that is kept for its layout, and changes no other
header. -/
theorem yields_sources_of_agree (hmemo : u.memo = t.memo)
    (hget : path.kind = .sketchEntry →
      u.headers.get? (layoutOf path code) = t.headers.get? (layoutOf path code))
    (h : Yields (t.sources e path code args) s (made, t') s') :
    ∃ u', Yields (u.sources e path code args) s (made, u') s' ∧ u'.memo = t'.memo ∧
      ∀ k, (t'.headers.get? k = t.headers.get? k ∧ u'.headers.get? k = u.headers.get? k) ∨
        path.kind = .sketchEntry ∧ k = layoutOf path code ∧
          u'.headers.get? k = t'.headers.get? k := by
  by_cases hkind : path.kind = .sketchEntry
  · have hget := hget hkind
    rcases (yields_sources hkind).1 h with ⟨header, hknown, h⟩ | ⟨hnew, found, s₂, hfound, h⟩
    · obtain ⟨u', hu', hmemo', ht', hheaders⟩ := yields_withHeader_of_memo hmemo h
      refine ⟨u', (yields_sources hkind).2 (.inl ⟨header, hget.trans hknown, hu'⟩), hmemo', ?_⟩
      intro k
      exact .inl ⟨by rw [ht'], by rw [hheaders]⟩
    · -- both keep the header that was found
      have hkept : (u.keepHeader (layoutOf path code)
            ((found.map (prototypeHeader path)).getD "")).memo =
          (t.keepHeader (layoutOf path code) ((found.map (prototypeHeader path)).getD "")).memo :=
        hmemo
      obtain ⟨u', hu', hmemo', ht', hheaders⟩ := yields_withHeader_of_memo hkept h
      refine ⟨u', (yields_sources hkind).2 (.inr ⟨hget.trans hnew, found, s₂, hfound, hu'⟩),
        hmemo', ?_⟩
      intro k
      rw [ht', hheaders]
      by_cases hk : k = layoutOf path code
      · refine .inr ⟨hkind, hk, ?_⟩
        rw [hk, get?_keepHeader_self, get?_keepHeader_self]
      · rw [get?_keepHeader_of_ne _ _ hk, get?_keepHeader_of_ne _ _ hk]
        exact .inl ⟨rfl, rfl⟩
  · obtain ⟨hmade, rfl⟩ := (yields_sources_plain hkind).1 h
    obtain ⟨rfl, rfl⟩ := Prod.mk.inj hmade
    exact ⟨u, (yields_sources_plain hkind).2 ⟨rfl, rfl⟩, hmemo, fun k => .inl ⟨rfl, rfl⟩⟩

/-- The sources of a call are made if its scan succeeds. -/
theorem exists_sources_of_finds {call : SourceCall σ} (t : Transformer)
    (hfinds : call.path.kind = .sketchEntry → ∃ ds, call.Finds e ds) :
    ∃ made t' s', Yields (t.sources e call.path call.code call.args) call.engine (made, t') s' := by
  by_cases hkind : call.path.kind = .sketchEntry
  · obtain ⟨ds, s, hscan⟩ := hfinds hkind
    exact exists_sources hkind hscan
  · exact ⟨_, _, _, (yields_sources_plain hkind).2 ⟨rfl, rfl⟩⟩

/-! ## Transformers that know the same -/

/-- Two transformers remember the same. -/
structure SameMemory (t u : Transformer) : Prop where
  memo : u.memo = t.memo
  headers : ∀ k, u.headers.get? k = t.headers.get? k

/-- Transformers that remember the same give the same answers. -/
theorem SameMemory.exists_serves (h : SameMemory t u)
    (hfinds : ∀ call ∈ calls, call.path.kind = .sketchEntry → ∃ ds, call.Finds e ds) :
    ∃ answers t' u', Serves e t calls answers t' ∧ Serves e u calls answers u' := by
  induction calls generalizing t u with
  | nil => exact ⟨[], t, u, .nil, .nil⟩
  | cons call calls ih =>
    obtain ⟨made, t₁, s, hmade⟩ := exists_sources_of_finds t (hfinds call List.mem_cons_self)
    obtain ⟨u₁, hmade', hmemo, hheaders⟩ :=
      yields_sources_of_agree h.memo (fun _ => h.headers _) hmade
    have hsame : SameMemory t₁ u₁ := by
      refine ⟨hmemo, fun k => ?_⟩
      rcases hheaders k with ⟨ht, hu⟩ | ⟨-, -, heq⟩
      · rw [ht, hu, h.headers]
      · exact heq
    obtain ⟨answers, t', u', hserves, hserves'⟩ :=
      ih hsame fun c hc => hfinds c (List.mem_cons_of_mem _ hc)
    exact ⟨made :: answers, t', u', .cons hmade hserves, .cons hmade' hserves'⟩

/-! ## A transformer that keeps an empty header -/

/-- The second transformer keeps the empty header for a layout that the first one does not know.
Apart from that they remember the same. -/
structure BlindTo (layout : ContentHash) (t u : Transformer) : Prop where
  memo : u.memo = t.memo
  unknown : t.headers.get? layout = none
  empty : u.headers.get? layout = some ""
  others : ∀ k, k ≠ layout → u.headers.get? k = t.headers.get? k

theorem blindTo_keepHeader (hnew : t.headers.get? layout = none) :
    BlindTo layout t (t.keepHeader layout "") where
  memo := rfl
  unknown := hnew
  empty := get?_keepHeader_self ..
  others _ hk := get?_keepHeader_of_ne _ _ hk

/-- A text of another layout gets the same answer from both, and leaves them as different as they
were. -/
theorem BlindTo.step (h : BlindTo layout t u) {call : SourceCall σ}
    (hother : call.isKeptUnder layout = false)
    (hmade : Yields (t.sources e call.path call.code call.args) s (made, t') s') :
    ∃ u', Yields (u.sources e call.path call.code call.args) s (made, u') s' ∧
      BlindTo layout t' u' := by
  have hlayout : call.path.kind = .sketchEntry → layoutOf call.path call.code ≠ layout := by
    intro hkind heq
    simp [SourceCall.isKeptUnder, hkind, heq] at hother
  obtain ⟨u', hu', hmemo, hheaders⟩ :=
    yields_sources_of_agree h.memo (fun hkind => h.others _ (hlayout hkind)) hmade
  have hkept : t'.headers.get? layout = t.headers.get? layout ∧
      u'.headers.get? layout = u.headers.get? layout := by
    rcases hheaders layout with hkept | ⟨hkind, heq, -⟩
    · exact hkept
    · exact absurd heq.symm (hlayout hkind)
  refine ⟨u', hu', hmemo, hkept.1.trans h.unknown, hkept.2.trans h.empty, ?_⟩
  intro k hk
  rcases hheaders k with ⟨ht, hu⟩ | ⟨-, -, heq⟩
  · rw [ht, hu, h.others k hk]
  · exact heq

/-- The first transformer scans a sketch of the layout, the second one does not: it only changes the
name. -/
theorem BlindTo.sources (h : BlindTo (layoutOf path code) t u) (hkind : path.kind = .sketchEntry)
    {ds : List Definition} (hscan : Yields (definitions? e path code args) s (some ds) s₁) :
    Yields (u.sources e path code args) s (.renamed path code, u) s ∧
      ∃ made t' s', Yields (t.sources e path code args) s (made, t') s' ∧
        (prototypeHeader path ds = "" ∧ made = .renamed path code ∧ SameMemory t' u ∨
          prototypeHeader path ds ≠ "" ∧
            made.header = some ⟨path.prototypeHeader, prototypeHeader path ds⟩) := by
  refine ⟨(yields_sources hkind).2 (.inl ⟨"", h.empty, yields_withHeader.2
    (.inl ⟨rfl, rfl, rfl, rfl⟩)⟩), ?_⟩
  by_cases hempty : prototypeHeader path ds = ""
  · -- both now keep the empty header
    refine ⟨_, _, _, (yields_sources hkind).2 (.inr ⟨h.unknown, some ds, s₁, hscan,
      yields_withHeader.2 (.inl ⟨hempty, rfl, rfl, rfl⟩)⟩), .inl ⟨hempty, rfl, h.memo, fun k => ?_⟩⟩
    show _ = (t.keepHeader (layoutOf path code) (prototypeHeader path ds)).headers.get? k
    rw [hempty]
    by_cases hk : k = layoutOf path code
    · rw [hk, h.empty, get?_keepHeader_self]
    · rw [h.others k hk, get?_keepHeader_of_ne _ _ hk]
  · obtain ⟨made, t', s', hmade⟩ : ∃ made t' s',
        Yields ((t.keepHeader (layoutOf path code) (prototypeHeader path ds)).withHeader path code
          (prototypeHeader path ds) (pure ds)) s₁ (made, t') s' :=
      exists_withHeader (yields_pure.2 ⟨rfl, rfl⟩)
    refine ⟨made, t', s', (yields_sources hkind).2 (.inr ⟨h.unknown, some ds, s₁, hscan, hmade⟩),
      .inr ⟨hempty, ?_⟩⟩
    have hsome : ds ≠ [] := by
      rintro rfl
      exact hempty rfl
    rw [header_of_withHeader (yields_pure.2 ⟨rfl, rfl⟩) hmade, if_neg]
    rintro (hnone | ⟨hnone, -⟩)
    · exact hempty hnone
    · exact hsome hnone

/-- The answers of both are the same exactly if the first sketch of the layout declares nothing. -/
theorem BlindTo.answers_eq_iff (h : BlindTo layout t u)
    (hfinds : ∀ call ∈ calls, call.path.kind = .sketchEntry → ∃ ds, call.Finds e ds) :
    ∃ answers t' answers' u', Serves e t calls answers t' ∧ Serves e u calls answers' u' ∧
      (answers' = answers ↔ ∀ call, calls.find? (·.isKeptUnder layout) = some call →
        ∀ ds, call.Finds e ds → prototypeHeader call.path ds = "") := by
  -- the two go side by side up to the first sketch of the layout
  induction calls generalizing t u with
  | nil => exact ⟨[], t, [], u, .nil, .nil, by simp⟩
  | cons call calls ih =>
    have hrest : ∀ c ∈ calls, c.path.kind = .sketchEntry → ∃ ds, c.Finds e ds :=
      fun c hc => hfinds c (List.mem_cons_of_mem _ hc)
    cases hkept : call.isKeptUnder layout with
    | false =>
      rw [List.find?_cons_of_neg (by simp [hkept])]
      obtain ⟨made, t₁, s, hmade⟩ := exists_sources_of_finds t (hfinds call List.mem_cons_self)
      obtain ⟨u₁, hmade', hblind⟩ := h.step hkept hmade
      obtain ⟨answers, t', answers', u', hserves, hserves', hiff⟩ := ih hblind hrest
      refine ⟨made :: answers, t', made :: answers', u', .cons hmade hserves,
        .cons hmade' hserves', ?_⟩
      rw [List.cons.injEq, ← hiff]
      exact and_iff_right rfl
    | true =>
      rw [List.find?_cons_of_pos hkept]
      simp only [SourceCall.isKeptUnder, Bool.and_eq_true, decide_eq_true_eq, beq_iff_eq] at hkept
      obtain ⟨hkind, rfl⟩ := hkept
      obtain ⟨ds, s₁, hscan⟩ := hfinds call List.mem_cons_self hkind
      obtain ⟨hmade', made, t₁, s, hmade, hcases⟩ := h.sources hkind hscan
      rcases hcases with ⟨hempty, rfl, hsame⟩ | ⟨hheader, hattached⟩
      · obtain ⟨answers, t', u', hserves, hserves'⟩ := hsame.exists_serves hrest
        refine ⟨_, t', _, u', .cons hmade hserves, .cons hmade' hserves', iff_of_true rfl ?_⟩
        rintro c ⟨⟩ ds' hds'
        rw [← SourceCall.Finds.unique ⟨s₁, hscan⟩ hds', hempty]
      · obtain ⟨answers, t', -, hserves, -⟩ := SameMemory.exists_serves (e := e) (t := t₁) (u := t₁)
          ⟨rfl, fun _ => rfl⟩ hrest
        obtain ⟨answers', u', -, hserves', -⟩ := SameMemory.exists_serves (e := e) (t := u) (u := u)
          ⟨rfl, fun _ => rfl⟩ hrest
        refine ⟨_, t', _, u', .cons hmade hserves, .cons hmade' hserves', iff_of_false ?_ ?_⟩
        · intro heq
          -- the one answer has a header, the other has none
          rw [← (List.cons.inj heq).1] at hattached
          cases hattached
        · intro hall
          exact hheader (hall call rfl ds ⟨s₁, hscan⟩)

/-! ## The failure from outside -/

/-- A call with a failed scan cannot be seen in the answers to later texts exactly if the layout was
known before, or if the first later sketch with the layout declares nothing. Otherwise that sketch is
left without its header. -/
theorem failed_scan_unseen_iff (hkind : path.kind = .sketchEntry)
    (hfails : Yields (definitions? e path code args) s none s₁)
    (hfinds : ∀ call ∈ calls, call.path.kind = .sketchEntry → ∃ ds, call.Finds e ds) :
    ∃ made t' s', Yields (t.sources e path code args) s (made, t') s' ∧ t'.memo = t.memo ∧
      ∃ answers u answers' u', Serves e t calls answers u ∧ Serves e t' calls answers' u' ∧
        (answers' = answers ↔ t.headers.get? (layoutOf path code) ≠ none ∨
          ∀ call, calls.find? (·.isKeptUnder (layoutOf path code)) = some call →
            ∀ ds, call.Finds e ds → prototypeHeader call.path ds = "") := by
  obtain ⟨made, t', s', hmade, ⟨hknown, rfl⟩ | ⟨hnew, -, rfl⟩⟩ :=
    sources_of_failed_scan (t := t) hkind hfails
  · obtain ⟨answers, u, -, hserves, -⟩ := SameMemory.exists_serves (e := e) (t := t') (u := t')
      ⟨rfl, fun _ => rfl⟩ hfinds
    exact ⟨made, t', s', hmade, rfl, answers, u, answers, u, hserves, hserves,
      iff_of_true rfl (.inl hknown)⟩
  · obtain ⟨answers, u, answers', u', hserves, hserves', hiff⟩ :=
      (blindTo_keepHeader hnew).answers_eq_iff hfinds
    refine ⟨made, _, s', hmade, rfl, answers, u, answers', u', hserves, hserves', ?_⟩
    rw [hiff]
    exact (or_iff_right (not_not_intro hnew)).symm

open Model

/-- A scan that was told to fail finds nothing. -/
theorem yields_definitions?_of_failsOn {s : ModelState} (path : FilePath) (code : String)
    (args : List String) (hfails : s.failsOn (scanRequest path code args) = true) :
    Yields (definitions? modelEngine path code args) s none
      (s.afterParse (scanRequest path code args)) := by
  unfold definitions?
  refine yields_bind.2 ⟨.error (.parseFailed path failureReason), _, ?_, yields_pure.2 ⟨rfl, rfl⟩⟩
  show Yields (parse _) s _ _
  unfold parse
  simp only [yields_bind, yields_get, yields_set]
  refine ⟨s, s, ⟨rfl, rfl⟩, ⟨⟩, _, rfl, ?_⟩
  rw [if_pos hfails]
  exact yields_pure.2 ⟨rfl, rfl⟩

/-- A sketch without functions gets the same answer whether or not an earlier scan of it failed. -/
theorem failed_scan_unseen_without_functions :
    ∃ made t' s', Yields (({} : Transformer).sources modelEngine ⟨"/s/Blink.ino"⟩ "int a;\n" [])
        { failsOn := fun _ => true } (made, t') s' ∧
      ∃ answers u answers' u',
        Serves modelEngine {} [⟨⟨"/s/Blink.ino"⟩, "int a;\n", [], {}⟩] answers u ∧
        Serves modelEngine t' [⟨⟨"/s/Blink.ino"⟩, "int a;\n", [], {}⟩] answers' u' ∧
        answers' = answers := by
  have hkind : (FilePath.mk "/s/Blink.ino").kind = .sketchEntry := by decide
  have hfails := yields_definitions?_of_failsOn (s := { failsOn := fun _ => true })
    ⟨"/s/Blink.ino"⟩ "int a;\n" [] rfl
  have hscan := yields_definitions? (s := {}) ⟨"/s/Blink.ino"⟩ "int a;\n" [] (by cbv) rfl
  have hfound : definedIn? "int a;\n" = some [] := by cbv
  rw [hfound] at hscan
  have hfinds : SourceCall.Finds ⟨⟨"/s/Blink.ino"⟩, "int a;\n", [], {}⟩ modelEngine [] := ⟨_, hscan⟩
  have hcalls : ∀ call ∈ [SourceCall.mk ⟨"/s/Blink.ino"⟩ "int a;\n" [] ({} : ModelState)],
      call.path.kind = .sketchEntry → ∃ ds, call.Finds modelEngine ds := by
    intro call hcall _
    rw [List.mem_singleton.1 hcall]
    exact ⟨_, hfinds⟩
  obtain ⟨made, t', s', hmade, -, answers, u, answers', u', hserves, hserves', hiff⟩ :=
    failed_scan_unseen_iff (t := {}) hkind hfails hcalls
  refine ⟨made, t', s', hmade, answers, u, answers', u', hserves, hserves', hiff.2 (.inr ?_)⟩
  intro call hcall ds hds
  obtain rfl := List.mem_singleton.1 (List.mem_of_find?_eq_some hcall)
  rw [← hfinds.unique hds]
  rfl

/-- A sketch with a function that could not be scanned once gets no header when it can be scanned
again, although it gets one where nothing failed before. -/
theorem failed_scan_hides_header :
    ∃ failed t' s' late u s₁ fresh u' s₂,
      Yields (({} : Transformer).sources modelEngine ⟨"/s/Blink.ino"⟩ "void f() \x7b\x7d\n" [])
        { failsOn := fun _ => true } (failed, t') s' ∧
      Yields (t'.sources modelEngine ⟨"/s/Blink.ino"⟩ "void f() \x7b\x7d\n" []) {} (late, u) s₁ ∧
      Yields (({} : Transformer).sources modelEngine ⟨"/s/Blink.ino"⟩ "void f() \x7b\x7d\n" []) {}
        (fresh, u') s₂ ∧
      late.header = none ∧
      fresh.header = some ⟨⟨"/s/Blink.ino.hpp"⟩,
        "#pragma once\n#line 1 \"/s/Blink.ino\"\nvoid f();\n"⟩ := by
  have hkind : (FilePath.mk "/s/Blink.ino").kind = .sketchEntry := by decide
  have hfails := yields_definitions?_of_failsOn (s := { failsOn := fun _ => true })
    ⟨"/s/Blink.ino"⟩ "void f() \x7b\x7d\n" [] rfl
  have hscan := yields_definitions? (s := {}) ⟨"/s/Blink.ino"⟩ "void f() \x7b\x7d\n" []
    (by cbv) rfl
  have hfound : definedIn? "void f() \x7b\x7d\n" = some [⟨"f", 1, "void f()"⟩] := by cbv
  rw [hfound] at hscan
  have hheader : prototypeHeader ⟨"/s/Blink.ino"⟩ [⟨"f", 1, "void f()"⟩] =
      "#pragma once\n#line 1 \"/s/Blink.ino\"\nvoid f();\n" := by rfl
  obtain ⟨failed, t', s', hfailed, ⟨hknown, -⟩ | ⟨hnew, -, rfl⟩⟩ :=
    sources_of_failed_scan (t := {}) hkind hfails
  · exact absurd (Table.get?_empty _) hknown
  · obtain ⟨hlate, fresh, u', s₂, hfresh, ⟨hempty, -⟩ | ⟨-, hattached⟩⟩ :=
      (blindTo_keepHeader hnew).sources hkind hscan
    · rw [hheader] at hempty
      exact absurd hempty (by decide)
    · rw [hheader] at hattached
      exact ⟨failed, _, s', _, _, _, fresh, u', s₂, hfailed, hlate, hfresh, rfl, hattached⟩

end Transformer

end SketchSense
