import SketchSense.Proofs.Cache.Completing

/-!
# What one file does to another

Files share what is remembered between builds, but what a file is handed over as depends only on what
is remembered for its own layout and signature. So while the engine does not fail, a file gets the same
unit wherever the unit that is kept for it and this memory are the same, and a request about one file
leaves them as they are for every other one, unless both are sketches with one layout or signature.

* `UnitBuilder.AlikeFor`, builders that are alike for a file;
* `UnitBuilder.AlikeFor.exists_build` and `UnitBuilder.AlikeFor.exists_reparse`, that such builders make
  the same unit, and `UnitCache.exists_resolveWith_of_alikeFor`, that a request is answered with it;
* `UnitCache.keeps_resolveWith_alikeFor`, what a request about another file leaves as it is.
-/

namespace SketchSense

open Model

/-! ## Scans -/

section Scans

variable {s s' r : ModelState} {path : FilePath} {code : String} {args : List String}

/-- A scan finds the same whatever the engine did before, while it does not fail. -/
theorem exists_yields_definitions? (hs : s.Unfailing) (hr : r.Unfailing)
    {found : Option (List Definition)}
    (h : Yields (definitions? modelEngine path code args) s found s') :
    ∃ r', Yields (definitions? modelEngine path code args) r found r' := by
  have hmain : (scanRequest path code args).mainCode?.isSome := by
    simp [ParseRequest.mainCode?, scanRequest]
  unfold definitions? at h ⊢
  obtain ⟨answer, t, hparse, hrest⟩ := yields_bind.1 h
  have hagain : Yields (modelEngine.parse (scanRequest path code args)) r answer
      (r.afterParse (scanRequest path code args)) := by
    unfold Yields at hparse ⊢
    rw [runFrom_parse (hs.parse _) hmain] at hparse
    rw [runFrom_parse (hr.parse _) hmain, (Prod.mk.inj hparse).1]
  cases answer with
  | ok u =>
    obtain ⟨rfl, -⟩ := yields_pure.1 hrest
    exact ⟨_, yields_bind.2 ⟨_, _, hagain, yields_pure.2 ⟨rfl, rfl⟩⟩⟩
  | error e =>
    obtain ⟨rfl, -⟩ := yields_pure.1 hrest
    exact ⟨_, yields_bind.2 ⟨_, _, hagain, yields_pure.2 ⟨rfl, rfl⟩⟩⟩

namespace Transformer

variable {t t' u : Transformer} {made : Sources}

/-- With a known header the include goes to the same place where the same is remembered for the
signature. -/
theorem exists_yields_withHeader_of_agree {header : String}
    {scan : EngineM ModelState (List Definition)}
    (hpoint : u.memo.points.get? (InsertionMemo.signatureOf path code) =
      t.memo.points.get? (InsertionMemo.signatureOf path code))
    (hscan : ∀ ds s', Yields scan s ds s' → ∃ r', Yields scan r ds r')
    (h : Yields (t.withHeader path code header scan) s (made, t') s') :
    ∃ u' r', Yields (u.withHeader path code header scan) r (made, u') r' := by
  have hreplay : u.memo.replay (InsertionMemo.signatureOf path code) path code =
      t.memo.replay (InsertionMemo.signatureOf path code) path code := by
    unfold InsertionMemo.replay
    rw [hpoint]
  rcases yields_withHeader.1 h with ⟨hempty, rfl, -, -⟩ | ⟨hheader, placed, memo, hplaced, rfl, -⟩
  · exact ⟨u, r, yields_withHeader.2 (.inl ⟨hempty, rfl, rfl, rfl⟩)⟩
  · rcases InsertionMemo.yields_replayOrInject.1 hplaced with ⟨hfound, -, -⟩ | ⟨hnone, ds, hds, hinject⟩
    · exact ⟨_, r, yields_withHeader.2 (.inr ⟨hheader, placed, u.memo,
        InsertionMemo.yields_replayOrInject.2 (.inl ⟨hreplay.trans hfound, rfl, rfl⟩), rfl, rfl⟩)⟩
    · obtain ⟨r', hds'⟩ := hscan ds _ hds
      have hsame : (u.memo.inject (InsertionMemo.signatureOf path code) path code ds).1 = placed := by
        rw [InsertionMemo.inject_eq]
        exact ((Prod.mk.inj hinject).1.trans (InsertionMemo.inject_eq ..)).symm
      exact ⟨_, r', yields_withHeader.2 (.inr ⟨hheader, placed, _,
        InsertionMemo.yields_replayOrInject.2 (.inr ⟨hreplay.trans hnone, ds, hds',
          Prod.ext hsame.symm rfl⟩), rfl, rfl⟩)⟩

/-- Transformers that remember the same about a sketch hand it over as the same. -/
theorem Agree.exists_yields_sources (h : Agree path code t u) (hs : s.Unfailing) (hr : r.Unfailing)
    (hkind : path.kind = .sketchEntry)
    (hmade : Yields (t.sources modelEngine path code args) s (made, t') s') :
    ∃ u' r', Yields (u.sources modelEngine path code args) r (made, u') r' := by
  rcases (yields_sources hkind).1 hmade with ⟨header, hget, hwith⟩ | ⟨hnone, found, s₁, hfound, hwith⟩
  · obtain ⟨u', r', hwith'⟩ := exists_yields_withHeader_of_agree (r := r) h.point
      (fun ds s' hds => by
        obtain ⟨found, s₁, hfound, hpure⟩ := yields_bind.1 hds
        obtain ⟨rfl, -⟩ := yields_pure.1 hpure
        obtain ⟨r', hfound'⟩ := exists_yields_definitions? hs hr hfound
        exact ⟨r', yields_bind.2 ⟨found, r', hfound', yields_pure.2 ⟨rfl, rfl⟩⟩⟩) hwith
    exact ⟨u', r', (yields_sources hkind).2 (.inl ⟨header, h.header.trans hget, hwith'⟩)⟩
  · obtain ⟨r₁, hfound'⟩ := exists_yields_definitions? hs hr hfound
    obtain ⟨u', r', hwith'⟩ := exists_yields_withHeader_of_agree (r := r₁)
      (t := t.keepHeader (layoutOf path code) ((found.map (prototypeHeader path)).getD ""))
      (u := u.keepHeader (layoutOf path code) ((found.map (prototypeHeader path)).getD ""))
      h.point (fun ds s' hds => ⟨r₁, yields_pure.2 ⟨(yields_pure.1 hds).1, rfl⟩⟩) hwith
    exact ⟨u', r', (yields_sources hkind).2
      (.inr ⟨h.header.trans hnone, found, r₁, hfound', hwith'⟩)⟩

end Transformer

end Scans

/-! ## Builders that are alike for a file -/

/-- The builders are set up alike and, if the file is a sketch, remember the same about it. -/
structure UnitBuilder.AlikeFor {σ : Type} (key : FilePath) (code : String) (b d : UnitBuilder σ) :
    Prop where
  setup : b.SameSetup d
  memory : key.kind = .sketchEntry → Transformer.Agree key code b.transformer d.transformer

namespace UnitBuilder.AlikeFor

theorem refl {σ : Type} (key : FilePath) (code : String) (b : UnitBuilder σ) :
    b.AlikeFor key code b :=
  ⟨.refl b, fun _ => .refl key code _⟩

theorem symm {σ : Type} {key : FilePath} {code : String} {b d : UnitBuilder σ}
    (h : b.AlikeFor key code d) : d.AlikeFor key code b :=
  ⟨h.setup.symm, fun hkind => (h.memory hkind).symm⟩

theorem trans {σ : Type} {key : FilePath} {code : String} {b d e : UnitBuilder σ}
    (h : b.AlikeFor key code d) (h' : d.AlikeFor key code e) : b.AlikeFor key code e :=
  ⟨h.setup.trans h'.setup, fun hkind => (h.memory hkind).trans (h'.memory hkind)⟩

variable {b b' d : UnitBuilder ModelState} {s s' r : ModelState} {key : FilePath} {code : String}
  {u c : CachedUnit}

/-- They hand the file over as the same. -/
theorem exists_buildSources (h : b.AlikeFor key code d) (hb : UsesModel b) (hs : s.Unfailing)
    (hr : r.Unfailing) {made : Sources} (hmade : YieldsWith (buildSources key code) b s made b' s') :
    ∃ d' r', YieldsWith (buildSources key code) d r made d' r' := by
  by_cases hkind : key.kind = .sketchEntry
  · obtain ⟨t, hsources, -⟩ := yieldsWith_buildSources_iff.1 hmade
    rw [hb] at hsources
    obtain ⟨u, r', hsources'⟩ := (h.memory hkind).exists_yields_sources hs hr hkind hsources
    refine ⟨_, r', yieldsWith_buildSources_iff.2 ⟨u, ?_, rfl⟩⟩
    rw [h.setup.engine_eq, h.setup.provider_eq, hb]
    exact hsources'
  · obtain ⟨hsame, -⟩ := hmade.unique (yieldsWith_buildSources_plain code hkind)
    rw [(Prod.mk.inj hsame).1]
    exact ⟨d, r, yieldsWith_buildSources_plain code hkind⟩

/-- They build the same unit. -/
theorem exists_build (h : b.AlikeFor key code d) (hb : UsesModel b) (hs : s.Unfailing)
    (hr : r.Unfailing) (hbuilt : YieldsWith (build key code []) b s (.ok u) b' s') :
    ∃ d' r', YieldsWith (build key code []) d r (.ok u) d' r' := by
  have hd : UsesModel d := hb.of_sameSetup h.setup
  obtain ⟨made, b₁, s₁, hmade⟩ : ∃ made b₁ s₁, YieldsWith (buildSources key code) b s made b₁ s₁ := by
    unfold build at hbuilt
    obtain ⟨made, b₁, s₁, hmade, -⟩ := yieldsWith_bind.1 hbuilt
    exact ⟨made, b₁, s₁, hmade⟩
  obtain ⟨d₁, r₁, hmade'⟩ := h.exists_buildSources hb hs hr hmade
  have hframe := framed_of_buildSources hb hmade
  have hframe' := framed_of_buildSources hd hmade'
  have hrun := runFrom_build [] hmade (hb.of_sameSetup hframe.setup)
    (hs.of_sameScript hframe.script).parse
  have hrun' := runFrom_build [] hmade' (hd.of_sameSetup hframe'.setup)
    (hr.of_sameScript hframe'.script).parse
  have hsetup : b₁.SameSetup d₁ := hframe.setup.symm.trans (h.setup.trans hframe'.setup)
  unfold YieldsWith Yields at hbuilt ⊢
  rw [hrun] at hbuilt
  rw [hrun', hsetup.provider_eq, hsetup.profile_eq]
  cases hunit : buildUnit made.main.path (made.unsaved ++ []) with
  | error f =>
    rw [hunit] at hbuilt
    cases hbuilt
  | ok v =>
    rw [hunit] at hbuilt
    cases hbuilt
    exact ⟨d₁, _, rfl⟩

/-- They parse a unit again to the same unit. -/
theorem exists_reparse (h : b.AlikeFor c.key code d) (hc : c.ReadAlone) (hb : UsesModel b)
    (hs : s.Unfailing) (hr : r.Unfailing) (hparsed : YieldsWith (reparse c code []) b s (.ok u) b' s') :
    ∃ d' r', YieldsWith (reparse c code []) d r (.ok u) d' r' := by
  have hd : UsesModel d := hb.of_sameSetup h.setup
  obtain ⟨made, b₁, s₁, hmade⟩ :
      ∃ made b₁ s₁, YieldsWith (buildSources c.key code) b s made b₁ s₁ := by
    unfold reparse at hparsed
    obtain ⟨made, b₁, s₁, hmade, -⟩ := yieldsWith_bind.1 hparsed
    exact ⟨made, b₁, s₁, hmade⟩
  obtain ⟨d₁, r₁, hmade'⟩ := h.exists_buildSources hb hs hr hmade
  have hframe := framed_of_buildSources hb hmade
  have hframe' := framed_of_buildSources hd hmade'
  have hname : made.main.path = c.map.analyzed := by
    obtain ⟨⟨_, _, _, _, hsources⟩, -⟩ := yieldsWith_buildSources hmade
    obtain ⟨old, hold, hmap, -⟩ := hc.sources
    rw [hmap, hold.analyzed_eq.2, (Transformer.path_of_sources hsources).1]
  have hrun := runFrom_reparse_of_sources [] hmade (hb.of_sameSetup hframe.setup)
    (hs.of_sameScript hframe.script).reparse hname
  have hrun' := runFrom_reparse_of_sources [] hmade' (hd.of_sameSetup hframe'.setup)
    (hr.of_sameScript hframe'.script).reparse hname
  unfold YieldsWith Yields at hparsed ⊢
  rw [hrun] at hparsed
  rw [hrun']
  cases hunit : buildUnit c.unit.mainFile (made.unsaved ++ []) with
  | error f =>
    rw [hunit] at hparsed
    cases hparsed
  | ok v =>
    rw [hunit] at hparsed
    cases hparsed
    exact ⟨d₁, _, rfl⟩

end UnitBuilder.AlikeFor

namespace UnitCache

variable {b b' d : UnitBuilder ModelState} {s s' r : ModelState} {path key : FilePath} {code : String}
  {u : CachedUnit} {action : UnitAction} {c c' e : UnitCache}

theorem exists_create_of_alikeFor (e : UnitCache) (h : b.AlikeFor key code d) (hb : UsesModel b)
    (hs : s.Unfailing) (hr : r.Unfailing)
    (hrun : YieldsWith (c.create key code) b s (.ok (u, action), c') b' s') :
    ∃ e' d' r', YieldsWith (e.create key code) d r (.ok (u, action), e') d' r' := by
  unfold create at hrun ⊢
  obtain ⟨built, b₁, s₁, hbuilt, hend⟩ := yieldsWith_bind.1 hrun
  cases built with
  | error err => cases (Prod.mk.inj (yieldsWith_pure.1 hend).1).1
  | ok v =>
    obtain ⟨hanswer, -⟩ := yieldsWith_pure.1 hend
    cases (Prod.mk.inj hanswer).1
    obtain ⟨d', r', hbuilt'⟩ := h.exists_build hb hs hr hbuilt
    exact ⟨_, d', r', yieldsWith_bind.2 ⟨_, _, _, hbuilt', yieldsWith_pure.2 ⟨rfl, rfl, rfl⟩⟩⟩

/-- A request for a unit is answered with the same one where the same is kept for the file. -/
theorem exists_resolveWith_of_alikeFor (hc : c.Reading)
    (hkept : e.units.get? (b.key path) = c.units.get? (b.key path))
    (h : b.AlikeFor (b.key path) code d) (hb : UsesModel b) (hs : s.Unfailing) (hr : r.Unfailing)
    (hrun : YieldsWith (c.resolveWith false path code) b s (.ok (u, action), c') b' s') :
    ∃ e' d' r', YieldsWith (e.resolveWith false path code) d r (.ok (u, action), e') d' r' := by
  have hget {b : UnitBuilder ModelState} {s : ModelState} :
      YieldsWith (get : BuildM ModelState _) b s b b s :=
    yieldsWith_get.2 ⟨rfl, rfl, rfl⟩
  unfold resolveWith at hrun ⊢
  rw [yieldsWith_bind_of_yields hget] at hrun
  simp only [yieldsWith_bind_of_yields hget]
  dsimp only at hrun
  rw [h.setup.key_eq, hkept]
  cases hunit : c.units.get? (b.key path) with
  | none =>
    rw [hunit] at hrun
    exact exists_create_of_alikeFor e h hb hs hr hrun
  | some unit =>
    rw [hunit] at hrun
    dsimp only at hrun ⊢
    split at hrun
    · next hreuse =>
      cases (Prod.mk.inj (yieldsWith_pure.1 hrun).1).1
      rw [if_pos hreuse]
      exact ⟨_, d, r, yieldsWith_pure.2 ⟨rfl, rfl, rfl⟩⟩
    · next hchanged =>
      rw [if_neg hchanged]
      unfold update at hrun ⊢
      obtain ⟨parsed, b₁, s₁, hparsed, hend⟩ := yieldsWith_bind.1 hrun
      obtain ⟨hkey, halone⟩ := hc.of_get? (FilePath.isNormal_normalize path b.root) hunit
      obtain ⟨-, v, rfl, -⟩ := exists_of_reparse_readAlone halone hb hs hparsed
      cases (Prod.mk.inj (yieldsWith_pure.1 hend).1).1
      have hkey : unit.key = b.key path := hkey
      rw [← hkey] at h
      obtain ⟨d', r', hparsed'⟩ := h.exists_reparse halone hb hs hr hparsed
      exact ⟨_, d', r', yieldsWith_bind.2 ⟨_, _, _, hparsed', yieldsWith_pure.2 ⟨rfl, rfl, rfl⟩⟩⟩

end UnitCache

/-! ## What another file leaves as it is -/

/-- If both files are sketches, neither their layouts nor their signatures are the same. -/
def RememberedApart (key : FilePath) (code : String) (key' : FilePath) (code' : String) : Prop :=
  key.kind = .sketchEntry → key'.kind = .sketchEntry →
    Transformer.layoutOf key code ≠ Transformer.layoutOf key' code' ∧
      InsertionMemo.signatureOf key code ≠ InsertionMemo.signatureOf key' code'

section Frames

variable {σ : Type} {b : UnitBuilder σ} {key key' : FilePath} {code code' : String}

/-- The computation leaves builders alike for a file. -/
abbrev KeepsAlikeFor {α : Type} (b : UnitBuilder σ) (key : FilePath) (code : String)
    (x : BuildM σ α) : Prop :=
  Keeps (b.AlikeFor key code) x fun _ => True

theorem keeps_buildSources_alikeFor (h : RememberedApart key code key' code') :
    KeepsAlikeFor b key' code' (buildSources key code) := by
  intro t s made t' s' hrun ht
  obtain ⟨u, hmade, rfl⟩ := yieldsWith_buildSources_iff.1 hrun
  refine ⟨ht.trans ⟨rfl, fun hkind' => ?_⟩, trivial⟩
  by_cases hkind : key.kind = .sketchEntry
  · obtain ⟨found, hfound⟩ := Transformer.exists_handOver_of_sources hkind hmade
    rw [(Prod.mk.inj hfound).2]
    exact Transformer.agree_handOver _ (h hkind hkind').1 (h hkind hkind').2 found
  · obtain ⟨hsame, -⟩ := (Transformer.yields_sources_plain hkind).1 hmade
    rw [(Prod.mk.inj hsame).2]
    exact .refl _ _ _

theorem keeps_build_alikeFor (h : RememberedApart key code key' code') :
    KeepsAlikeFor b key' code' (build key code []) := by
  unfold build
  refine keeps_bind (keeps_buildSources_alikeFor h) fun made _ => ?_
  refine keeps_bind keeps_get fun t _ => ?_
  refine keeps_bind (P := fun _ => True) (keeps_liftM fun _ _ _ _ => trivial) fun tried _ => ?_
  cases tried with
  | ok r => exact keeps_pure trivial
  | error reason => exact keeps_pure trivial

theorem keeps_reparse_alikeFor {c : CachedUnit} (h : RememberedApart c.key code key' code') :
    KeepsAlikeFor b key' code' (reparse c code []) := by
  unfold reparse
  refine keeps_bind (keeps_buildSources_alikeFor h) fun made _ => ?_
  split
  · exact keeps_pure trivial
  · refine keeps_bind keeps_get fun t _ => ?_
    refine keeps_bind (P := fun _ => True) (keeps_liftM fun _ _ _ _ => trivial) fun parsed _ => ?_
    cases parsed with
    | ok unit => exact keeps_pure trivial
    | error e => exact keeps_pure trivial

namespace UnitCache

variable {c : UnitCache}

theorem keeps_create_alikeFor (c : UnitCache) (h : RememberedApart key code key' code') :
    KeepsAlikeFor b key' code' (c.create key code) := by
  unfold create
  refine keeps_bind (keeps_build_alikeFor h) fun built _ => ?_
  cases built with
  | ok u => exact keeps_pure trivial
  | error e => exact keeps_pure trivial

/-- A request about one file leaves builders alike for another one. -/
theorem keeps_resolveWith_alikeFor (hc : c.Reading) (stale : Bool) {path : FilePath}
    (h : RememberedApart (b.key path) code key' code') :
    KeepsAlikeFor b key' code' (c.resolveWith stale path code) := by
  unfold resolveWith
  refine keeps_bind keeps_get fun t ht => ?_
  rw [← ht.setup.key_eq] at h
  dsimp only
  split
  · exact keeps_create_alikeFor c h
  · next unit hunit =>
    split
    · exact keeps_pure trivial
    · have hkey : unit.key = t.key path :=
        (hc.of_get? (FilePath.isNormal_normalize path t.root) hunit).1
      unfold update
      have hparse := keeps_reparse_alikeFor (b := b) (c := unit) (hkey ▸ h)
      refine keeps_bind hparse fun parsed _ => ?_
      cases parsed with
      | ok v => exact keeps_pure trivial
      | error e => exact keeps_create_alikeFor c h

end UnitCache

end Frames

end SketchSense
