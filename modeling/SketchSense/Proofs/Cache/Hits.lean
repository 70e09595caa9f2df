import SketchSense.Model.Engine
import SketchSense.Proofs.Cache.Units
import SketchSense.Proofs.Engine.Trace

/-!
# Answers from the cache

A unit that was parsed for a text is kept until its own file is parsed again or given up. Until then
that text is answered from the cache: no engine is asked, and the builder remembers the same as
before. Another text is parsed again in the unit, once, and what comes of it is never taken for an
answer from the cache.

* `onlyParses_sources` and `calls_of_build`, that a new unit takes no reparse, and `calls_of_reparse`;
* `UnitCache.yieldsWith_resolveWith_of_kept`, a request that is answered from the cache, and
  `UnitCache.calls_of_changed`, one that is not;
* `Session.Spares`, steps that do not touch the unit of a key;
* `Session.hits_of_reaches`, that the text is answered from the cache after any number of them.
-/

namespace SketchSense

variable {σ : Type} {e : Engine σ} {path key : FilePath} {code : String}

/-! ## Calls for a new unit -/

theorem onlyParses_definitions? (e : Engine σ) (path : FilePath) (code : String)
    (args : List String) : OnlyParses (definitions? e.traced path code args) := by
  unfold definitions?
  refine onlyParses_bind (onlyParses_parse e _) fun answer => ?_
  cases answer with
  | ok u => exact onlyParses_pure _
  | error err => exact onlyParses_pure _

/-- Making the sources of a file takes parses only. -/
theorem onlyParses_sources (e : Engine σ) (t : Transformer) (path : FilePath) (code : String)
    (args : List String) : OnlyParses (t.sources e.traced path code args) := by
  have withHeader (u : Transformer) (header : String)
      {scan : EngineM (σ × List EngineCall) (List Definition)} (hscan : OnlyParses scan) :
      OnlyParses (u.withHeader path code header scan) := by
    unfold Transformer.withHeader
    split
    · exact onlyParses_pure _
    · refine onlyParses_bind ?_ fun placed => onlyParses_pure _
      unfold InsertionMemo.replayOrInject
      split
      · exact onlyParses_pure _
      · exact onlyParses_bind hscan fun ds => onlyParses_pure _
  have hscan := onlyParses_definitions? e path code args
  unfold Transformer.sources
  split
  · exact onlyParses_pure _
  · dsimp only
    split
    · exact withHeader _ _ (onlyParses_bind hscan fun found => onlyParses_pure _)
    · exact onlyParses_bind hscan fun found => withHeader _ _ (onlyParses_pure _)

theorem onlyParses_tryAttempts (e : Engine σ) (request : Attempt → ParseRequest) (failures : Nat)
    (reason : String) (attempts : List Attempt) :
    OnlyParses (tryAttempts e.traced request failures reason attempts) := by
  induction attempts generalizing failures reason with
  | nil => exact onlyParses_pure _
  | cons a rest ih =>
    rw [tryAttempts]
    refine onlyParses_bind (onlyParses_parse e _) fun answer => ?_
    cases answer with
    | ok u => exact onlyParses_pure _
    | error err => exact ih _ _

section Building

variable {b b' : UnitBuilder (σ × List EngineCall)} {s s' : σ × List EngineCall}
  {extra : List FileBuffer}

theorem calls_of_buildSources {sources : Sources} (hengine : b.engine = e.traced)
    (h : YieldsWith (buildSources path code) b s sources b' s') :
    b.SameSetup b' ∧ sources.main.path = path.analyzedName ∧
      ∃ rs : List ParseRequest, s'.2 = s.2 ++ rs.map .parse := by
  obtain ⟨t, hmade, rfl⟩ := yieldsWith_buildSources_iff.1 h
  rw [hengine] at hmade
  exact ⟨rfl, (Transformer.path_of_sources hmade).1, onlyParses_sources e _ _ _ _ hmade⟩

/-- A build takes parses only. -/
theorem calls_of_build {answer : Except CacheError CachedUnit} (hengine : b.engine = e.traced)
    (h : YieldsWith (build key code extra) b s answer b' s') :
    ∃ rs : List ParseRequest, s'.2 = s.2 ++ rs.map .parse := by
  unfold build at h
  simp only [yieldsWith_bind, yieldsWith_get, yieldsWith_liftM] at h
  obtain ⟨sources, b₁, s₁, hsources, _, _, _, ⟨rfl, rfl, rfl⟩, tried, _, s₂, ⟨htried, rfl⟩, hend⟩ := h
  obtain ⟨hsame, -, rs, hrs⟩ := calls_of_buildSources hengine hsources
  rw [hsame.engine_eq, hengine] at htried
  obtain ⟨rs', hrs'⟩ := onlyParses_tryAttempts e _ _ _ _ htried
  have hcalls : s₂.2 = s.2 ++ (rs ++ rs').map .parse := by
    rw [hrs', hrs, List.map_append, List.append_assoc]
  cases tried with
  | error reason =>
    obtain ⟨-, -, rfl⟩ := yieldsWith_pure.1 hend
    exact ⟨_, hcalls⟩
  | ok r =>
    obtain ⟨-, -, rfl⟩ := yieldsWith_pure.1 hend
    exact ⟨_, hcalls⟩

/-- A unit that has the name of its file is parsed again exactly once. -/
theorem calls_of_reparse {c : CachedUnit} {answer : Except EngineError CachedUnit}
    (hengine : b.engine = e.traced) (hname : c.map.analyzed = c.key.analyzedName)
    (h : YieldsWith (reparse c code extra) b s answer b' s') :
    b.SameSetup b' ∧ ∃ (rs : List ParseRequest) (unsaved : List FileBuffer),
      s'.2 = s.2 ++ (rs.map .parse ++ [.reparse c.unit unsaved]) := by
  unfold reparse at h
  rw [yieldsWith_bind] at h
  obtain ⟨sources, b₁, s₁, hsources, hrest⟩ := h
  obtain ⟨hsame, hmain, rs, hrs⟩ := calls_of_buildSources hengine hsources
  rw [if_neg (by simp [hmain, hname])] at hrest
  simp only [yieldsWith_bind, yieldsWith_get, yieldsWith_liftM] at hrest
  obtain ⟨_, _, _, ⟨rfl, rfl, rfl⟩, parsed, _, s₂, ⟨hparsed, rfl⟩, hend⟩ := hrest
  rw [hsame.engine_eq, hengine] at hparsed
  have hcalls : s₂.2 = s.2 ++ (rs.map .parse ++ [.reparse c.unit (sources.unsaved ++ extra)]) := by
    rw [calls_of_engine_reparse hparsed, hrs, List.append_assoc]
  cases parsed with
  | error err =>
    obtain ⟨-, rfl, rfl⟩ := yieldsWith_pure.1 hend
    exact ⟨hsame, _, _, hcalls⟩
  | ok unit =>
    obtain ⟨-, rfl, rfl⟩ := yieldsWith_pure.1 hend
    exact ⟨hsame, _, _, hcalls⟩

end Building

/-! ## One request -/

namespace UnitCache

variable {c c' : UnitCache} {stale : Bool} {answer : Resolved} {u : CachedUnit}

/-- Where the unit that is kept will do, it is the answer, and nothing else happens. -/
theorem yieldsWith_resolveWith_of_kept {b b' : UnitBuilder σ} {s s' : σ}
    (hget : c.units.get? (b.key path) = some u)
    (hkept : stale = true ∨ u.contentHash = .ofText code) :
    YieldsWith (c.resolveWith stale path code) b s (answer, c') b' s' ↔
      answer = .ok (u, .reused) ∧ c' = { c with stats := c.stats.record .reused } ∧ b' = b ∧
        s' = s := by
  unfold resolveWith
  rw [yieldsWith_bind_of_yields (yieldsWith_get.2 ⟨rfl, rfl, rfl⟩)]
  dsimp only
  rw [hget]
  dsimp only
  rw [if_pos hkept, yieldsWith_pure, Prod.mk.injEq, and_assoc]

/-- A text for which no unit is kept but that of another text is parsed in this unit once. If that
fails, a new unit is made. -/
theorem calls_of_changed {b b' : UnitBuilder (σ × List EngineCall)} {s s' : σ × List EngineCall}
    (hengine : b.engine = e.traced) (hc : c.Faithful b) (hget : c.units.get? (b.key path) = some u)
    (hchanged : u.contentHash ≠ .ofText code)
    (h : YieldsWith (c.resolveWith false path code) b s (answer, c') b' s') :
    ∃ (before after : List ParseRequest) (unsaved : List FileBuffer),
      s'.2 = s.2 ++ (before.map .parse ++ .reparse u.unit unsaved :: after.map .parse) ∧
      ((∃ v, answer = .ok (v, .reparsed) ∧ after = []) ∨ (∃ v, answer = .ok (v, .created)) ∨
        ∃ err, answer = .error err) := by
  obtain ⟨hkey, earlier, -, sources, ⟨_, _, _, _, hmade⟩, hmap, -⟩ := hc.of_get? hget
  have hname : u.map.analyzed = u.key.analyzedName := by
    rw [hmap]
    exact (Transformer.path_of_sources hmade).2
  unfold resolveWith at h
  rw [yieldsWith_bind_of_yields (yieldsWith_get.2 ⟨rfl, rfl, rfl⟩)] at h
  dsimp only at h
  rw [hget] at h
  dsimp only at h
  rw [if_neg (by simp [hchanged])] at h
  unfold update at h
  obtain ⟨parsed, b₁, s₁, hparsed, hrest⟩ := yieldsWith_bind.1 h
  obtain ⟨hsame, before, unsaved, hcalls⟩ := calls_of_reparse hengine hname hparsed
  cases parsed with
  | ok v =>
    obtain ⟨hend, -, rfl⟩ := yieldsWith_pure.1 hrest
    exact ⟨before, [], unsaved, hcalls, .inl ⟨v, (Prod.mk.inj hend).1, rfl⟩⟩
  | error err =>
    unfold create at hrest
    obtain ⟨built, b₂, s₂, hbuilt, hend⟩ := yieldsWith_bind.1 hrest
    obtain ⟨after, hafter⟩ := calls_of_build (hsame.engine_eq.trans hengine) hbuilt
    have hall : s₂.2 = s.2 ++ (before.map .parse ++ .reparse u.unit unsaved :: after.map .parse) := by
      rw [hafter, hcalls]
      simp only [List.append_assoc, List.singleton_append]
    cases built with
    | ok v =>
      obtain ⟨hkeep, -, rfl⟩ := yieldsWith_pure.1 hend
      exact ⟨before, after, unsaved, hall, .inr (.inl ⟨v, (Prod.mk.inj hkeep).1⟩)⟩
    | error err =>
      obtain ⟨hdrop, -, rfl⟩ := yieldsWith_pure.1 hend
      exact ⟨before, after, unsaved, hall, .inr (.inr ⟨err, (Prod.mk.inj hdrop).1⟩)⟩

end UnitCache

/-! ## Steps that spare a unit -/

namespace Session

variable {x y z : Session σ} {u : CachedUnit}

/-- A step that does not touch the unit of a key: a request for another file, or one that any unit
will do for; another file is given up; the engine changes by itself. -/
inductive Spares (key : FilePath) : Session σ → Session σ → Prop
  | resolve {x y : Session σ} {stale : Bool} {path : FilePath} {code : String} {answer : Resolved}
      (hspares : stale = true ∨ (x.builder.key path == key) = false)
      (h : x.Resolves stale path code answer y) : Spares key x y
  | remove (x : Session σ) {k : FilePath} (hspares : (k == key) = false) :
      Spares key x { x with cache := (x.cache.remove k).2 }
  | rescript (x : Session σ) (engine : σ) : Spares key x { x with engine }

theorem Spares.step (h : Spares key x y) : x.Step y := by
  cases h with
  | resolve _ h => exact .resolve h
  | remove _ => exact .remove x _
  | rescript engine => exact .rescript x engine x.builder.transformer

/-- The unit of the key stays. -/
theorem Spares.get? (hx : x.Sound) (hkey : x.builder.key path = key) (h : Spares key x y)
    (hu : x.cache.units.get? key = some u) : y.cache.units.get? key = some u := by
  cases h with
  | remove hspares => exact (Table.get?_erase_of_ne _ hspares).trans hu
  | rescript engine => exact hu
  | @resolve _ stale path' _ _ hspares h =>
    cases hother : x.builder.key path' == key with
    | false => exact (get?_of_resolves_of_ne hx h hother).trans hu
    | true =>
      obtain rfl := hspares.resolve_right (by simp [hother])
      subst hkey
      have hsame : x.builder.key path' = x.builder.key path := FilePath.normalize_eq_of_beq hother
      rw [get?_of_resolves_stale hx h (hsame.symm ▸ hu)]
      exact hu

theorem get?_of_spares (hx : x.Sound) (hkey : x.builder.key path = key)
    (h : Relation.ReflTransGen (Spares key) x y) (hu : x.cache.units.get? key = some u) :
    x.builder.SameSetup y.builder ∧ y.cache.units.get? key = some u := by
  have hall : y.Sound ∧ x.builder.SameSetup y.builder ∧ y.cache.units.get? key = some u := by
    induction h with
    | refl => exact ⟨hx, .refl _, hu⟩
    | tail _ hstep ih =>
      obtain ⟨hsound, hsame, hkept⟩ := ih
      have hkey := (hsame.key_eq path).trans hkey
      exact ⟨hsound.step hstep.step, hsame.trans (hsound.sameSetup hstep.step),
        hstep.get? hsound hkey hkept⟩
  exact hall.2

/-- A text that was parsed is answered from the cache after any steps that spare its unit, under
every spelling of its path: no engine is called and the builder stays as it is. Where the unit that is
kept is for another text, the engine parses again exactly once, and the answer is the reparsed unit or
a new one. -/
theorem hits_of_reaches {b : UnitBuilder (σ × List EngineCall)} {s : σ × List EngineCall}
    {x : Session (σ × List EngineCall)} (hengine : b.engine = e.traced)
    (h : Relation.ReflTransGen Step ⟨{}, b, s, 0⟩ x) :
    (∀ path code u action y z, x.Resolves false path code (.ok (u, action)) y →
      Relation.ReflTransGen (Spares (path.normalize b.root)) y z →
      ∀ path' : FilePath, path'.normalize b.root = path.normalize b.root → ∀ answer w,
        z.Resolves false path' code answer w ↔ answer = .ok (u, .reused) ∧
          w = ⟨⟨z.cache.units, z.cache.stats.record .reused⟩, z.builder, z.engine, z.asked + 1⟩) ∧
    ∀ path code u answer y, x.cache.units.get? (path.normalize b.root) = some u →
      u.contentHash ≠ .ofText code → x.Resolves false path code answer y →
      ∃ (before after : List ParseRequest) (unsaved : List FileBuffer),
        y.engine.2 =
          x.engine.2 ++ (before.map .parse ++ .reparse u.unit unsaved :: after.map .parse) ∧
        ((∃ v, answer = .ok (v, .reparsed) ∧ after = []) ∨ (∃ v, answer = .ok (v, .created)) ∨
          ∃ err, answer = .error err) := by
  obtain ⟨hsound, hsame⟩ := sound_of_reaches h
  have hkey (path : FilePath) : x.builder.key path = path.normalize b.root := hsame.key_eq path
  constructor
  · intro path code u action y z hy hz path' hpath answer w
    obtain ⟨hget, hhash⟩ := kept_of_resolves hsound hy
    have hstep : x.Step y := .resolve hy
    have hykey (path : FilePath) : y.builder.key path = path.normalize b.root :=
      ((hsound.sameSetup hstep).key_eq path).trans (hkey path)
    rw [hkey] at hget
    obtain ⟨hsetup, hkept⟩ := get?_of_spares (hsound.step hstep) (hykey path) hz hget
    have hzget : z.cache.units.get? (z.builder.key path') = some u := by
      rw [hsetup.key_eq, hykey, hpath]
      exact hkept
    unfold Resolves
    rw [UnitCache.yieldsWith_resolveWith_of_kept hzget (.inr (hhash rfl))]
    obtain ⟨cache, builder, engine, asked⟩ := w
    simp only [Session.mk.injEq, and_assoc]
  · intro path code u answer y hget hchanged hy
    rw [← hkey] at hget
    exact UnitCache.calls_of_changed (hsame.engine_eq.trans hengine) hsound.faithful hget hchanged
      hy.1

open Model in
/-- A file is asked for, another one is given up, and the first is asked for again under a relative
path; or it is asked for with another text. -/
theorem hit_after_one_request :
    ∃ (u v : CachedUnit) (x y z w : Session (ModelState × List EngineCall)),
      x = ⟨{}, ⟨modelEngine.traced, fun _ => [], {}, ⟨"/s"⟩, {}⟩, ({}, []), 0⟩ ∧
      x.Resolves false ⟨"/s/led.cpp"⟩ "int x;\n" (.ok (u, .created)) y ∧
      ({ y with cache := (y.cache.remove ⟨"/s/a.cpp"⟩).2 } : Session _).Resolves false ⟨"led.cpp"⟩
        "int x;\n" (.ok (u, .reused)) z ∧ z.engine = y.engine ∧ z.builder = y.builder ∧
      y.Resolves false ⟨"/s/led.cpp"⟩ "int y;\n" (.ok (v, .reparsed)) w ∧
      ∃ (before : List ParseRequest) (unsaved : List FileBuffer),
        w.engine.2 = y.engine.2 ++ (before.map .parse ++ [.reparse u.unit unsaved]) := by
  generalize hb : (⟨modelEngine.traced, fun _ => [], {}, ⟨"/s"⟩, {}⟩ : UnitBuilder _) = b
  have hactions : (EngineM.runFrom ((do
      let first ← ({} : UnitCache).resolveWith false ⟨"/s/led.cpp"⟩ "int x;\n"
      let second ← first.2.resolveWith false ⟨"/s/led.cpp"⟩ "int y;\n"
      return (first, second)).run b) ({}, [])).1.toOption.map
        (fun found => (found.1.1.1.toOption.map (·.2), found.1.2.1.toOption.map (·.2))) =
      some (some .created, some .reparsed) := by
    rw [← hb]
    decide +kernel
  obtain ⟨⟨⟨first, c⟩, second, c'⟩, b₂, s₂, hrun, hactions⟩ := exists_yieldsWith hactions
  obtain ⟨_, b₁, s₁, hfirst, hrun⟩ := yieldsWith_bind.1 hrun
  obtain ⟨_, b₂, s₂, hsecond, hrun⟩ := yieldsWith_bind.1 hrun
  obtain ⟨hpair, rfl, rfl⟩ := yieldsWith_pure.1 hrun
  cases hpair
  obtain ⟨hcreated, hreparsed⟩ := Prod.mk.inj hactions
  obtain ⟨⟨u, _⟩, rfl, rfl⟩ := exists_ok_of_toOption hcreated
  obtain ⟨⟨v, _⟩, rfl, rfl⟩ := exists_ok_of_toOption hreparsed
  have hengine : b.engine = modelEngine.traced := by rw [← hb]
  have hroot : b.root = ⟨"/s"⟩ := by rw [← hb]
  have hstart : Session.Resolves ⟨{}, b, ({}, []), 0⟩ false ⟨"/s/led.cpp"⟩ "int x;\n"
      (.ok (u, .created)) ⟨c, b₁, s₁, 1⟩ := ⟨hfirst, rfl⟩
  have hagain : Session.Resolves ⟨c, b₁, s₁, 1⟩ false ⟨"/s/led.cpp"⟩ "int y;\n"
      (.ok (v, .reparsed)) ⟨c', b₂, s₂, 2⟩ := ⟨hsecond, rfl⟩
  obtain ⟨hhit, -⟩ := hits_of_reaches hengine .refl
  obtain ⟨-, hchange⟩ := hits_of_reaches hengine (.single (.resolve hstart))
  obtain ⟨hkept, hhash⟩ := kept_of_resolves (sound_start b _) hstart
  have hother : u.contentHash ≠ .ofText "int y;\n" := by
    rw [hhash rfl]
    decide +kernel
  obtain ⟨before, after, unsaved, hcalls, hend⟩ := hchange _ _ u _ _ hkept hother hagain
  obtain rfl : after = [] := by
    rcases hend with ⟨-, -, hafter⟩ | ⟨_, hend⟩ | ⟨_, hend⟩
    · exact hafter
    · cases hend
    · cases hend
  have hspared : Spares ((FilePath.mk "/s/led.cpp").normalize b.root) ⟨c, b₁, s₁, 1⟩
      ⟨(c.remove ⟨"/s/a.cpp"⟩).2, b₁, s₁, 1⟩ := .remove _ (by rw [hroot]; decide)
  have hspared := Relation.ReflTransGen.single hspared
  refine ⟨u, v, _, _, _, _, rfl, hstart, (hhit _ _ _ _ _ _ hstart hspared ⟨"led.cpp"⟩
    (by rw [hroot]; rfl) _ _).2 ⟨rfl, rfl⟩, rfl, rfl, hagain, before, unsaved, hcalls⟩

end Session

end SketchSense
