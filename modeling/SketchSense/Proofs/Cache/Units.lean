import Mathlib.Logic.Relation
import SketchSense.Cache.Units
import SketchSense.Engine.Prepared
import SketchSense.Proofs.Cache.Building
import SketchSense.Proofs.FilePath.Normal

/-!
# What the cache of units keeps

The engine may fail at any call, and an update may fail halfway. Still every unit that is kept
belongs to its key and to one text, a request touches no key but its own, and the counters add up.

* `UnitCache.Faithful`, that the kept units belong to their keys and each to one text;
* `UnitCache.resolveWith_cases`, all that a request can do;
* `Session`, a cache in use, with its steps and `Session.Sound`, which every step keeps;
* `Session.sound_of_reaches` and `Session.never_stale_of_reaches`, what holds after any sequence of
  steps.
-/

namespace SketchSense

variable {σ : Type}

/-! ## One request -/

/-- The kept units belong to their keys, which are normal paths, and each to one text. -/
structure UnitCache.Faithful (c : UnitCache) (b : UnitBuilder σ) : Prop where
  keyed : ∀ e ∈ c.units.entries, e.2.key = e.1 ∧ ∃ path, e.1 = b.key path
  parsed : ∀ e ∈ c.units.entries, ∃ code, StemsFrom b [] e.2 code

namespace UnitCache

variable {c c' : UnitCache} {b b' : UnitBuilder σ} {s s' : σ} {stale : Bool} {path : FilePath}
  {code : String} {answer : Resolved}

theorem Faithful.of_sameSetup (h : c.Faithful b) (hsame : b.SameSetup b') : c.Faithful b' := by
  refine ⟨fun e he => ?_, fun e he => ?_⟩
  · obtain ⟨hkey, path, hpath⟩ := h.keyed e he
    exact ⟨hkey, path, by rw [hpath, hsame.key_eq]⟩
  · obtain ⟨code, hstems⟩ := h.parsed e he
    exact ⟨code, hstems.of_sameSetup hsame⟩

/-- Keys that are equal as paths are the same text. -/
theorem Faithful.key_eq_of_beq (h : c.Faithful b) {e : FilePath × CachedUnit}
    (he : e ∈ c.units.entries) (hkey : (e.1 == b.key path) = true) : e.1 = b.key path := by
  obtain ⟨-, path', hpath'⟩ := h.keyed e he
  rw [hpath'] at hkey ⊢
  exact FilePath.normalize_eq_of_beq hkey

/-- A unit that is found for a key belongs to that key and to one text. -/
theorem Faithful.of_get? (h : c.Faithful b) {u : CachedUnit}
    (hu : c.units.get? (b.key path) = some u) :
    u.key = b.key path ∧ ∃ code, StemsFrom b [] u code := by
  obtain ⟨k, hmem, hk⟩ := Table.exists_mem_of_find?_eq_some hu
  refine ⟨?_, h.parsed _ hmem⟩
  rw [(h.keyed _ hmem).1]
  exact h.key_eq_of_beq hmem hk

/-- A new unit for a key is kept, or none is. -/
theorem create_cases {key : FilePath}
    (h : YieldsWith (c.create key code) b s (answer, c') b' s') :
    b.SameSetup b' ∧
      ((∃ u, u.key = key ∧ StemsFrom b [] u code ∧ (answer, c') = c.keep key u .created) ∨
        ∃ e, (answer, c') = c.drop key e) := by
  unfold create at h
  rw [yieldsWith_bind] at h
  obtain ⟨built, _, _, hbuilt, hend⟩ := h
  obtain ⟨hsame, hstems⟩ := stemsFrom_build hbuilt
  cases built with
  | ok u =>
    simp only [yieldsWith_pure] at hend
    obtain ⟨hend, rfl, -⟩ := hend
    obtain ⟨hkey, hstem⟩ := hstems u rfl
    exact ⟨hsame, .inl ⟨u, hkey, hstem, hend⟩⟩
  | error e =>
    simp only [yieldsWith_pure] at hend
    obtain ⟨hend, rfl, -⟩ := hend
    exact ⟨hsame, .inr ⟨e, hend⟩⟩

/-- A request is answered from the cache, or a unit for its text is kept, or none is. Only the
first can happen where a unit for an earlier text will do and there is one. -/
theorem resolveWith_cases (hc : c.Faithful b)
    (h : YieldsWith (c.resolveWith stale path code) b s (answer, c') b' s') :
    b.SameSetup b' ∧
      ((∃ u, c.units.get? (b.key path) = some u ∧
          (stale = true ∨ u.contentHash = .ofText code) ∧ answer = .ok (u, .reused) ∧
          c' = ⟨c.units, c.stats.record .reused⟩) ∨
        (stale = true → c.units.get? (b.key path) = none) ∧
          ((∃ u action, action ≠ .reused ∧ u.key = b.key path ∧ StemsFrom b [] u code ∧
              (answer, c') = c.keep (b.key path) u action) ∨
            ∃ e, (answer, c') = c.drop (b.key path) e)) := by
  unfold resolveWith at h
  simp only [yieldsWith_bind, yieldsWith_get] at h
  obtain ⟨_, _, _, ⟨hb, hb', hs⟩, h⟩ := h
  rw [hb, hb', hs] at h
  cases hget : c.units.get? (b.key path) with
  | none =>
    rw [hget] at h
    obtain ⟨hsame, ⟨u, hkey, hstem, hend⟩ | ⟨e, hend⟩⟩ := create_cases h
    · exact ⟨hsame, .inr ⟨fun _ => rfl, .inl ⟨u, _, by decide, hkey, hstem, hend⟩⟩⟩
    · exact ⟨hsame, .inr ⟨fun _ => rfl, .inr ⟨e, hend⟩⟩⟩
  | some unit =>
    rw [hget] at h
    dsimp only at h
    by_cases hreuse : stale = true ∨ unit.contentHash = .ofText code
    · rw [if_pos hreuse, yieldsWith_pure] at h
      obtain ⟨hend, rfl, -⟩ := h
      obtain ⟨rfl, rfl⟩ := Prod.mk.inj hend
      exact ⟨.refl _, .inl ⟨unit, rfl, hreuse, rfl, rfl⟩⟩
    · rw [if_neg hreuse] at h
      have hfresh : stale = true → some unit = none := fun hs => absurd (.inl hs) hreuse
      unfold update at h
      rw [yieldsWith_bind] at h
      obtain ⟨parsed, b₁, _, hparsed, hrest⟩ := h
      obtain ⟨hkey, earlier, hearlier⟩ := hc.of_get? hget
      obtain ⟨hsame, hstems⟩ := stemsFrom_reparse hearlier hparsed
      cases parsed with
      | ok u =>
        simp only [yieldsWith_pure] at hrest
        obtain ⟨hend, rfl, -⟩ := hrest
        obtain ⟨hu, hstem⟩ := hstems u rfl
        exact ⟨hsame, .inr ⟨hfresh, .inl ⟨u, _, by decide, hu.trans hkey, hstem, hend⟩⟩⟩
      | error e =>
        -- the failed update has changed what the builder remembers, but not its setup
        obtain ⟨hsame', ⟨u, hu, hstem, hend⟩ | ⟨e, hend⟩⟩ := create_cases hrest
        · have hstem := hstem.of_sameSetup hsame.symm
          exact ⟨hsame.trans hsame', .inr ⟨hfresh, .inl ⟨u, _, by decide, hu, hstem, hend⟩⟩⟩
        · exact ⟨hsame.trans hsame', .inr ⟨hfresh, .inr ⟨e, hend⟩⟩⟩

/-- A unit that a request for a text is answered with is one for that text. -/
theorem contentHash_of_resolveWith {u : CachedUnit} {action : UnitAction}
    (h : YieldsWith (c.resolveWith false path code) b s (.ok (u, action), c') b' s') :
    u.contentHash = .ofText code := by
  have hcreate {b : UnitBuilder σ} {s : σ} {key : FilePath}
      (h : YieldsWith (c.create key code) b s (.ok (u, action), c') b' s') :
      u.contentHash = .ofText code := by
    obtain ⟨-, ⟨v, -, hstem, hend⟩ | ⟨e, hend⟩⟩ := create_cases h
    · cases (Prod.mk.inj hend).1
      exact hstem.1
    · cases (Prod.mk.inj hend).1
  unfold resolveWith at h
  rw [yieldsWith_bind_of_yields (yieldsWith_get.2 ⟨rfl, rfl, rfl⟩)] at h
  dsimp only at h
  split at h
  · exact hcreate h
  · split at h
    · next hreuse =>
      obtain ⟨hend, -⟩ := yieldsWith_pure.1 h
      cases (Prod.mk.inj hend).1
      exact hreuse.resolve_left Bool.false_ne_true
    · unfold update at h
      obtain ⟨parsed, _, _, hparsed, hrest⟩ := yieldsWith_bind.1 h
      cases parsed with
      | ok v =>
        obtain ⟨_, _, _, -, unit, -, rfl⟩ := exists_of_reparse hparsed
        obtain ⟨hend, -⟩ := yieldsWith_pure.1 hrest
        cases (Prod.mk.inj hend).1
        rfl
      | error e => exact hcreate hrest

/-- A request keeps the units faithful. -/
theorem Faithful.resolveWith (hc : c.Faithful b)
    (h : YieldsWith (c.resolveWith stale path code) b s (answer, c') b' s') : c'.Faithful b' := by
  obtain ⟨hsame, ⟨u, -, -, -, rfl⟩ | ⟨-, ⟨u, action, -, hkey, hstem, hend⟩ | ⟨e, hend⟩⟩⟩ :=
    resolveWith_cases hc h
  · exact Faithful.of_sameSetup ⟨hc.keyed, hc.parsed⟩ hsame
  · obtain ⟨-, rfl⟩ := Prod.mk.inj hend
    refine Faithful.of_sameSetup ⟨fun e he => ?_, fun e he => ?_⟩ hsame
    · rcases Table.mem_put he with hold | rfl | ⟨hu, hbeq, old, hold⟩
      · exact hc.keyed e hold
      · exact ⟨hkey, path, rfl⟩
      · rw [hu, hkey]
        have hsamekey := hc.key_eq_of_beq hold hbeq
        exact ⟨hsamekey.symm, path, hsamekey⟩
    · rcases Table.mem_put he with hold | rfl | ⟨hu, -, -, -⟩
      · exact hc.parsed e hold
      · exact ⟨code, hstem⟩
      · exact ⟨code, by rw [hu]; exact hstem⟩
  · obtain ⟨-, rfl⟩ := Prod.mk.inj hend
    refine Faithful.of_sameSetup ⟨fun e he => ?_, fun e he => ?_⟩ hsame
    · exact hc.keyed e (Table.mem_of_mem_erase he)
    · exact hc.parsed e (Table.mem_of_mem_erase he)

end UnitCache

/-- Where no unit is kept for a key, one that is built is kept. -/
theorem UnitCache.yieldsWith_resolveWith_of_build {c : UnitCache} {b b' : UnitBuilder σ} {s s' : σ}
    (stale : Bool) {path : FilePath} {code : String} {u : CachedUnit}
    (hnone : c.units.get? (b.key path) = none)
    (hbuild : YieldsWith (build (b.key path) code []) b s (.ok u) b' s') :
    YieldsWith (c.resolveWith stale path code) b s (c.keep (b.key path) u .created) b' s' := by
  unfold resolveWith
  rw [yieldsWith_bind]
  refine ⟨b, b, s, by simp, ?_⟩
  dsimp only
  rw [hnone]
  unfold create
  rw [yieldsWith_bind]
  exact ⟨.ok u, b', s', hbuild, by simp⟩

/-! ## A cache in use -/

/-- A cache in use, with the number of requests so far. -/
structure Session (σ : Type) where
  cache : UnitCache
  builder : UnitBuilder σ
  engine : σ
  asked : Nat

namespace Session

/-- One request, with or without leave to answer for an earlier text. -/
def Resolves (x : Session σ) (stale : Bool) (path : FilePath) (code : String) (answer : Resolved)
    (y : Session σ) : Prop :=
  YieldsWith (x.cache.resolveWith stale path code) x.builder x.engine (answer, y.cache) y.builder
    y.engine ∧ y.asked = x.asked + 1

/-- What may happen to a cache. Between requests the engine's state may change in any way, and so
may what the builder remembers. -/
inductive Step : Session σ → Session σ → Prop
  | resolve {x y : Session σ} {stale : Bool} {path : FilePath} {code : String} {answer : Resolved}
      (h : x.Resolves stale path code answer y) : Step x y
  | remove (x : Session σ) (key : FilePath) : Step x { x with cache := (x.cache.remove key).2 }
  | invalidateAll (x : Session σ) : Step x { x with cache := x.cache.invalidateAll }
  | rescript (x : Session σ) (engine : σ) (transformer : Transformer) :
      Step x { x with engine, builder := { x.builder with transformer } }

/-- The units are faithful, and every request is counted once. -/
structure Sound (x : Session σ) : Prop where
  faithful : x.cache.Faithful x.builder
  counted : x.cache.stats.created + x.cache.stats.reparsed + x.cache.stats.reused
    + x.cache.stats.failed = x.asked

variable {x y z : Session σ}

theorem sound_start (b : UnitBuilder σ) (s : σ) : Sound ⟨{}, b, s, 0⟩ := by
  refine ⟨⟨?_, ?_⟩, rfl⟩
  · intro e he
    exact absurd he (List.not_mem_nil)
  · intro e he
    exact absurd he (List.not_mem_nil)

theorem Sound.resolves {stale : Bool} {path : FilePath} {code : String} {answer : Resolved}
    (hx : x.Sound) (h : x.Resolves stale path code answer y) : y.Sound := by
  obtain ⟨hrun, hasked⟩ := h
  refine ⟨hx.faithful.resolveWith hrun, ?_⟩
  have hcounted := hx.counted
  obtain ⟨-, ⟨u, -, -, -, hend⟩ | ⟨-, ⟨u, action, -, -, -, hend⟩ | ⟨e, hend⟩⟩⟩ :=
    UnitCache.resolveWith_cases hx.faithful hrun
  · rw [hend, hasked]
    simp only [CacheStats.record]
    omega
  · rw [(Prod.mk.inj hend).2, hasked]
    cases action <;> simp only [CacheStats.record] <;> omega
  · rw [(Prod.mk.inj hend).2, hasked]
    simp only [CacheStats.recordFailure]
    omega

/-- Every step keeps a session sound. -/
theorem Sound.step (hx : x.Sound) (h : x.Step y) : y.Sound := by
  cases h with
  | resolve h => exact hx.resolves h
  | remove key =>
    refine ⟨⟨fun e he => ?_, fun e he => ?_⟩, hx.counted⟩
    · exact hx.faithful.keyed e (Table.mem_of_mem_erase he)
    · exact hx.faithful.parsed e (Table.mem_of_mem_erase he)
  | invalidateAll =>
    refine ⟨⟨fun e he => ?_, fun e he => ?_⟩, hx.counted⟩
    · exact absurd he List.not_mem_nil
    · exact absurd he List.not_mem_nil
  | rescript engine transformer =>
    exact ⟨hx.faithful.of_sameSetup rfl, hx.counted⟩

/-- No step changes the engine, the arguments or the root. -/
theorem Sound.sameSetup (hx : x.Sound) (h : x.Step y) : x.builder.SameSetup y.builder := by
  cases h with
  | resolve h => exact (UnitCache.resolveWith_cases hx.faithful h.1).1
  | remove key => exact .refl _
  | invalidateAll => exact .refl _
  | rescript engine transformer => exact rfl

/-- Every session that is reached from the empty cache is sound and has the same setup. -/
theorem sound_of_reaches {b : UnitBuilder σ} {s : σ}
    (h : Relation.ReflTransGen Step ⟨{}, b, s, 0⟩ y) : y.Sound ∧ b.SameSetup y.builder := by
  induction h with
  | refl => exact ⟨sound_start b s, .refl b⟩
  | tail _ hstep ih => exact ⟨ih.1.step hstep, ih.2.trans (ih.1.sameSetup hstep)⟩

/-! ## What a request does to the entries -/

/-- A unit that a request answers with is kept under the key, and unless a unit for an earlier text
will do, it is one for the text. -/
theorem kept_of_resolves {stale : Bool} {path : FilePath} {code : String} {u : CachedUnit}
    {action : UnitAction} (hx : x.Sound) (h : x.Resolves stale path code (.ok (u, action)) y) :
    y.cache.units.get? (x.builder.key path) = some u ∧
      (stale = false → u.contentHash = .ofText code) := by
  obtain ⟨-, ⟨v, hget, hv, hans, hend⟩ | ⟨-, ⟨v, a, -, -, hstem, hend⟩ | ⟨e, hend⟩⟩⟩ :=
    UnitCache.resolveWith_cases hx.faithful h.1
  · cases hans
    rw [hend]
    refine ⟨hget, ?_⟩
    rintro rfl
    exact hv.resolve_left (by decide)
  · obtain ⟨hans, hcache⟩ := Prod.mk.inj hend
    cases hans
    rw [hcache]
    exact ⟨Table.get?_insert_self .., fun _ => hstem.1⟩
  · cases (Prod.mk.inj hend).1

/-- A request that fails leaves no unit under its key. -/
theorem not_kept_of_resolves {stale : Bool} {path : FilePath} {code : String} {err : CacheError}
    (hx : x.Sound) (h : x.Resolves stale path code (.error err) y) :
    y.cache.units.get? (x.builder.key path) = none := by
  obtain ⟨-, ⟨v, -, -, hans, -⟩ | ⟨-, ⟨v, a, -, -, -, hend⟩ | ⟨e, hend⟩⟩⟩ :=
    UnitCache.resolveWith_cases hx.faithful h.1
  · cases hans
  · cases (Prod.mk.inj hend).1
  · rw [(Prod.mk.inj hend).2]
    exact Table.get?_erase_self ..

/-- A request leaves the units of all other keys as they are. -/
theorem get?_of_resolves_of_ne {stale : Bool} {path k : FilePath} {code : String}
    {answer : Resolved} (hx : x.Sound) (h : x.Resolves stale path code answer y)
    (hk : (x.builder.key path == k) = false) :
    y.cache.units.get? k = x.cache.units.get? k := by
  obtain ⟨-, ⟨v, -, -, -, hend⟩ | ⟨-, ⟨v, a, -, -, -, hend⟩ | ⟨e, hend⟩⟩⟩ :=
    UnitCache.resolveWith_cases hx.faithful h.1
  · rw [hend]
  · rw [(Prod.mk.inj hend).2]
    exact Table.get?_insert_of_ne _ hk _
  · rw [(Prod.mk.inj hend).2]
    exact Table.get?_erase_of_ne _ hk

/-- Where a unit for an earlier text will do, a unit that is there stays as it is. -/
theorem get?_of_resolves_stale {path : FilePath} {code : String} {answer : Resolved}
    {u : CachedUnit} (hx : x.Sound) (h : x.Resolves true path code answer y)
    (hu : x.cache.units.get? (x.builder.key path) = some u) : y.cache.units = x.cache.units := by
  obtain ⟨-, ⟨v, -, -, -, hend⟩ | ⟨hnone, -⟩⟩ := UnitCache.resolveWith_cases hx.faithful h.1
  · rw [hend]
  · rw [hnone rfl] at hu
    cases hu

/-! ## Any sequence of steps -/

/-- After any steps from the empty cache every kept unit belongs to its normal path and to one text,
all requests are counted, and the next request is answered with a unit for its text or leaves none,
and touches no other key. -/
theorem never_stale_of_reaches {b : UnitBuilder σ} {s : σ}
    (h : Relation.ReflTransGen Step ⟨{}, b, s, 0⟩ x) :
    (∀ e ∈ x.cache.units.entries, e.2.key = e.1 ∧ ∃ path : FilePath, e.1 = path.normalize b.root) ∧
    (∀ e ∈ x.cache.units.entries, ∃ code, StemsFrom b [] e.2 code) ∧
    x.cache.stats.created + x.cache.stats.reparsed + x.cache.stats.reused + x.cache.stats.failed
      = x.asked ∧
    (∀ path code u action y, x.Resolves false path code (.ok (u, action)) y →
      u.contentHash = .ofText code) ∧
    (∀ stale path code u action y, x.Resolves stale path code (.ok (u, action)) y →
      y.cache.units.get? (path.normalize b.root) = some u) ∧
    (∀ stale path code err y, x.Resolves stale path code (.error err) y →
      y.cache.units.get? (path.normalize b.root) = none) ∧
    (∀ stale path code answer y k, x.Resolves stale path code answer y →
      (path.normalize b.root == k) = false →
      y.cache.units.get? k = x.cache.units.get? k) ∧
    (∀ path code answer y u, x.Resolves true path code answer y →
      x.cache.units.get? (path.normalize b.root) = some u → y.cache.units = x.cache.units) ∧
    (∀ key k, (key == k) = false →
      (x.cache.remove key).2.units.get? k = x.cache.units.get? k) := by
  obtain ⟨hsound, hsame⟩ := sound_of_reaches h
  have hkey (path : FilePath) : x.builder.key path = path.normalize b.root :=
    hsame.key_eq path
  refine ⟨?_, ?_, hsound.counted, ?_, ?_, ?_, ?_, ?_, ?_⟩
  · intro e he
    obtain ⟨hown, path, hpath⟩ := hsound.faithful.keyed e he
    exact ⟨hown, path, hpath.trans (hkey path)⟩
  · intro e he
    obtain ⟨code, hstems⟩ := hsound.faithful.parsed e he
    exact ⟨code, hstems.of_sameSetup hsame.symm⟩
  · intro path code u action y hy
    exact (kept_of_resolves hsound hy).2 rfl
  · intro stale path code u action y hy
    rw [← hkey]
    exact (kept_of_resolves hsound hy).1
  · intro stale path code err y hy
    rw [← hkey]
    exact not_kept_of_resolves hsound hy
  · intro stale path code answer y k hy hk
    exact get?_of_resolves_of_ne hsound hy (by rwa [hkey])
  · intro path code answer y u hy hu
    exact get?_of_resolves_stale hsound hy (by rwa [hkey])
  · intro key k hk
    exact Table.get?_erase_of_ne _ hk

theorem yields_parse_preparedEngine (unitFor : FilePath → Option CompilationUnit)
    {r : ParseRequest} {s : CallCounts} {unit : CompilationUnit}
    (h : unitFor r.mainFile = some unit) :
    Yields ((preparedEngine unitFor).parse r) s (.ok unit) { s with parses := s.parses + 1 } := by
  unfold preparedEngine
  dsimp only
  rw [h]
  rfl

/-- A run with one request, for a file that the engine has a unit for. -/
theorem never_stale_after_one_request :
    ∃ x : Session CallCounts,
      Relation.ReflTransGen Step
        ⟨{}, ⟨preparedEngine fun p => some ⟨p, [], [], []⟩, fun _ => [], {}, ⟨"/s"⟩, {}⟩, {}, 0⟩ x ∧
      x.asked = 1 ∧
      (∀ e ∈ x.cache.units.entries, ∃ code,
        StemsFrom
          ⟨preparedEngine fun p => some ⟨p, [], [], []⟩, fun _ => [], {}, ⟨"/s"⟩, {}⟩ [] e.2 code) ∧
      x.cache.stats.created + x.cache.stats.reparsed + x.cache.stats.reused + x.cache.stats.failed
        = x.asked := by
  have hplain : (FilePath.normalize ⟨"led.cpp"⟩ ⟨"/s"⟩).kind ≠ .sketchEntry := by decide
  have hmade : Yields (({} : Transformer).sources (preparedEngine fun p => some ⟨p, [], [], []⟩)
      (FilePath.normalize ⟨"led.cpp"⟩ ⟨"/s"⟩) "int x;\n" []) {} (_, {}) {} :=
    (Transformer.yields_sources_plain hplain).2 ⟨rfl, rfl⟩
  have hbuild := yieldsWith_build_of_parse []
    (b := ⟨preparedEngine fun p => some ⟨p, [], [], []⟩, fun _ => [], {}, ⟨"/s"⟩, {}⟩)
    hmade rfl (yields_parse_preparedEngine (fun p => some ⟨p, [], [], []⟩) rfl)
  obtain ⟨x, hx, hasked⟩ : ∃ x : Session CallCounts, Step
      ⟨{}, ⟨preparedEngine fun p => some ⟨p, [], [], []⟩, fun _ => [], {}, ⟨"/s"⟩, {}⟩, {}, 0⟩ x ∧
      x.asked = 1 :=
    ⟨⟨_, _, _, 1⟩, .resolve ⟨UnitCache.yieldsWith_resolveWith_of_build false
      (Table.get?_empty _) hbuild, rfl⟩, rfl⟩
  have hall := never_stale_of_reaches (.single hx)
  exact ⟨x, .single hx, hasked, hall.2.1, hall.2.2.1⟩

end Session

end SketchSense
