import SketchSense.Proofs.Analysis.Reached
import SketchSense.Proofs.Analysis.Session
import SketchSense.Proofs.Cache.Reading
import SketchSense.Proofs.Query.Definition

/-!
# Units that are held

An analysis that uses the model engine keeps units that were read from their own texts, however it was
reached. While the engine does not fail, a file that was asked about has its unit kept, and as long as
its text stays the same the file is answered with that unit.

* `AnalysisCore.Reads`, what is true of every analysis with the model engine that is reached;
* `AnalysisCore.Holds`, that the unit for the text of a file is kept;
* `CoreM.exists_holds_of_unit?`, that a file that was asked about is held, and
  `CoreM.yieldsWith_unit?_of_holds`, that a held file is answered from what is kept.
-/

namespace SketchSense

open Model

variable {P : FilePath → Prop} {root : FilePath}

namespace AnalysisCore

/-! ## Reached with the model engine -/

/-- An analysis of the sketch in `root` that uses the model engine, with units that were read from
their own texts. -/
structure Reads (root : FilePath) (c : AnalysisCore ModelState) : Prop where
  engine : UsesModel c.builder
  rooted : c.builder.root = root
  units : c.units.Reading

variable {c c' : AnalysisCore ModelState} {s s' : ModelState} {f g : FileBuffer}
  {u w : CachedUnit}

/-- Files are kept under their normal paths from the directory of the sketch. -/
theorem Reads.key_eq (hc : c.Reads root) (path : FilePath) :
    c.builder.key path = path.normalize root := by
  unfold UnitBuilder.key
  rw [hc.rooted]

theorem Reads.of_continues (hc : c.Reads root) (h : c.Continues c') : c'.Reads root := by
  refine ⟨hc.engine.of_sameSetup h.setup, h.setup.root_eq.trans hc.rooted, ?_⟩
  have hresolved := h.resolved
  generalize c'.units = units at hresolved
  induction hresolved with
  | refl => exact hc.units
  | tail _ hstep ih =>
    obtain ⟨t, t', r, r', stale, path, code, answer, ht, hrun⟩ := hstep
    exact (UnitCache.keeps_resolveWith_reading ih stale path code hrun
      (hc.engine.of_sameSetup ht)).2

/-- Nothing that may happen changes the engine. -/
theorem Step.engine_eq (h : Step P c c') : c'.builder.engine = c.builder.engine := by
  cases h with
  | answer hpaths hrun => exact (continues_of_answer hrun).setup.engine_eq
  | invalidateAll => rfl
  | provide provider => rfl
  | rewrite hdisk => rfl

theorem Reads.step (hc : c.Reads root) (h : Step P c c') : c'.Reads root := by
  cases h with
  | answer hpaths hrun => exact hc.of_continues (continues_of_answer hrun)
  | invalidateAll => exact ⟨hc.engine, hc.rooted, UnitCache.reading_empty _⟩
  | provide provider => exact ⟨hc.engine, hc.rooted, hc.units⟩
  | rewrite hdisk => exact ⟨hc.engine, hc.rooted, hc.units⟩

/-- However an analysis was reached, its units were read from their own texts. -/
theorem Reached.reads (h : c.Reached P root) (hengine : UsesModel c.builder) : c.Reads root := by
  induction h with
  | start engine provided hroot hdisk => exact ⟨hengine, hroot, UnitCache.reading_empty _⟩
  | step _ hstep ih =>
    have hbefore := hstep.engine_eq.symm.trans hengine
    exact (ih hbefore).step hstep

/-! ## Held files -/

/-- For a file the unit of its text is kept. -/
structure Holds (root : FilePath) (c : AnalysisCore ModelState) (f : FileBuffer) (u : CachedUnit) :
    Prop where
  kept : c.units.units.get? (f.path.normalize root) = some u
  hash : u.contentHash = .ofText f.code

/-- One unit is kept for a file under all its spellings. -/
theorem Holds.eq_of_key (hu : c.Holds root f u) (hw : c.Holds root g w)
    (hkey : g.path.normalize root = f.path.normalize root) : w = u := by
  have hkept := hw.kept
  rw [hkey, hu.kept] at hkept
  exact (Option.some.inj hkept).symm

theorem Holds.respells (h : c.Holds root f u) (hfg : f.Respells root g) : c.Holds root g u :=
  ⟨by rw [hfg.key]; exact h.kept, by rw [hfg.code]; exact h.hash⟩

theorem Holds.of_get?_eq (h : c.Holds root f u)
    (hsame : c'.units.units.get? (f.path.normalize root) =
      c.units.units.get? (f.path.normalize root)) : c'.Holds root f u :=
  ⟨hsame.trans h.kept, h.hash⟩

/-- Where the same is kept the same files are held. -/
theorem KeepsSame.holds_iff (h : c.KeepsSame c') : c'.Holds root f u ↔ c.Holds root f u :=
  ⟨fun hu => hu.of_get?_eq (by rw [h.units]), fun hu => hu.of_get?_eq (by rw [h.units])⟩

theorem KeepsSame.reads (h : c.KeepsSame c') (hc : c.Reads root) : c'.Reads root := by
  refine ⟨?_, ?_, ?_⟩
  · rw [h.builder]
    exact hc.engine
  · rw [h.builder]
    exact hc.rooted
  · unfold UnitCache.Reading
    rw [h.units]
    exact hc.units

/-- A held unit is one of the file and was read from its own texts. -/
theorem Reads.of_holds (hc : c.Reads root) (h : c.Holds root f u) :
    u.key = f.path.normalize root ∧ u.ReadAlone :=
  hc.units.of_get? (FilePath.isNormal_normalize f.path root) h.kept

end AnalysisCore

namespace CoreM

open AnalysisCore

variable {c c' : AnalysisCore ModelState} {s s' : ModelState} {f : FileBuffer} {u : CachedUnit}

/-- While the engine does not fail a file that is asked about is held, and no other unit changes. -/
theorem exists_holds_of_unit? {a : Option CachedUnit} (hc : c.Reads root) (hs : s.Unfailing)
    (h : YieldsWith (unit? f) c s a c' s') :
    c'.Reads root ∧ s'.Unfailing ∧ (∃ u, a = some u ∧ c'.Holds root f u) ∧
      ∀ k, (f.path.normalize root == k) = false → c'.units.units.get? k = c.units.units.get? k := by
  have hreads := hc.of_continues (RunsAlike.continues (runsAlike_unitWith? (.refl _ f) false) h)
  obtain ⟨b, answer, units, hresolve, rfl, rfl⟩ := yieldsWith_unit?_iff.1 h
  obtain ⟨hs', u, action, rfl, hkeeping⟩ :=
    UnitCache.exists_keeping_of_resolveWith hc.units hc.engine hs hresolve
  have hkey := hc.key_eq f.path
  rw [hkey] at hkeeping
  exact ⟨hreads, hs', ⟨u, rfl, hkeeping.kept, hkeeping.hash⟩, hkeeping.rest⟩

/-- The unit that a file is answered with is held. -/
theorem holds_of_unit? (hc : c.Reads root) (hs : s.Unfailing)
    (h : YieldsWith (unit? f) c s (some u) c' s') :
    c'.Reads root ∧ s'.Unfailing ∧ c'.Holds root f u := by
  obtain ⟨hc', hs', ⟨v, hv, hu⟩, -⟩ := exists_holds_of_unit? hc hs h
  obtain rfl := Option.some.inj hv
  exact ⟨hc', hs', hu⟩

/-- A held file is answered with the unit that is kept. -/
theorem yieldsWith_unit?_of_holds (hc : c.Reads root) (h : c.Holds root f u) (s : ModelState) :
    ∃ c', YieldsWith (unit? f) c s (some u) c' s ∧ c.KeepsSame c' := by
  have hkey := hc.key_eq f.path
  have hresolve : YieldsWith (c.units.resolveWith false f.path f.code) c.builder s
      (.ok (u, .reused), { c.units with stats := c.units.stats.record .reused }) c.builder s := by
    unfold UnitCache.resolveWith
    refine yieldsWith_bind.2 ⟨_, _, _, yieldsWith_get.2 ⟨rfl, rfl, rfl⟩, ?_⟩
    dsimp only
    rw [hkey, h.kept]
    dsimp only
    rw [if_pos (.inr h.hash)]
    exact yieldsWith_pure.2 ⟨rfl, rfl, rfl⟩
  exact ⟨_, yieldsWith_unit?_iff.2 ⟨_, _, _, hresolve, rfl, rfl⟩, rfl, rfl, rfl, rfl, rfl, rfl, rfl⟩

end CoreM

end SketchSense
