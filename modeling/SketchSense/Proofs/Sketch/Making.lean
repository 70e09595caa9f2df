import SketchSense.Proofs.Engine.Run
import SketchSense.Sketch.Sources

/-!
# How the sources of a file are made

Either the header of a sketch is known, or the sketch is scanned first; then the include is placed
from memory or above the definitions found. The lemmas below say so of runs, so that no other proof
opens these definitions.

* `yields_replayOrInject`, `Transformer.yields_withHeader` and `Transformer.yields_sources`;
* `Transformer.path_of_sources`, the name under which any file is analysed.
-/

namespace SketchSense

variable {σ : Type} {e : Engine σ} {path : FilePath} {code : String} {args : List String}
  {s s' : σ}

/-- The include is placed from memory, and else above the definitions that the scan finds. -/
theorem InsertionMemo.yields_replayOrInject {m m' : InsertionMemo} {signature : ContentHash}
    {scan : EngineM σ (List Definition)} {r : InjectedText} :
    Yields (m.replayOrInject signature path code scan) s (r, m') s' ↔
      (m.replay signature path code = some r ∧ m' = m ∧ s' = s) ∨
      (m.replay signature path code = none ∧
        ∃ ds, Yields scan s ds s' ∧ (r, m') = m.inject signature path code ds) := by
  unfold replayOrInject
  cases hreplay : m.replay signature path code with
  | some r' => simp [and_assoc, eq_comm]
  | none =>
    simp only [yields_bind, yields_pure, reduceCtorEq, false_and, true_and, false_or]
    constructor
    · rintro ⟨ds, t, hscan, hr, rfl⟩
      exact ⟨ds, hscan, hr⟩
    · rintro ⟨ds, hscan, hr⟩
      exact ⟨ds, s', hscan, hr, rfl⟩

namespace Transformer

variable {t t' : Transformer} {made : Sources}

/-- An empty header is not included; any other one is. -/
theorem yields_withHeader {header : String} {scan : EngineM σ (List Definition)} :
    Yields (t.withHeader path code header scan) s (made, t') s' ↔
      (header = "" ∧ made = .renamed path code ∧ t' = t ∧ s' = s) ∨
      (header ≠ "" ∧ ∃ r memo,
        Yields (t.memo.replayOrInject ((Skeleton.ofCode code).signature path.display) path code
          scan) s (r, memo) s' ∧
        made = .injected path header r ∧ t' = { t with memo }) := by
  unfold withHeader
  by_cases hheader : header = ""
  · simp [hheader, and_assoc]
  · simp only [hheader, if_false, yields_bind, yields_pure, Prod.exists, Prod.mk.injEq, false_and,
      not_false_eq_true, true_and, false_or, ne_eq]
    constructor
    · rintro ⟨r, memo, u, hrun, ⟨rfl, rfl⟩, rfl⟩
      exact ⟨r, memo, hrun, rfl, rfl⟩
    · rintro ⟨r, memo, hrun, rfl, rfl⟩
      exact ⟨r, memo, s', hrun, ⟨rfl, rfl⟩, rfl⟩

/-- A sketch whose layout is known gets the remembered header; any other one is scanned. -/
theorem yields_sources (hkind : path.kind = .sketchEntry) :
    Yields (t.sources e path code args) s (made, t') s' ↔
      (∃ header, t.headers.get? ((Skeleton.ofCode code).layout path.display) = some header ∧
        Yields (t.withHeader path code header do return (← definitions? e path code args).getD [])
          s (made, t') s') ∨
      (t.headers.get? ((Skeleton.ofCode code).layout path.display) = none ∧
        ∃ found s₁, Yields (definitions? e path code args) s found s₁ ∧
          Yields (Transformer.withHeader
            { t with
              headers := t.headers.insert ((Skeleton.ofCode code).layout path.display)
                ((found.map (prototypeHeader path)).getD "") }
            path code ((found.map (prototypeHeader path)).getD "") (return found.getD []))
            s₁ (made, t') s') := by
  unfold sources
  rw [if_neg (by simp [hkind])]
  dsimp only
  cases t.headers.get? ((Skeleton.ofCode code).layout path.display) with
  | some header => simp
  | none => simp [yields_bind]

theorem yields_sources_plain (hkind : path.kind ≠ .sketchEntry) :
    Yields (t.sources e path code args) s (made, t') s' ↔
      (made, t') = (.plain path code, t) ∧ s' = s := by
  unfold sources
  rw [if_pos hkind, yields_pure]

/-- Whatever a file's sources are, it is analysed under its analysed name. -/
theorem path_of_sources (h : Yields (t.sources e path code args) s (made, t') s') :
    made.main.path = path.analyzedName ∧ made.map.analyzed = path.analyzedName := by
  have withHeader {u : Transformer} {header : String} {scan : EngineM σ (List Definition)} {r : σ}
      (h : Yields (u.withHeader path code header scan) r (made, t') s') :
      made.main.path = path.analyzedName ∧ made.map.analyzed = path.analyzedName := by
    rcases yields_withHeader.1 h with ⟨-, rfl, -⟩ | ⟨-, _, _, -, rfl, -⟩
    · exact ⟨rfl, rfl⟩
    · exact ⟨rfl, rfl⟩
  by_cases hkind : path.kind = .sketchEntry
  · rcases (yields_sources hkind).1 h with ⟨_, -, h⟩ | ⟨-, _, _, -, h⟩
    · exact withHeader h
    · exact withHeader h
  · obtain ⟨hmade, -⟩ := (yields_sources_plain hkind).1 h
    obtain ⟨rfl, -⟩ := Prod.mk.inj hmade
    simp [FilePath.analyzedName, hkind, Sources.plain, CoordinateMap.identity]

end Transformer

end SketchSense
