import SketchSense.Cache.Builder
import SketchSense.Proofs.FilePath.Inside

/-!
# Normalising step by step

A path that is taken from another one is walked down behind it. So it does not matter whether two
paths are joined first or the first one is normalised on its own, and a normalised path is its own
normal form.

* `foldl_step_walkDown` and `walkDown_named`, walks that are put together and walks to names;
* `push`, a step on the text of a path, with `normalize_eq_foldl`, that normalising takes one such
  step after the other;
* `Settled`, an absolute path of names, and `normalize_composes`.
-/

namespace SketchSense

/-! ## Walks -/

namespace NormalPath

/-- Steps down to names write the names behind those that are there. -/
theorem foldl_step_names (n : NormalPath) (names : List String) :
    (names.map Component.name).foldl step n = { n with names := n.names ++ names } := by
  induction names generalizing n with
  | nil => simp
  | cons s names ih =>
    rw [List.map_cons, List.foldl_cons, ih]
    simp [step]

end NormalPath

namespace FilePath

variable {p q base : FilePath}

theorem foldl_step_walkDown (segs more : List (List Char)) :
    (more.map componentOf).foldl NormalPath.step (walkDown segs) = walkDown (segs ++ more) := by
  unfold walkDown
  rw [List.map_append, List.foldl_append]

/-- The segments of a normal path lead to the path itself. -/
theorem walkDown_named {n : NormalPath} (hn : n.IsPlain) (habsolute : n.absolute = true) :
    walkDown n.toFilePath.named = n := by
  have hroot : n.toFilePath.isAbsolute = true := by rw [NormalPath.isAbsolute_toFilePath hn, habsolute]
  rw [← ofComponents_of_isAbsolute hroot, NormalPath.components_toFilePath hn, if_pos habsolute]
  show (n.names.map Component.name).foldl NormalPath.step ⟨true, []⟩ = n
  rw [NormalPath.foldl_step_names, List.nil_append, ← habsolute]

/-- From an absolute path only absolute paths are reached. -/
theorem absolute_normal (hbase : base.isAbsolute = true) (p : FilePath) :
    (p.normal base).absolute = true := by
  cases hp : p.isAbsolute with
  | true => rw [normal_of_absolute hp, absolute_walkDown]
  | false => rw [normal_of_relative hbase hp, absolute_walkDown]

/-! ## Steps on texts -/

/-- The path after one more step, on its text: a name is written behind it, and a step up takes the
last name off. The root has nothing above it and stays. -/
def push (p : FilePath) : Component → FilePath
  | .root => p.join ⟨"/"⟩
  | .current => p
  | .up => p.parent?.getD p
  | .name s => p.join ⟨s⟩

theorem eq_of_toList_eq {p q : FilePath} (h : p.text.toList = q.text.toList) : p = q :=
  congrArg FilePath.mk (String.toList_inj.1 h)

theorem toList_toFilePath (n : NormalPath) :
    n.toFilePath.text.toList =
      (if n.absolute then ['/'] else []) ++ joinSlashes (n.names.map String.toList) := by
  unfold NormalPath.toFilePath
  rw [String.toList_append, toList_intercalate_slash]
  cases n.absolute <;> rfl

/-- Segments behind others are written behind a separator. -/
theorem joinSlashes_append {segs more : List (List Char)} (hne : segs ≠ []) (hmore : more ≠ []) :
    joinSlashes (segs ++ more) = joinSlashes segs ++ '/' :: joinSlashes more := by
  obtain ⟨m, ms, rfl⟩ := List.exists_cons_of_ne_nil hmore
  induction segs with
  | nil => exact absurd rfl hne
  | cons s segs ih =>
    cases segs with
    | nil => rfl
    | cons t ts =>
      have hrest := ih (List.cons_ne_nil t ts)
      show s ++ '/' :: joinSlashes (t :: ts ++ m :: ms) = _
      rw [hrest, joinSlashes_cons_cons, List.append_assoc, List.cons_append]

theorem joinSlashes_concat {segs : List (List Char)} (hne : segs ≠ []) (s : List Char) :
    joinSlashes (segs ++ [s]) = joinSlashes segs ++ '/' :: s :=
  joinSlashes_append hne (List.cons_ne_nil s [])

/-- The text of a normal path with a name is not empty and does not end with a separator. -/
theorem getLast?_toFilePath {n : NormalPath} (hn : n.IsPlain) (hne : n.names ≠ []) :
    n.toFilePath.isEmpty = false ∧ n.toFilePath.text.toList.getLast? ≠ some '/' := by
  obtain ⟨absolute, names⟩ := n
  rcases List.eq_nil_or_concat names with rfl | ⟨names, s, rfl⟩
  · exact absurd rfl hne
  rw [List.concat_eq_append] at hn ⊢
  obtain ⟨hidle, -, hslash⟩ := hn s (by simp)
  obtain ⟨init, c, hs⟩ : ∃ init c, s.toList = init ++ [c] := by
    rcases List.eq_nil_or_concat s.toList with hnil | ⟨init, c, hc⟩
    · rw [hnil] at hidle
      cases hidle
    · exact ⟨init, c, by simpa using hc⟩
  have hc : c ≠ '/' := by
    rintro rfl
    simp [hs] at hslash
  obtain ⟨front, hfront⟩ : ∃ front,
      (NormalPath.toFilePath ⟨absolute, names ++ [s]⟩).text.toList = front ++ [c] := by
    rw [toList_toFilePath]
    dsimp only
    rw [List.map_append, List.map_singleton, hs]
    cases names with
    | nil => exact ⟨_, (List.append_assoc _ init [c]).symm⟩
    | cons t ts =>
      rw [joinSlashes_concat (by simp)]
      exact ⟨(if absolute then ['/'] else []) ++ joinSlashes ((t :: ts).map String.toList) ++
        '/' :: init, by simp⟩
  exact ⟨by simp [isEmpty, hfront], by simpa [hfront] using hc⟩

/-- A name is written behind a normal path as its last name. -/
theorem join_toFilePath {n : NormalPath} (hn : n.IsPlain) {s : String} (hs : IsPlainName s.toList) :
    n.toFilePath.join ⟨s⟩ = NormalPath.toFilePath ⟨n.absolute, n.names ++ [s]⟩ := by
  have hrelative : ¬ (⟨s⟩ : FilePath).isAbsolute = true := fun habsolute =>
    hs.2.2 (List.mem_of_head? (beq_iff_eq.1 habsolute))
  unfold join
  rw [if_neg hrelative]
  by_cases hnames : n.names = []
  · -- behind the root and behind the empty path no separator is written
    obtain ⟨absolute, names⟩ := n
    obtain rfl : names = [] := hnames
    cases absolute
    all_goals
      rw [if_pos (by decide)]
      simp [NormalPath.toFilePath]
  · obtain ⟨hne, hlast⟩ := getLast?_toFilePath hn hnames
    have hsegments : n.names.map String.toList ≠ [] := by simpa using hnames
    have hwritten := joinSlashes_concat hsegments s.toList
    rw [if_neg (by simp [hne, hlast])]
    refine eq_of_toList_eq ?_
    rw [toList_toFilePath, List.map_append, List.map_singleton, hwritten]
    simp [toList_toFilePath]

theorem trimSegments_of_not_idle {first : List Char} {rest : List (List Char)}
    (h : ∀ s ∈ rest, isIdle s = false) : trimSegments (first :: rest) = first :: rest := by
  unfold trimSegments
  rcases List.eq_nil_or_concat rest with rfl | ⟨front, s, rfl⟩
  · rfl
  · have hs : isIdle s = false := h s (by simp)
    simp [hs]

/-- The directory of a normal path has its names but the last. -/
theorem parent?_of_names {n : NormalPath} (hn : n.IsPlain) {names : List String} {name : String}
    (hnames : n.names = names ++ [name]) :
    n.toFilePath.parent? = some (NormalPath.toFilePath ⟨n.absolute, names⟩) := by
  have hidle : ∀ s ∈ names.map String.toList, isIdle s = false := by
    intro s hs
    obtain ⟨t, ht, rfl⟩ := List.mem_map.1 hs
    exact (hn t (by simp [hnames, ht])).1
  unfold parent?
  rw [NormalPath.splitLast?_toFilePath hn hnames, NormalPath.isAbsolute_toFilePath hn]
  refine congrArg some (eq_of_toList_eq ?_)
  rw [toList_toFilePath]
  dsimp only
  cases n.absolute with
  | true =>
    rw [if_pos rfl, if_pos rfl, List.singleton_append, trimSegments_of_not_idle hidle]
    cases names <;> simp [ofSegments, joinSlashes]
  | false =>
    cases names with
    | nil => rfl
    | cons u us =>
      rw [List.map_cons, List.forall_mem_cons] at hidle
      simp [ofSegments, trimSegments_of_not_idle hidle.2]

/-- A step up takes the last name off a normal path, if there is one. -/
theorem parent?_toFilePath {n : NormalPath} (hn : n.IsPlain) :
    n.toFilePath.parent?.getD n.toFilePath =
      NormalPath.toFilePath ⟨n.absolute, n.names.dropLast⟩ := by
  rcases List.eq_nil_or_concat n.names with hnil | ⟨names, t, hnames⟩
  · obtain ⟨absolute, names⟩ := n
    obtain rfl : names = [] := hnil
    cases absolute <;> rfl
  · rw [List.concat_eq_append] at hnames
    rw [parent?_of_names hn hnames, hnames, List.dropLast_concat]
    rfl

/-- A step on the text of a normal path is a step on its names. -/
theorem push_toFilePath {n : NormalPath} (hn : n.IsPlain) {c : Component}
    (hc : NormalPath.IsPlainStep c) : n.toFilePath.push c = (n.step c).toFilePath := by
  cases c with
  | root => rfl
  | current => rfl
  | up => exact parent?_toFilePath hn
  | name s => exact join_toFilePath hn hc

/-- Normalising a path takes its steps one after the other, from the empty path on. -/
theorem normalize_eq_foldl (p base : FilePath) :
    p.normalize base = (base.join p).components.foldl push ⟨""⟩ := by
  have hsteps : ∀ c ∈ (base.join p).components, NormalPath.IsPlainStep c :=
    fun _ h => isPlainStep_of_mem_components h
  have hall : ∀ (steps : List Component) (n : NormalPath), (∀ c ∈ steps, NormalPath.IsPlainStep c) →
      n.IsPlain → (steps.foldl NormalPath.step n).toFilePath = steps.foldl push n.toFilePath := by
    intro steps
    induction steps with
    | nil => intros; rfl
    | cons c steps ih =>
      intro n hsteps hn
      rw [List.forall_mem_cons] at hsteps
      rw [List.foldl_cons, List.foldl_cons, push_toFilePath hn hsteps.1,
        ih _ hsteps.2 (hn.step hsteps.1)]
  exact hall _ ⟨false, []⟩ hsteps fun _ hs => by simp at hs

/-! ## Composition -/

/-- An absolute path of names, in its components and in its text. -/
structure Settled (p : FilePath) : Prop where
  absolute : p.isAbsolute = true
  components : Component.current ∉ p.components ∧ Component.up ∉ p.components
  segments : ['.'] ∉ p.segments ∧ ['.', '.'] ∉ p.segments

theorem settled_toFilePath {n : NormalPath} (hn : n.IsPlain) (habsolute : n.absolute = true) :
    n.toFilePath.Settled := by
  have hcomponents := NormalPath.components_toFilePath hn
  rw [if_pos habsolute] at hcomponents
  have hdots : ∀ s ∈ n.toFilePath.segments, s ≠ ['.'] ∧ s ≠ ['.', '.'] := by
    intro s hs
    by_cases hnames : n.names = []
    · obtain ⟨absolute, names⟩ := n
      obtain rfl : names = [] := hnames
      obtain rfl : absolute = true := habsolute
      revert s
      decide
    · rw [NormalPath.segments_toFilePath hn hnames, if_pos habsolute] at hs
      rcases List.mem_append.1 hs with hs | hs
      · rw [List.mem_singleton.1 hs]
        decide
      · obtain ⟨name, hname, rfl⟩ := List.mem_map.1 hs
        obtain ⟨hidle, hup, -⟩ := hn name hname
        refine ⟨fun hcurrent => ?_, hup⟩
        rw [hcurrent] at hidle
        cases hidle
  refine ⟨by rw [NormalPath.isAbsolute_toFilePath hn, habsolute], ?_, ?_⟩
  · rw [hcomponents]
    simp
  · exact ⟨fun h => (hdots _ h).1 rfl, fun h => (hdots _ h).2 rfl⟩

/-- A path that was normalised is absolute, and its segments lead to where the path led. -/
theorem walkDown_normalize (hbase : base.isAbsolute = true) (p : FilePath) :
    (p.normalize base).isAbsolute = true ∧ walkDown (p.normalize base).named = p.normal base := by
  have hplain := isPlain_normal p base
  have habsolute := absolute_normal hbase p
  exact ⟨(NormalPath.isAbsolute_toFilePath hplain).trans habsolute, walkDown_named hplain habsolute⟩

/-- A path that was normalised stays as it is, wherever it is taken from. -/
theorem normalize_normalize (hbase : base.isAbsolute = true) (p other : FilePath) :
    (p.normalize base).normalize other = p.normalize base := by
  obtain ⟨hpath, hwalk⟩ := walkDown_normalize hbase p
  refine congrArg NormalPath.toFilePath ?_
  rw [normal_of_absolute hpath, hwalk]

/-- A relative path behind another one is normalised from where the other one leads. -/
theorem normalize_join (hbase : base.isAbsolute = true) (p : FilePath) (hq : q.isAbsolute = false) :
    (p.join q).normalize base = q.normalize (p.normalize base) := by
  obtain ⟨hpath, hwalk⟩ := walkDown_normalize hbase p
  have hright : q.normal (p.normalize base) =
      (q.named.map componentOf).foldl NormalPath.step (p.normal base) := by
    rw [normal_of_relative hpath hq, ← foldl_step_walkDown, hwalk]
  refine congrArg NormalPath.toFilePath (Eq.trans ?_ hright.symm)
  cases hp : p.isAbsolute with
  | true =>
    rw [normal_of_absolute (by rw [isAbsolute_join, hp, Bool.or_true]), named_join p hq,
      normal_of_absolute hp, foldl_step_walkDown]
  | false =>
    rw [normal_of_relative hbase (by rw [isAbsolute_join, hp, hq, Bool.or_false]), named_join p hq,
      normal_of_relative hbase hp, foldl_step_walkDown, List.append_assoc]

/-- From an absolute path on, normalising takes the steps of a path one after the other and goes along
with taking paths from one another: joined paths are normalised one after the other, the result is an
absolute path of names, a step up from the root leads to the root, and what is normalised, the key of
a file included, is its own normal form. -/
theorem normalize_composes {base : FilePath} (hbase : base.isAbsolute = true) :
    (∀ p : FilePath, p.normalize base = (base.join p).components.foldl push ⟨""⟩) ∧
      (∀ p q : FilePath, q.isAbsolute = false →
        (p.join q).normalize base = q.normalize (p.normalize base)) ∧
      (∀ p : FilePath, (p.normalize base).Settled) ∧
      (∀ p : FilePath, p.normalize base = ⟨"/"⟩ → (p.join ⟨".."⟩).normalize base = ⟨"/"⟩) ∧
      (∀ p : FilePath, (p.normalize base).normalize base = p.normalize base) ∧
      ∀ {σ : Type} (b : UnitBuilder σ), b.root = base → ∀ p, b.key (b.key p) = b.key p := by
  refine ⟨?_, ?_, ?_, ?_, ?_, ?_⟩
  · intro p
    exact normalize_eq_foldl p base
  · intro p q hq
    exact normalize_join hbase p hq
  · intro p
    exact settled_toFilePath (isPlain_normal p base) (absolute_normal hbase p)
  · intro p hp
    rw [normalize_join hbase p (by decide), hp]
    rfl
  · intro p
    exact normalize_normalize hbase p base
  · rintro σ b rfl p
    exact normalize_normalize hbase p b.root

/-- Two paths that lead above the root and down again. -/
theorem normalize_composes_above_root :
    (⟨"/home/u"⟩ : FilePath).isAbsolute = true ∧
      (FilePath.join ⟨"../../.."⟩ ⟨"./src//led.h/"⟩).normalize ⟨"/home/u"⟩ =
        FilePath.normalize ⟨"./src//led.h/"⟩ (FilePath.normalize ⟨"../../.."⟩ ⟨"/home/u"⟩) ∧
      FilePath.normalize ⟨"../../.."⟩ ⟨"/home/u"⟩ = ⟨"/"⟩ ∧
      (FilePath.join ⟨"../../.."⟩ ⟨"./src//led.h/"⟩).normalize ⟨"/home/u"⟩ = ⟨"/src/led.h"⟩ :=
  ⟨by decide, (normalize_composes (by decide)).2.1 _ _ (by decide), rfl, rfl⟩

end FilePath

end SketchSense
