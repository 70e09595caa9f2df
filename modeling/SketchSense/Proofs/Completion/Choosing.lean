import Mathlib.Data.List.Sort
import Mathlib.Order.Compare
import SketchSense.Completion.Ranking
import SketchSense.Proofs.Enumeration
import SketchSense.Proofs.Text.Search

/-!
# Which completions are chosen

Of the items that go with what was typed, those with one text are shown as one. It is the best of
them, and of several that are equally good the one that came first; it tells how many others there
are. What is shown of a list of items does not depend on its order, though the item that stands for
a text may.

* `CompletionItem.GoesWith`, which items go with what was typed, and `fits_iff`;
* the laws of `RankKey.compare` and `CompletionItem.compareFor`;
* `CompletionItem.StandsFor`, an item that stands for all items of its text, and
  `standsFor_of_mem_foldOverloads`;
* `chooseCompletions_ranked`, all that is said about the list.
-/

namespace SketchSense

namespace CompletionItem

/-- Some part of `text` reads like `typed`, ASCII case aside. -/
def ContainsAnyCase (typed text : String) : Prop :=
  ∃ before part rest, text.toList = before ++ part ++ rest ∧
    part.map Char.toLower = typed.toList.map Char.toLower

/-- The items that are kept: where nothing was typed those of the sketch, and else those that contain
what was typed. -/
def GoesWith (typed : String) (i : CompletionItem) : Prop :=
  (typed = "" ∧ i.fromSketch = true) ∨ (typed ≠ "" ∧ ContainsAnyCase typed i.text)

variable {typed : String} {i j : CompletionItem}

theorem containsAnyCase_iff {text : String} :
    ContainsAnyCase typed text ↔
      Text.contains (asciiLower typed).toList (asciiLower text).toList = true := by
  rw [Text.contains_iff, asciiLower, asciiLower, String.toList_ofList, String.toList_ofList]
  constructor
  · rintro ⟨before, part, rest, htext, hpart⟩
    refine ⟨before.map Char.toLower, rest.map Char.toLower, ?_⟩
    rw [htext, List.map_append, List.map_append, hpart]
  · rintro ⟨before, rest, htext⟩
    obtain ⟨front, rest', htext, hfront, -⟩ := List.map_eq_append_iff.1 htext
    obtain ⟨before', part, rfl, -, hpart⟩ := List.map_eq_append_iff.1 hfront
    exact ⟨before', part, rest', htext, hpart⟩

theorem fits_iff : i.fits typed = true ↔ GoesWith typed i := by
  unfold fits GoesWith
  split
  · next h => simp [h]
  · next h => simp [h, containsAnyCase_iff]

instance : DecidablePred (GoesWith typed) := fun _ => decidable_of_iff _ fits_iff

end CompletionItem

/-! ## The order of the list -/

namespace RankKey

/-- Order of keys by their numbers alone. -/
def compareNumbers (a b : RankKey) : Ordering := lexCompare Ord.compare a.numbers b.numbers

instance : Std.TransCmp compareNumbers where
  eq_swap {a b} := @Std.OrientedCmp.eq_swap _ (lexCompare Ord.compare) _ a.numbers b.numbers
  isLE_trans {_ _ _} h h' :=
    @Std.TransCmp.isLE_trans _ (lexCompare (Ord.compare (α := Nat))) _ _ _ _ h h'

instance : Std.TransCmp compare :=
  inferInstanceAs (Std.TransCmp (compareLex compareNumbers (compareOn RankKey.text)))

/-- The order tells keys apart. -/
instance : Std.LawfulEqCmp compare where
  compare_self := Std.ReflCmp.compare_self
  eq_of_compare {a b} h := by
    obtain ⟨hnumbers, htext⟩ := Ordering.then_eq_eq.1 h
    have hnumbers : a.numbers = b.numbers :=
      @Std.LawfulEqCmp.eq_of_compare _ (lexCompare Ord.compare) _ _ _ hnumbers
    have htext : a.text = b.text := Std.LawfulEqCmp.eq_of_compare htext
    cases a
    cases b
    simp only at hnumbers htext
    rw [hnumbers, htext]

end RankKey

namespace CompletionItem

variable {typed : String} {i j : CompletionItem} {is js : List CompletionItem}

instance : Std.TransCmp (compareFor typed) where
  eq_swap {i j} := @Std.OrientedCmp.eq_swap _ RankKey.compare _ (i.rank typed) (j.rank typed)
  isLE_trans {_ _ _} h h' := @Std.TransCmp.isLE_trans _ RankKey.compare _ _ _ _ h h'

/-- Items that are equally good have the same text. -/
theorem text_eq_of_compareFor (h : compareFor typed i j = .eq) : i.text = j.text :=
  congrArg RankKey.text (Std.LawfulEqCmp.eq_of_compare h)

/-- Folding others into an item does not change its place. -/
theorem compareFor_fold (m n : Nat) :
    compareFor typed (i.fold m) (j.fold n) = compareFor typed i j :=
  rfl

/-! ## One item for each text -/

/-- What is seen of an item in a list. -/
def shownAs (i : CompletionItem) : String × String × Nat := (i.text, i.label, i.overloads)

/-- An item that stands for all items of its text: it is the first of those that no other of them is
better than, and it tells how many others there are. -/
def StandsFor (typed : String) (is : List CompletionItem) (shown : CompletionItem) : Prop :=
  ∃ best others, (∀ i ∈ is, i.text = best.text → (compareFor typed best i).isLE = true) ∧
    is.find? (fun i => compareFor typed i best = .eq) = some best ∧
    is.countP (fun i => i.text = best.text) = others + 1 ∧
    shown = { best with
      overloads := others
      label :=
        if others = 0 then best.label
        else best.text ++ "(...) - " ++ toString (others + 1) ++ " overloads" }

/-- The first entry of a text in the ranked list is the first that is as good as it in the list that
was given. -/
theorem find?_of_find?_sortBy {best : CompletionItem}
    (h : (sortBy (compareFor typed) is).find? (·.text == best.text) = some best) :
    is.find? (fun i => compareFor typed i best = .eq) = some best := by
  have hsorted : (sortBy (compareFor typed) is).find? (fun i => compareFor typed i best = .eq) =
      some best := by
    obtain ⟨-, before, behind, hsplit, hbefore⟩ := List.find?_eq_some_iff_append.1 h
    rw [List.find?_eq_some_iff_append]
    refine ⟨by simp [Std.ReflCmp.compare_self], before, behind, hsplit, fun i hi => ?_⟩
    -- an item that is as good has the same text
    have htext := hbefore i hi
    simp only [Bool.not_eq_true', beq_eq_false_iff_ne, decide_eq_false_iff_not] at htext ⊢
    exact fun hcmp => htext (text_eq_of_compareFor hcmp)
  rw [← List.head?_filter] at hsorted ⊢
  rw [← filter_sortBy]
  exact hsorted

/-- Every item of the folded list stands for the items of its text. -/
theorem standsFor_of_mem_foldOverloads (hnone : ∀ i ∈ is, i.overloads = 0) {shown : CompletionItem}
    (h : shown ∈ foldOverloads (sortBy (compareFor typed) is)) : StandsFor typed is shown := by
  obtain ⟨best, hbest, rfl⟩ := List.mem_map.1 h
  have hfirst := find?_of_mem_keepFirst hbest
  have hmem : best ∈ is := (sortBy_perm _ _).mem_iff.1 (mem_of_mem_keepFirst hbest)
  have hcount : (sortBy (compareFor typed) is).countP (fun i => i.text = best.text) =
      is.countP fun i => i.text = best.text := (sortBy_perm _ _).countP_eq _
  have hpos : 0 < is.countP fun i => i.text = best.text :=
    List.countP_pos_iff.2 ⟨best, hmem, by simp⟩
  refine ⟨best, is.countP (fun i => i.text = best.text) - 1, fun i hi htext => ?_,
    find?_of_find?_sortBy hfirst, by omega, ?_⟩
  · exact isLE_of_find?_sortBy hfirst hi (by simp [htext])
  · rw [hcount]
    unfold fold
    rw [hnone best hmem, Nat.zero_add]
    dsimp only
    generalize is.countP (fun i => i.text = best.text) - 1 = others
    cases others with
    | zero => rfl
    | succ n => rfl

/-- What is seen of an item that stands for its text depends on no more than how many items there
are, and on the label of one that is alone. -/
theorem StandsFor.shownAs_eq {shown shown' : CompletionItem} (hperm : is.Perm js)
    (h : StandsFor typed is shown) (h' : StandsFor typed js shown')
    (htext : shown.text = shown'.text) : shown.shownAs = shown'.shownAs := by
  obtain ⟨best, others, -, hfind, hcount, rfl⟩ := h
  obtain ⟨best', others', -, hfind', hcount', rfl⟩ := h'
  dsimp only at htext
  rw [htext, hperm.countP_eq, hcount'] at hcount
  obtain rfl : others' = others := by omega
  unfold shownAs
  dsimp only
  split
  · next hzero =>
    -- both are the only item of their text
    have hone : (js.filter fun i => i.text = best'.text).length = 1 := by
      rw [← List.countP_eq_length_filter, hcount', hzero]
    obtain ⟨only, honly⟩ := List.length_eq_one_iff.1 hone
    have hmem : best ∈ js.filter fun i => i.text = best'.text :=
      List.mem_filter.2 ⟨hperm.mem_iff.1 (List.mem_of_find?_eq_some hfind), by simp [htext]⟩
    have hmem' : best' ∈ js.filter fun i => i.text = best'.text :=
      List.mem_filter.2 ⟨List.mem_of_find?_eq_some hfind', by simp⟩
    rw [honly, List.mem_singleton] at hmem hmem'
    rw [hmem, hmem']
  · rw [htext]

/-- The folded list has one item for every text. -/
theorem exists_mem_foldOverloads {text : String} :
    (∃ shown ∈ foldOverloads (sortBy (compareFor typed) is), shown.text = text) ↔
      ∃ i ∈ is, i.text = text := by
  constructor
  · rintro ⟨shown, hshown, rfl⟩
    obtain ⟨best, hbest, rfl⟩ := List.mem_map.1 hshown
    exact ⟨best, (sortBy_perm _ _).mem_iff.1 (mem_of_mem_keepFirst hbest), rfl⟩
  · rintro ⟨i, hi, rfl⟩
    obtain ⟨best, hbest, htext⟩ := exists_mem_keepFirst (·.text)
      ((sortBy_perm (compareFor typed) is).mem_iff.2 hi)
    exact ⟨_, List.mem_map_of_mem hbest, eq_of_beq htext⟩

/-- In the folded list the ranks rise strictly, and no text comes twice. -/
theorem pairwise_foldOverloads (is : List CompletionItem) :
    (foldOverloads (sortBy (compareFor typed) is)).Pairwise fun i j =>
      compareFor typed i j = .lt ∧ i.text ≠ j.text := by
  have hranked : (keepFirst (·.text) (sortBy (compareFor typed) is)).Pairwise fun i j =>
      (compareFor typed i j).isLE = true :=
    (pairwise_sortBy _ _).sublist (keepFirst_sublist _)
  refine List.pairwise_map.2 ((hranked.and (pairwise_keepFirst _ _)).imp ?_)
  rintro i j ⟨hle, htext⟩
  have htext : i.text ≠ j.text := by simpa using htext
  rw [compareFor_fold]
  refine ⟨?_, htext⟩
  cases hcmp : compareFor typed i j with
  | lt => rfl
  | eq => exact absurd (text_eq_of_compareFor hcmp) htext
  | gt =>
    rw [hcmp] at hle
    cases hle

/-- Which texts are shown, and in which order, does not depend on the order of the items. -/
theorem map_text_foldOverloads (hperm : is.Perm js) :
    (foldOverloads (sortBy (compareFor typed) is)).map (·.text) =
      (foldOverloads (sortBy (compareFor typed) js)).map (·.text) := by
  -- the texts are those of the ranks, and equal ranks are the same
  have htexts (is : List CompletionItem) :
      (foldOverloads (sortBy (compareFor typed) is)).map (·.text) =
        (keepFirst RankKey.text (sortBy RankKey.compare (is.map (rank typed)))).map RankKey.text := by
    rw [sortBy_map (rank typed) (r := compareFor typed) fun _ _ _ _ => rfl, keepFirst_map,
      List.map_map, foldOverloads, List.map_map]
    rfl
  rw [htexts, htexts,
    sortBy_eq_of_perm (hperm.map (rank typed)) fun _ _ _ _ h => Std.LawfulEqCmp.eq_of_compare h]

end CompletionItem

/-- Lists of which `f` makes the same are the same for `g` as well, if `f` decides about `g`. -/
theorem map_eq_map_of_map_eq {α β γ : Type} {f : α → β} {g : α → γ} {as bs : List α}
    (h : as.map f = bs.map f) (hg : ∀ a ∈ as, ∀ b ∈ bs, f a = f b → g a = g b) :
    as.map g = bs.map g := by
  have hlength : as.length = bs.length := by simpa using congrArg List.length h
  refine List.ext_getElem (by simp [hlength]) fun n ha hb => ?_
  rw [List.length_map] at ha hb
  have hf : f as[n] = f bs[n] := by
    rw [← List.getElem_map f (h := by simpa using ha), ← List.getElem_map f (h := by simpa using hb)]
    exact List.getElem_of_eq h _
  rw [List.getElem_map, List.getElem_map]
  exact hg _ (List.getElem_mem ha) _ (List.getElem_mem hb) hf

open CompletionItem

/-- What is shown of items without overloads of their own is the beginning of a list in which the ranks
rise strictly, so that no text comes twice. The list has one item for every text of the items that go
with what was typed, and that item stands for all of them. The same is shown of the items in any
other order. -/
theorem chooseCompletions_ranked (typed : String) {is : List CompletionItem}
    (hnone : ∀ i ∈ is, i.overloads = 0) :
    ∃ ranked : List CompletionItem,
      (∀ limit, chooseCompletions typed is limit = ranked.take limit) ∧
      (ranked.Pairwise fun i j => compareFor typed i j = .lt ∧ i.text ≠ j.text) ∧
      (∀ text, (∃ shown ∈ ranked, shown.text = text) ↔ ∃ i ∈ is, GoesWith typed i ∧ i.text = text) ∧
      (∀ shown ∈ ranked, StandsFor typed (is.filter fun i => GoesWith typed i) shown) ∧
      (∀ js, js.Perm is → ∀ limit,
        (chooseCompletions typed js limit).map shownAs =
          (chooseCompletions typed is limit).map shownAs) ∧
      ∀ less more, less ≤ more →
        chooseCompletions typed is less <+: chooseCompletions typed is more := by
  have hchoose (js : List CompletionItem) (limit : Nat) : chooseCompletions typed js limit =
      (foldOverloads (sortBy (compareFor typed) (js.filter fun i => GoesWith typed i))).take
        limit := by
    unfold chooseCompletions
    rw [List.filter_congr fun i _ => Bool.eq_iff_iff.2 (fits_iff.trans decide_eq_true_iff.symm)]
  have hstands {js : List CompletionItem} (hjs : ∀ i ∈ js, i.overloads = 0) :
      ∀ shown ∈ foldOverloads (sortBy (compareFor typed) (js.filter fun i => GoesWith typed i)),
        StandsFor typed (js.filter fun i => GoesWith typed i) shown :=
    fun shown hshown => standsFor_of_mem_foldOverloads
      (fun i hi => hjs i (List.mem_filter.1 hi).1) hshown
  refine ⟨_, hchoose is, pairwise_foldOverloads _, fun text => ?_, hstands hnone, ?_, ?_⟩
  · simp only [exists_mem_foldOverloads, List.mem_filter, decide_eq_true_eq, and_assoc]
  · intro js hperm limit
    have hjs : ∀ i ∈ js, i.overloads = 0 := fun i hi => hnone i (hperm.mem_iff.1 hi)
    have hsurvive := hperm.filter fun i => decide (GoesWith typed i)
    rw [hchoose, hchoose, List.map_take, List.map_take]
    refine congrArg (List.take limit) (map_eq_map_of_map_eq (map_text_foldOverloads hsurvive) ?_)
    intro i hi j hj htext
    exact (hstands hjs i hi).shownAs_eq hsurvive (hstands hnone j hj) htext
  · intro less more hle
    rw [hchoose, hchoose]
    exact List.take_prefix_take_left hle

/-- Two overloads of `print` and an item that merely contains what was typed, in any order: the
overloads are shown as one, in front of the other. -/
theorem choose_overloads_of_print :
    ∃ is : List CompletionItem, is.map (·.text) = ["print", "print", "sprint"] ∧
      (∀ i ∈ is, i.overloads = 0) ∧
      ∀ js, js.Perm is → (chooseCompletions "Pri" js 5).map shownAs =
        [("print", "print(...) - 2 overloads", 1), ("sprint", "sprint", 0)] := by
  have hnone : ∀ i ∈ ([⟨"print", "print(int n)", "", .method, 40, none, false, 0⟩,
      ⟨"print", "print()", "", .method, 50, none, false, 0⟩,
      ⟨"sprint", "sprint", "", .function, 50, none, true, 0⟩] : List CompletionItem),
      i.overloads = 0 := by decide
  obtain ⟨ranked, -, -, -, -, hperm, -⟩ := chooseCompletions_ranked "Pri" hnone
  refine ⟨_, rfl, hnone, fun js hjs => ?_⟩
  rw [hperm js hjs 5, chooseCompletions, List.filter_eq_self.2 (by decide +kernel), sortBy,
    List.mergeSort_of_pairwise (by decide +kernel)]
  decide +kernel

end SketchSense
