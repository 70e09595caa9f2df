import Mathlib.Data.List.Infix
import SketchSense.Proofs.Collation

/-!
# Lists that are merged in any order

Lists that come from several sources are put together, sorted stably, and of every key the first entry
is kept. The sources may come in any order. Entries that the comparison does not tell apart stay in
the order of the sources, so what is kept of them may depend on it.

* `keepFirst_append` and `keepFirst_filter`, the first entries of lists that are put together;
* `filter_keepFirst_sortBy`, what is kept among the entries that are not told apart;
* `forall_perm_keepFirst_iff` and `forall_perm_merged_iff`, when the order does not matter.
-/

namespace SketchSense

variable {α κ : Type}

/-! ## The first entries of lists that are put together -/

section KeepFirst

variable [BEq κ] [LawfulBEq κ] {key : α → κ}

theorem keepFirstAfter_congr {seen seen' : List κ} (h : ∀ k, k ∈ seen ↔ k ∈ seen') (as : List α) :
    keepFirstAfter key seen as = keepFirstAfter key seen' as := by
  induction as generalizing seen seen' with
  | nil => rfl
  | cons a as ih =>
    have hcontains : seen.contains (key a) = seen'.contains (key a) := by
      rw [Bool.eq_iff_iff, List.contains_iff_mem, List.contains_iff_mem]
      exact h (key a)
    have hcons : ∀ k, k ∈ key a :: seen ↔ k ∈ key a :: seen' := by
      intro k
      rw [List.mem_cons, List.mem_cons, h]
    unfold keepFirstAfter
    rw [hcontains, ih h, ih hcons]

/-- Keys that were seen before take out the entries that have them. -/
theorem keepFirstAfter_append_seen (more seen : List κ) (as : List α) :
    keepFirstAfter key (more ++ seen) as =
      (keepFirstAfter key seen as).filter fun a => !more.contains (key a) := by
  induction as generalizing seen with
  | nil => rfl
  | cons a as ih =>
    have hmove (s : List κ) : ∀ k, k ∈ key a :: (more ++ s) ↔ k ∈ more ++ key a :: s := by
      intro k
      simp only [List.mem_cons, List.mem_append]
      exact or_left_comm
    unfold keepFirstAfter
    by_cases hseen : key a ∈ seen
    · rw [if_pos (List.contains_iff_mem.2 (List.mem_append_right _ hseen)),
        if_pos (List.contains_iff_mem.2 hseen)]
      exact ih seen
    · rw [if_neg (mt List.contains_iff_mem.1 hseen)]
      by_cases hmore : key a ∈ more
      · -- the entry is taken out on both sides, and its key is among the keys before
        have hsame : ∀ k, k ∈ more ++ seen ↔ k ∈ more ++ key a :: seen := by
          intro k
          rw [← hmove, List.mem_cons]
          exact ⟨.inr, fun h => h.elim (fun he => he ▸ List.mem_append_left _ hmore) id⟩
        rw [if_pos (List.contains_iff_mem.2 (List.mem_append_left _ hmore)),
          List.filter_cons_of_neg (by simp [hmore]), ← ih (key a :: seen)]
        exact keepFirstAfter_congr hsame as
      · rw [if_neg (by simp [hmore, hseen]), List.filter_cons_of_pos (by simp [hmore]),
          ← ih (key a :: seen)]
        exact congrArg _ (keepFirstAfter_congr (hmove seen) as)

theorem keepFirstAfter_append (seen : List κ) (as bs : List α) :
    keepFirstAfter key seen (as ++ bs) =
      keepFirstAfter key seen as ++ keepFirstAfter key (as.map key ++ seen) bs := by
  induction as generalizing seen with
  | nil => rfl
  | cons a as ih =>
    rw [List.cons_append, keepFirstAfter, keepFirstAfter]
    split
    · next hseen =>
      rw [ih, List.map_cons]
      refine congrArg _ (keepFirstAfter_congr (fun k => ?_) bs)
      rw [List.cons_append, List.mem_cons]
      refine ⟨.inr, fun h => h.elim (fun he => ?_) id⟩
      exact List.mem_append_right _ (he ▸ List.contains_iff_mem.1 hseen)
    · rw [ih, List.cons_append, List.map_cons]
      refine congrArg (a :: _ ++ ·) (keepFirstAfter_congr (fun k => ?_) bs)
      simp only [List.mem_append, List.mem_cons, List.cons_append]
      exact or_left_comm

omit [LawfulBEq κ] in
theorem keepFirst_sublist (as : List α) : (keepFirst key as).Sublist as := by
  have hafter (seen : List κ) : (keepFirstAfter key seen as).Sublist as := by
    induction as generalizing seen with
    | nil => exact .slnil
    | cons a as ih =>
      unfold keepFirstAfter
      split
      · exact (ih seen).cons a
      · exact (ih (key a :: seen)).cons_cons a
  exact hafter []

/-- Of two lists put together the first entries of the first are kept, and of the second those with
other keys. -/
theorem keepFirst_append (as bs : List α) :
    keepFirst key (as ++ bs) =
      keepFirst key as ++ (keepFirst key bs).filter fun b => !(as.map key).contains (key b) := by
  unfold keepFirst
  rw [keepFirstAfter_append, keepFirstAfter_append_seen]

theorem keepFirstAfter_filter (q : κ → Bool) (seen : List κ) (as : List α) :
    keepFirstAfter key seen (as.filter fun a => q (key a)) =
      (keepFirstAfter key seen as).filter fun a => q (key a) := by
  induction as generalizing seen with
  | nil => rfl
  | cons a as ih =>
    rw [List.filter_cons, keepFirstAfter]
    cases hq : q (key a) with
    | true =>
      rw [if_pos rfl, keepFirstAfter]
      split
      · exact ih seen
      · rw [List.filter_cons, if_pos hq, ih]
    | false =>
      rw [if_neg Bool.false_ne_true, ih]
      split
      · rfl
      · -- a key that is left out anyway need not be remembered
        rw [List.filter_cons_of_neg (by simp [hq]), ← List.singleton_append,
          keepFirstAfter_append_seen, List.filter_filter]
        refine List.filter_congr fun b _ => ?_
        by_cases hkey : key b = key a
        · rw [hkey, hq, Bool.false_and]
        · simp [hkey]

/-- What is left out for its key may be left out before or after. -/
theorem keepFirst_filter (q : κ → Bool) (as : List α) :
    keepFirst key (as.filter fun a => q (key a)) = (keepFirst key as).filter fun a => q (key a) :=
  keepFirstAfter_filter q [] as

variable (key) in
/-- Every entry has the key of one that is kept. -/
theorem key_mem_keepFirst {a : α} {as : List α} (h : a ∈ as) : key a ∈ (keepFirst key as).map key := by
  obtain ⟨b, hb, hkey⟩ := exists_mem_keepFirst key h
  rw [← eq_of_beq hkey]
  exact List.mem_map_of_mem hb

/-- One of two lists begins with the other. -/
def Comparable (as bs : List α) : Prop := as <+: bs ∨ bs <+: as

/-- A list after one that begins with its first entries adds nothing. -/
theorem keepFirst_append_of_continued {as bs : List α} (h : keepFirst key bs <+: keepFirst key as) :
    keepFirst key (as ++ bs) = keepFirst key as := by
  have hnone : (keepFirst key bs).filter (fun b => !(as.map key).contains (key b)) = [] := by
    rw [List.filter_eq_nil_iff]
    intro b hb
    have hmem := mem_of_mem_keepFirst (h.subset hb)
    simp [List.mem_map_of_mem (f := key) hmem]
  rw [keepFirst_append, hnone, List.append_nil]

/-- A list before one that begins with its first entries adds nothing. -/
theorem keepFirst_append_of_continues {as bs : List α} (h : keepFirst key as <+: keepFirst key bs) :
    keepFirst key (as ++ bs) = keepFirst key bs := by
  obtain ⟨rest, hrest⟩ := h
  have hpairs := pairwise_keepFirst key bs
  rw [← hrest, List.pairwise_append] at hpairs
  have hnone : (keepFirst key as).filter (fun b => !(as.map key).contains (key b)) = [] := by
    rw [List.filter_eq_nil_iff]
    intro b hb
    simp [List.mem_map_of_mem (f := key) (mem_of_mem_keepFirst hb)]
  have hall : rest.filter (fun b => !(as.map key).contains (key b)) = rest := by
    rw [List.filter_eq_self]
    intro b hb
    rw [Bool.not_eq_true', ← Bool.not_eq_true, List.contains_iff_mem, List.mem_map]
    rintro ⟨a, ha, hkey⟩
    obtain ⟨a', ha', hkey'⟩ := List.mem_map.1 (key_mem_keepFirst key ha)
    have hne := hpairs.2.2 a' ha' b hb
    rw [hkey', hkey, BEq.rfl] at hne
    cases hne
  rw [keepFirst_append, ← hrest, List.filter_append, hnone, hall, List.nil_append]

variable {β : Type} {L : β → List α}

/-- Where the first entries of any two lists are comparable, those of all lists together are those of
one of them, and no list has others. -/
theorem keepFirst_flatMap_of_comparable {us : List β}
    (h : ∀ u ∈ us, ∀ v ∈ us, Comparable (keepFirst key (L u)) (keepFirst key (L v))) :
    (∀ u ∈ us, keepFirst key (L u) <+: keepFirst key (us.flatMap L)) ∧
      (keepFirst key (us.flatMap L) = [] ∨
        ∃ u ∈ us, keepFirst key (us.flatMap L) = keepFirst key (L u)) := by
  induction us with
  | nil => exact ⟨fun u hu => absurd hu List.not_mem_nil, .inl rfl⟩
  | cons u us ih =>
    obtain ⟨hbegin, hone⟩ := ih fun v hv w hw =>
      h v (List.mem_cons_of_mem _ hv) w (List.mem_cons_of_mem _ hw)
    have hcomparable : Comparable (keepFirst key (L u)) (keepFirst key (us.flatMap L)) := by
      rcases hone with hnil | ⟨v, hv, heq⟩
      · rw [hnil]
        exact .inr List.nil_prefix
      · rw [heq]
        exact h u List.mem_cons_self v (List.mem_cons_of_mem _ hv)
    rw [List.flatMap_cons]
    rcases hcomparable with hle | hle
    · rw [keepFirst_append_of_continues hle]
      refine ⟨List.forall_mem_cons.2 ⟨hle, hbegin⟩, hone.imp_right ?_⟩
      rintro ⟨v, hv, heq⟩
      exact ⟨v, List.mem_cons_of_mem _ hv, heq⟩
    · rw [keepFirst_append_of_continued hle]
      refine ⟨List.forall_mem_cons.2 ⟨List.prefix_rfl, ?_⟩, .inr ⟨u, List.mem_cons_self, rfl⟩⟩
      intro v hv
      exact (hbegin v hv).trans hle

variable (key L) in
/-- The first entries of some lists together do not depend on the order of the lists exactly if those
of any two lists are comparable. -/
theorem forall_perm_keepFirst_iff (us : List β) :
    (∀ vs : List β, vs.Perm us → keepFirst key (vs.flatMap L) = keepFirst key (us.flatMap L)) ↔
      ∀ u ∈ us, ∀ v ∈ us, Comparable (keepFirst key (L u)) (keepFirst key (L v)) := by
  constructor
  · intro hperm
    have hbegin : ∀ u ∈ us, keepFirst key (L u) <+: keepFirst key (us.flatMap L) := by
      intro u hu
      obtain ⟨before, behind, rfl⟩ := List.append_of_mem hu
      rw [← hperm (u :: (before ++ behind)) List.perm_middle.symm, List.flatMap_cons,
        keepFirst_append]
      exact List.prefix_append _ _
    intro u hu v hv
    exact List.prefix_or_prefix_of_prefix (hbegin u hu) (hbegin v hv)
  · intro h vs hperm
    have hvs : ∀ u ∈ vs, ∀ v ∈ vs, Comparable (keepFirst key (L u)) (keepFirst key (L v)) :=
      fun u hu v hv => h u (hperm.mem_iff.1 hu) v (hperm.mem_iff.1 hv)
    have hle {as bs : List β} (hab : as.Perm bs)
        (ha : ∀ u ∈ as, ∀ v ∈ as, Comparable (keepFirst key (L u)) (keepFirst key (L v)))
        (hb : ∀ u ∈ bs, ∀ v ∈ bs, Comparable (keepFirst key (L u)) (keepFirst key (L v))) :
        keepFirst key (as.flatMap L) <+: keepFirst key (bs.flatMap L) := by
      rcases (keepFirst_flatMap_of_comparable ha).2 with hnil | ⟨u, hu, heq⟩
      · rw [hnil]
        exact List.nil_prefix
      · rw [heq]
        exact (keepFirst_flatMap_of_comparable hb).1 u (hab.mem_iff.1 hu)
    have hlength := Nat.le_antisymm (hle hperm hvs h).length_le (hle hperm.symm h hvs).length_le
    exact (hle hperm hvs h).eq_of_length hlength

end KeepFirst

/-! ## Entries that are not told apart -/

section Classes

variable {cmp : α → α → Ordering} [Std.TransCmp cmp]

/-- A stable sort leaves the entries that are not told apart in their order. -/
theorem filter_sortBy (as : List α) (d : α) :
    (sortBy cmp as).filter (fun a => cmp a d = .eq) = as.filter fun a => cmp a d = .eq := by
  have hpairs : (as.filter fun a => cmp a d = .eq).Pairwise fun a b => (cmp a b).isLE = true := by
    refine List.pairwise_of_forall_mem_list fun a ha b hb => ?_
    have ha : cmp a d = .eq := by simpa using (List.mem_filter.1 ha).2
    have hb : cmp b d = .eq := by simpa using (List.mem_filter.1 hb).2
    rw [Std.TransCmp.congr_left ha, Std.OrientedCmp.eq_comm.1 hb]
    rfl
  have hsorted : (as.filter fun a => cmp a d = .eq).Sublist (sortBy cmp as) := by
    refine List.sublist_mergeSort (fun a b c => Std.TransCmp.isLE_trans) ?_ hpairs
      List.filter_sublist
    intro a b
    have hswap : cmp b a = (cmp a b).swap := Std.OrientedCmp.eq_swap
    rw [hswap]
    cases cmp a b <;> rfl
  have hsub := hsorted.filter fun a => decide (cmp a d = .eq)
  rw [List.filter_filter] at hsub
  simp only [Bool.and_self] at hsub
  exact (hsub.eq_of_length ((sortBy_perm cmp as).filter _).length_eq.symm).symm

/-- A sorted list is made up of what is less than `d`, what is not told apart from it, and what is
greater. -/
theorem eq_append_of_sorted {as : List α} (h : as.Pairwise fun a b => (cmp a b).isLE = true) (d : α) :
    as = as.filter (fun a => cmp a d = .lt) ++ (as.filter (fun a => cmp a d = .eq) ++
      as.filter fun a => cmp a d = .gt) := by
  induction as with
  | nil => rfl
  | cons a as ih =>
    rw [List.pairwise_cons] at h
    have hrest := ih h.2
    cases ha : cmp a d with
    | lt => simpa [List.filter_cons, ha] using hrest
    | eq =>
      have hless : as.filter (fun b => cmp b d = .lt) = [] := by
        rw [List.filter_eq_nil_iff]
        intro b hb hlt
        have hlt : cmp b d = .lt := by simpa using hlt
        have hle := h.1 b hb
        rw [Std.TransCmp.congr_left ha, Std.OrientedCmp.gt_of_lt hlt] at hle
        cases hle
      rw [hless, List.nil_append] at hrest
      simpa [List.filter_cons, ha, hless] using hrest
    | gt =>
      have hnone (o : Ordering) (ho : o.isLE = true) : as.filter (fun b => cmp b d = o) = [] := by
        rw [List.filter_eq_nil_iff]
        intro b hb hbd
        have hbd : (cmp b d).isLE = true := by
          rw [show cmp b d = o by simpa using hbd]
          exact ho
        have had := Std.TransCmp.isLE_trans (h.1 b hb) hbd
        rw [ha] at had
        cases had
      rw [hnone .lt rfl, hnone .eq rfl, List.nil_append, List.nil_append] at hrest
      simpa [List.filter_cons, ha, hnone .lt rfl, hnone .eq rfl] using hrest

/-- Sorted lists that have the same entries, in the same order where they are not told apart, are the
same. -/
theorem eq_of_filter_eq {as bs : List α} (has : as.Pairwise fun a b => (cmp a b).isLE = true)
    (hbs : bs.Pairwise fun a b => (cmp a b).isLE = true)
    (h : ∀ d, as.filter (fun a => cmp a d = .eq) = bs.filter fun a => cmp a d = .eq) : as = bs := by
  induction as generalizing bs with
  | nil =>
    cases bs with
    | nil => rfl
    | cons b bs =>
      have hb := h b
      rw [List.filter_cons_of_pos (by simp [Std.ReflCmp.compare_self])] at hb
      cases hb
  | cons a as ih =>
    have ha := h a
    rw [List.filter_cons_of_pos (by simp [Std.ReflCmp.compare_self])] at ha
    cases bs with
    | nil => cases ha
    | cons b bs =>
      rw [List.pairwise_cons] at has hbs
      -- the heads are both least, so they are not told apart, and so they are the same entry
      have hab : (cmp a b).isLE = true := by
        have hb := h b
        rw [List.filter_cons_of_pos (a := b) (by simp [Std.ReflCmp.compare_self])] at hb
        have hmem : b ∈ a :: as := (List.mem_filter.1 (hb ▸ List.mem_cons_self)).1
        rcases List.mem_cons.1 hmem with rfl | hmem
        · exact Std.ReflCmp.isLE_rfl
        · exact has.1 b hmem
      have hba : (cmp b a).isLE = true := by
        have hmem : a ∈ b :: bs := (List.mem_filter.1 (ha ▸ List.mem_cons_self)).1
        rcases List.mem_cons.1 hmem with rfl | hmem
        · exact Std.ReflCmp.isLE_rfl
        · exact hbs.1 a hmem
      have heq : cmp b a = .eq := Std.OrientedCmp.isLE_antisymm hba hab
      rw [List.filter_cons_of_pos (by simp [heq])] at ha
      obtain ⟨rfl, -⟩ := List.cons.inj ha
      refine congrArg _ (ih has.2 hbs.2 fun d => ?_)
      have hd := h d
      rw [List.filter_cons, List.filter_cons] at hd
      split at hd
      · exact (List.cons.inj hd).2
      · exact hd

variable [BEq κ] [LawfulBEq κ] {key : α → κ}

/-- The first entries of some lists, sorted together. -/
def merged {β : Type} (cmp : α → α → Ordering) (key : α → κ) (L : β → List α) (us : List β) : List α :=
  keepFirst key (sortBy cmp (us.flatMap L))

/-- Whether a lesser entry among `all` has the same key. -/
def isHidden (cmp : α → α → Ordering) (key : α → κ) (all : List α) (a : α) : Bool :=
  all.any fun b => key b == key a && cmp b a = .lt

/-- What there is among `as` at the place of `d` in the order: the first entries that are not told
apart from `d`, without those that are hidden among `all`. -/
def shownAt (cmp : α → α → Ordering) (key : α → κ) (all as : List α) (d : α) : List α :=
  keepFirst key (as.filter fun a => !isHidden cmp key all a && cmp a d = .eq)

/-- What is kept of a sorted list at a place in the order is what is shown there. -/
theorem filter_keepFirst_sortBy (as : List α) (d : α) :
    (keepFirst key (sortBy cmp as)).filter (fun a => cmp a d = .eq) = shownAt cmp key as as d := by
  have hsplit := eq_append_of_sorted (pairwise_sortBy cmp as) d
  rw [filter_sortBy] at hsplit
  generalize hless : (sortBy cmp as).filter (fun a => cmp a d = .lt) = less,
    hgreater : (sortBy cmp as).filter (fun a => cmp a d = .gt) = greater at hsplit
  have hnone {o : Ordering} (ho : o ≠ .eq) {bs : List α} (hbs : ∀ b ∈ bs, cmp b d = o) :
      bs.filter (fun a => cmp a d = .eq) = [] := by
    rw [List.filter_eq_nil_iff]
    intro b hb
    simp [hbs b hb, ho]
  have hlt : ∀ b ∈ keepFirst key less, cmp b d = .lt := by
    intro b hb
    rw [← hless] at hb
    simpa using (List.mem_filter.1 (mem_of_mem_keepFirst hb)).2
  have hgt : ∀ b ∈ keepFirst key greater, cmp b d = .gt := by
    intro b hb
    rw [← hgreater] at hb
    simpa using (List.mem_filter.1 (mem_of_mem_keepFirst hb)).2
  have heq : ∀ b ∈ keepFirst key (as.filter fun a => cmp a d = .eq), cmp b d = .eq := by
    intro b hb
    simpa using (List.mem_filter.1 (mem_of_mem_keepFirst hb)).2
  have hmiddle : (keepFirst key (as.filter fun a => cmp a d = .eq)).filter
      (fun a => cmp a d = .eq) = keepFirst key (as.filter fun a => cmp a d = .eq) := by
    rw [List.filter_eq_self]
    intro b hb
    simp [heq b hb]
  -- an entry at the place of `d` is hidden exactly if its key stands in the lesser part
  have hhidden : ∀ a ∈ as.filter (fun a => cmp a d = .eq),
      (!(less.map key).contains (key a)) = !isHidden cmp key as a := by
    intro a ha
    have had : cmp a d = .eq := by simpa using (List.mem_filter.1 ha).2
    have hcongr (b : α) : cmp b a = cmp b d := Std.TransCmp.congr_right had
    rw [← hless, Bool.not_inj_iff, Bool.eq_iff_iff, List.contains_iff_mem, isHidden, List.any_eq_true]
    simp only [List.mem_map, List.mem_filter, decide_eq_true_eq, Bool.and_eq_true, beq_iff_eq, hcongr,
      (sortBy_perm cmp as).mem_iff]
    exact ⟨fun ⟨b, hb, hkey⟩ => ⟨b, hb.1, hkey, hb.2⟩, fun ⟨b, hb, hkey, hlt⟩ => ⟨b, ⟨hb, hlt⟩, hkey⟩⟩
  rw [hsplit, keepFirst_append, keepFirst_append, List.filter_append, hnone (by decide) hlt,
    List.nil_append, List.filter_append, List.filter_append]
  have hrest : (((keepFirst key greater).filter fun b =>
      !((as.filter fun a => cmp a d = .eq).map key).contains (key b)).filter fun b =>
        !(less.map key).contains (key b)).filter (fun a => cmp a d = .eq) = [] :=
    hnone (by decide) fun b hb => hgt b (List.mem_filter.1 (List.mem_filter.1 hb).1).1
  rw [hrest, List.append_nil, List.filter_comm, hmiddle,
    ← keepFirst_filter fun k => !(less.map key).contains k, List.filter_congr hhidden,
    List.filter_filter]
  rfl

/-- Merged lists do not depend on the order of the lists exactly if at every place any two lists show
entries of which one list begins with the other. -/
theorem forall_perm_merged_iff {β : Type} (L : β → List α) (us : List β) :
    (∀ vs : List β, vs.Perm us → merged cmp key L vs = merged cmp key L us) ↔
      ∀ u ∈ us, ∀ v ∈ us, ∀ d, Comparable (shownAt cmp key (us.flatMap L) (L u) d)
        (shownAt cmp key (us.flatMap L) (L v) d) := by
  have hsorted (vs : List β) : (merged cmp key L vs).Pairwise fun a b => (cmp a b).isLE = true :=
    (pairwise_sortBy cmp (vs.flatMap L)).sublist (keepFirst_sublist _)
  have hfilter (vs : List β) (d : α) : (merged cmp key L vs).filter (fun a => cmp a d = .eq) =
      keepFirst key (vs.flatMap fun v => (L v).filter fun a =>
        !isHidden cmp key (vs.flatMap L) a && cmp a d = .eq) := by
    rw [merged, filter_keepFirst_sortBy, shownAt, List.filter_flatMap]
  -- which entries are hidden does not depend on the order
  have hhidden {vs : List β} (hperm : vs.Perm us) :
      isHidden cmp key (vs.flatMap L) = isHidden cmp key (us.flatMap L) := by
    funext a
    exact (hperm.flatMap_right L).any_eq
  constructor
  · intro hperm u hu v hv d
    refine (forall_perm_keepFirst_iff key (fun w => (L w).filter fun a =>
      !isHidden cmp key (us.flatMap L) a && cmp a d = .eq) us).1 (fun vs hvs => ?_) u hu v hv
    rw [← hfilter, ← hperm vs hvs, hfilter, hhidden hvs]
  · intro hcomparable vs hvs
    refine eq_of_filter_eq (hsorted vs) (hsorted us) fun d => ?_
    rw [hfilter, hfilter, hhidden hvs]
    exact (forall_perm_keepFirst_iff key _ us).2 (fun u hu v hv => hcomparable u hu v hv d) vs hvs

end Classes

end SketchSense
