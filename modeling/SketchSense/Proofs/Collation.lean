import Mathlib.Data.List.Sort
import Mathlib.Order.Compare
import SketchSense.FilePath.Basic

/-!
# Orders and sorted answers

Paths compare by their steps, so that comparing them is a total order on normal paths. A list that
is sorted by a total order does not depend on the order it was in.

* `lexCompare_eq`, the order of lists by their first difference, with its laws;
* `Component.compare_eq` and the laws of `FilePath.compare`;
* `sortBy_map` and `sortBy_eq_of_perm`, sorting what was renamed and what was permuted;
* `isLE_of_find?_sortBy`, that the first entry of a kind is the least of it;
* `dropRepeats_sortBy_eq`, that only the members count for what is sorted and left without repeats;
* `keepFirst_map`, `mem_keepFirst_of_find?`, `find?_of_mem_keepFirst` and `pairwise_keepFirst`, that
  the first entry of every key is kept, with `keepFirst_eq_self` and `keepFirst_eq_eraseDupsBy`.
-/

namespace SketchSense

variable {α β : Type}

/-! ## Lists by their first difference -/

theorem lexCompare_eq (cmp : α → α → Ordering) : lexCompare cmp = List.compareLex cmp := by
  funext as bs
  induction as generalizing bs with
  | nil => cases bs <;> rfl
  | cons a as ih =>
    cases bs with
    | nil => rfl
    | cons b bs => rw [lexCompare, ih, List.compareLex_cons_cons]

section Laws

variable {cmp : α → α → Ordering}

instance [Std.TransCmp cmp] : Std.TransCmp (lexCompare cmp) :=
  lexCompare_eq cmp ▸ inferInstance

instance [Std.LawfulEqCmp cmp] : Std.LawfulEqCmp (lexCompare cmp) :=
  lexCompare_eq cmp ▸ inferInstance

end Laws

/-! ## Paths by their steps -/

/-- The name of a step that is one. -/
def Component.text : Component → String
  | name s => s
  | _ => ""

/-- Steps compare by kind, then by name. -/
theorem Component.compare_eq :
    Component.compare = compareLex (compareOn rank) (compareOn Component.text) := by
  funext a b
  cases a <;> cases b <;>
    simp [Component.compare, compareLex, compareOn, rank, Component.text] <;> rfl

instance : Std.TransCmp Component.compare :=
  Component.compare_eq ▸ inferInstance

instance : Std.LawfulEqCmp Component.compare where
  compare_self := Std.ReflCmp.compare_self
  eq_of_compare {a b} h := by
    rw [Component.compare_eq, compareLex_eq_eq] at h
    obtain ⟨hkind, hname⟩ := h
    have hrank : a.rank = b.rank := Std.LawfulEqCmp.eq_of_compare hkind
    have htext : a.text = b.text := Std.LawfulEqCmp.eq_of_compare hname
    cases a <;> cases b <;> first | rfl | exact congrArg Component.name htext | cases hrank

instance : Std.TransCmp FilePath.compare where
  eq_swap {p q} :=
    show lexCompare Component.compare p.components q.components =
        (lexCompare Component.compare q.components p.components).swap from
      Std.OrientedCmp.eq_swap
  isLE_trans {_ _ _} h h' :=
    @Std.TransCmp.isLE_trans _ (lexCompare Component.compare) _ _ _ _ h h'

/-! ## Sorting -/

/-- What was renamed is sorted as it was before, if it compares as before. -/
theorem sortBy_map {r : α → α → Ordering} {s : β → β → Ordering} (f : α → β) {as : List α}
    (h : ∀ a ∈ as, ∀ b ∈ as, s (f a) (f b) = r a b) : sortBy s (as.map f) = (sortBy r as).map f :=
  (List.map_mergeSort fun a ha b hb => by rw [h a ha b hb]).symm

/-- No entry of a sorted list comes behind one that is greater. -/
theorem pairwise_sortBy (cmp : α → α → Ordering) [Std.TransCmp cmp] (as : List α) :
    (sortBy cmp as).Pairwise fun a b => (cmp a b).isLE = true :=
  List.pairwise_mergeSort (fun _ _ _ => Std.TransCmp.isLE_trans)
    (fun a b => by
      have hswap : cmp b a = (cmp a b).swap := Std.OrientedCmp.eq_swap
      rw [hswap]
      cases cmp a b <;> rfl) as

/-- Sorted by a total order, a list does not depend on the order it was in. -/
theorem sortBy_eq_of_perm {cmp : α → α → Ordering} [Std.TransCmp cmp] {as bs : List α}
    (hperm : as.Perm bs) (heq : ∀ a ∈ as, ∀ b ∈ as, cmp a b = .eq → a = b) :
    sortBy cmp as = sortBy cmp bs := by
  have hperm' : (sortBy cmp as).Perm (sortBy cmp bs) :=
    (sortBy_perm cmp as).trans (hperm.trans (sortBy_perm cmp bs).symm)
  refine hperm'.eq_of_pairwise ?_ (pairwise_sortBy cmp as) (pairwise_sortBy cmp bs)
  intro a b ha hb hab hba
  refine heq a ((sortBy_perm cmp as).mem_iff.1 ha) b
    (hperm.mem_iff.2 ((sortBy_perm cmp bs).mem_iff.1 hb)) ?_
  exact Std.OrientedCmp.isLE_antisymm hab hba

/-- Lists that increase strictly are the same if they have the same entries. -/
theorem eq_of_pairwise_lt {cmp : α → α → Ordering} [Std.TransCmp cmp] {as bs : List α}
    (has : as.Pairwise fun a b => cmp a b = .lt) (hbs : bs.Pairwise fun a b => cmp a b = .lt)
    (h : ∀ a, a ∈ as ↔ a ∈ bs) : as = bs := by
  have hnodup {cs : List α} (hcs : cs.Pairwise fun a b => cmp a b = .lt) : cs.Nodup :=
    hcs.imp fun {a b} hlt hsame => by
      have hself : cmp b b = .eq := Std.ReflCmp.compare_self
      rw [hsame, hself] at hlt
      cases hlt
  have hperm := (List.perm_ext_iff_of_nodup (hnodup has) (hnodup hbs)).2 h
  refine hperm.eq_of_pairwise ?_ has hbs
  intro a b _ _ hab hba
  have hswap : cmp a b = (cmp b a).swap := Std.OrientedCmp.eq_swap
  rw [hab, hba] at hswap
  cases hswap

/-- In a sorted list the first entry of some kind is no greater than any other of that kind. -/
theorem isLE_of_find?_sortBy {cmp : α → α → Ordering} [Std.TransCmp cmp] {as : List α}
    {p : α → Bool} {a b : α} (ha : (sortBy cmp as).find? p = some a) (hb : b ∈ as)
    (hp : p b = true) : (cmp a b).isLE = true := by
  have hpairs := pairwise_sortBy cmp as
  have hb : b ∈ sortBy cmp as := (sortBy_perm cmp as).mem_iff.2 hb
  generalize sortBy cmp as = sorted at hpairs ha hb
  induction sorted with
  | nil => cases ha
  | cons c cs ih =>
    rw [List.pairwise_cons] at hpairs
    rw [List.find?_cons] at ha
    split at ha
    · obtain rfl := Option.some.inj ha
      rcases List.mem_cons.1 hb with rfl | hb
      · exact Std.ReflCmp.isLE_rfl
      · exact hpairs.1 b hb
    · next hc =>
      rcases List.mem_cons.1 hb with rfl | hb
      · rw [hp] at hc
        cases hc
      · exact ih hpairs.2 ha hb

/-! ## Repeats -/

/-- What is left without repeats was there before. -/
theorem mem_of_mem_dropRepeats [BEq α] {a : α} {as : List α} (h : a ∈ dropRepeats as) : a ∈ as := by
  induction as with
  | nil => exact h
  | cons b as ih =>
    cases as with
    | nil => exact h
    | cons c rest =>
      unfold dropRepeats at h
      split at h
      · rw [List.mem_singleton.1 h]
        exact List.mem_cons_self
      · next d kept hrest =>
        rw [hrest] at ih
        split at h
        · rcases List.mem_cons.1 h with rfl | h
          · exact List.mem_cons_self
          · exact List.mem_cons_of_mem _ (ih (List.mem_cons_of_mem _ h))
        · rcases List.mem_cons.1 h with rfl | h
          · exact List.mem_cons_self
          · exact List.mem_cons_of_mem _ (ih h)

/-- Whatever was there is left once, if entries that are equal are the same. -/
theorem mem_dropRepeats [BEq α] {a : α} {as : List α}
    (hlawful : ∀ a ∈ as, ∀ b ∈ as, (a == b) = true → a = b) (h : a ∈ as) : a ∈ dropRepeats as := by
  induction as with
  | nil => exact h
  | cons b as ih =>
    cases as with
    | nil => exact h
    | cons c rest =>
      have ih := ih fun x hx y hy => hlawful x (List.mem_cons_of_mem _ hx) y (List.mem_cons_of_mem _ hy)
      unfold dropRepeats
      split
      · next hnil =>
        rw [hnil] at ih
        rcases List.mem_cons.1 h with rfl | h
        · exact List.mem_cons_self
        · exact absurd (ih h) List.not_mem_nil
      · next d kept hkept =>
        rw [hkept] at ih
        split
        · next hbeq =>
          have hd : d ∈ c :: rest := mem_of_mem_dropRepeats (by rw [hkept]; exact List.mem_cons_self)
          obtain rfl := hlawful b List.mem_cons_self d (List.mem_cons_of_mem _ hd) hbeq
          rcases List.mem_cons.1 h with rfl | h
          · exact List.mem_cons_self
          · exact ih h
        · rcases List.mem_cons.1 h with rfl | h
          · exact List.mem_cons_self
          · exact List.mem_cons_of_mem _ (ih h)

/-- A sorted list without repeats increases strictly, if the order tells its entries apart. -/
theorem pairwise_dropRepeats [BEq α] [ReflBEq α] {cmp : α → α → Ordering} [Std.TransCmp cmp]
    {as : List α} (hsorted : as.Pairwise fun a b => (cmp a b).isLE = true)
    (heq : ∀ a ∈ as, ∀ b ∈ as, cmp a b = .eq → a = b) :
    (dropRepeats as).Pairwise fun a b => cmp a b = .lt := by
  induction as with
  | nil => exact .nil
  | cons a as ih =>
    cases as with
    | nil => exact List.pairwise_singleton _ a
    | cons b rest =>
      obtain ⟨hle, hrest⟩ := List.pairwise_cons.1 hsorted
      have ih := ih hrest fun x hx y hy =>
        heq x (List.mem_cons_of_mem _ hx) y (List.mem_cons_of_mem _ hy)
      unfold dropRepeats
      split
      · exact List.pairwise_singleton _ a
      · next c kept hkept =>
        have hmem {x : α} (hx : x ∈ c :: kept) : x ∈ b :: rest :=
          mem_of_mem_dropRepeats (by rw [hkept]; exact hx)
        rw [hkept] at ih
        split
        · -- the entry is equal to the one that is left out
          refine List.pairwise_cons.2 ⟨fun x hx => ?_, (List.pairwise_cons.1 ih).2⟩
          exact Std.TransCmp.lt_of_isLE_of_lt (hle c (hmem List.mem_cons_self))
            ((List.pairwise_cons.1 ih).1 x hx)
        · next hne =>
          refine List.pairwise_cons.2 ⟨fun x hx => ?_, ih⟩
          have hlt : cmp a c = .lt := by
            have hac := hle c (hmem List.mem_cons_self)
            cases hcmp : cmp a c with
            | lt => rfl
            | eq =>
              have hsame := heq a List.mem_cons_self c
                (List.mem_cons_of_mem _ (hmem List.mem_cons_self)) hcmp
              rw [hsame, BEq.rfl] at hne
              exact absurd rfl hne
            | gt =>
              rw [hcmp] at hac
              cases hac
          rcases List.mem_cons.1 hx with rfl | hx
          · exact hlt
          · exact Std.TransCmp.lt_trans hlt ((List.pairwise_cons.1 ih).1 x hx)

/-- What is sorted and left without repeats depends on nothing but what was there. -/
theorem dropRepeats_sortBy_eq [BEq α] [ReflBEq α] {cmp : α → α → Ordering} [Std.TransCmp cmp]
    {as bs : List α} (hlawful : ∀ a ∈ as, ∀ b ∈ as, (a == b) = true → a = b)
    (heq : ∀ a ∈ as, ∀ b ∈ as, cmp a b = .eq → a = b) (h : ∀ a, a ∈ as ↔ a ∈ bs) :
    dropRepeats (sortBy cmp as) = dropRepeats (sortBy cmp bs) := by
  have hmem (cs : List α) (hcs : ∀ a, a ∈ cs ↔ a ∈ as) :
      (∀ a, a ∈ dropRepeats (sortBy cmp cs) ↔ a ∈ as) ∧
        (dropRepeats (sortBy cmp cs)).Pairwise fun a b => cmp a b = .lt := by
    have hsorted {a : α} : a ∈ sortBy cmp cs ↔ a ∈ as := (sortBy_perm cmp cs).mem_iff.trans (hcs a)
    refine ⟨fun a => ⟨fun ha => hsorted.1 (mem_of_mem_dropRepeats ha), fun ha => ?_⟩, ?_⟩
    · exact mem_dropRepeats (fun x hx y hy => hlawful x (hsorted.1 hx) y (hsorted.1 hy))
        (hsorted.2 ha)
    · exact pairwise_dropRepeats (pairwise_sortBy cmp cs)
        fun x hx y hy => heq x (hsorted.1 hx) y (hsorted.1 hy)
  obtain ⟨has, hpairs⟩ := hmem as fun _ => .rfl
  obtain ⟨hbs, hpairs'⟩ := hmem bs fun a => (h a).symm
  exact eq_of_pairwise_lt hpairs hpairs' fun a => (has a).trans (hbs a).symm

/-! ## The first of each key -/

section KeepFirst

variable {κ : Type} [BEq κ] {key : α → κ} {seen : List κ} {as : List α} {a : α}

theorem mem_of_mem_keepFirstAfter (h : a ∈ keepFirstAfter key seen as) : a ∈ as := by
  induction as generalizing seen with
  | nil => simp [keepFirstAfter] at h
  | cons b as ih =>
    unfold keepFirstAfter at h
    split at h
    · exact List.mem_cons_of_mem _ (ih h)
    · rcases List.mem_cons.1 h with rfl | h
      · exact List.mem_cons_self
      · exact List.mem_cons_of_mem _ (ih h)

theorem mem_of_mem_keepFirst (h : a ∈ keepFirst key as) : a ∈ as := mem_of_mem_keepFirstAfter h

theorem keepFirstAfter_map (f : β → α) (seen : List κ) (bs : List β) :
    keepFirstAfter key seen (bs.map f) = (keepFirstAfter (key ∘ f) seen bs).map f := by
  induction bs generalizing seen with
  | nil => rfl
  | cons b bs ih =>
    rw [List.map_cons, keepFirstAfter, keepFirstAfter, ih, ih]
    split
    · next hseen => rw [if_pos (by exact hseen)]
    · next hseen => rw [if_neg (by exact hseen)]; rfl

/-- Of what was renamed the same entries are kept. -/
theorem keepFirst_map (f : β → α) (bs : List β) :
    keepFirst key (bs.map f) = (keepFirst (key ∘ f) bs).map f := keepFirstAfter_map f [] bs

/-- To keep the first entry of every key is to erase the entries that repeat the key of another. -/
theorem keepFirst_eq_eraseDupsBy (key : α → κ) (as : List α) :
    keepFirst key as = as.eraseDupsBy fun a b => key a == key b := by
  have hloop (kept : List α) : List.eraseDupsBy.loop (fun a b => key a == key b) as kept =
      kept.reverse ++ keepFirstAfter key (kept.map key) as := by
    induction as generalizing kept with
    | nil => simp [List.eraseDupsBy.loop, keepFirstAfter]
    | cons a as ih =>
      have hseen : (kept.any fun b => key a == key b) = (kept.map key).contains (key a) := by
        rw [List.contains_eq_any_beq, List.any_map]
        rfl
      unfold List.eraseDupsBy.loop keepFirstAfter
      rw [hseen]
      cases hcontains : (kept.map key).contains (key a) with
      | true => exact ih kept
      | false =>
        dsimp only
        rw [ih (a :: kept), List.reverse_cons, List.append_assoc, if_neg Bool.false_ne_true]
        rfl
  exact (hloop []).symm

variable [EquivBEq κ]

theorem mem_keepFirstAfter_of_find? {k : κ} (h : as.find? (key · == k) = some a)
    (hseen : ∀ j ∈ seen, (j == k) = false) : a ∈ keepFirstAfter key seen as := by
  induction as generalizing seen with
  | nil => cases h
  | cons b as ih =>
    unfold keepFirstAfter
    rw [List.find?_cons] at h
    split at h
    · next hb =>
      obtain rfl : b = a := Option.some.inj h
      -- an equal key that was seen would be equal to `k` as well
      have hnew : ¬ seen.contains (key b) = true := by
        rw [List.contains_iff_exists_mem_beq]
        rintro ⟨j, hj, hbeq⟩
        have hjk : (j == k) = true := BEq.trans (BEq.symm hbeq) hb
        rw [hseen j hj] at hjk
        cases hjk
      rw [if_neg hnew]
      exact List.mem_cons_self
    · next hb =>
      split
      · exact ih h hseen
      · refine List.mem_cons_of_mem _ (ih h fun j hj => ?_)
        rcases List.mem_cons.1 hj with rfl | hj
        · exact hb
        · exact hseen j hj

/-- The first entry of a key is kept. -/
theorem mem_keepFirst_of_find? {k : κ} (h : as.find? (key · == k) = some a) :
    a ∈ keepFirst key as :=
  mem_keepFirstAfter_of_find? h fun _ hj => absurd hj List.not_mem_nil

/-- Of every key an entry is kept. -/
theorem exists_mem_keepFirst (key : α → κ) (h : a ∈ as) :
    ∃ b ∈ keepFirst key as, (key b == key a) = true := by
  cases hfind : as.find? (key · == key a) with
  | none =>
    have hnone := List.find?_eq_none.1 hfind a h
    exact absurd BEq.rfl hnone
  | some b =>
    have hkey := List.find?_some hfind
    exact ⟨b, mem_keepFirst_of_find? hfind, hkey⟩

theorem pairwise_keepFirstAfter (key : α → κ) (seen : List κ) (as : List α) :
    (keepFirstAfter key seen as).Pairwise (fun a b => (key a == key b) = false) ∧
      ∀ a ∈ keepFirstAfter key seen as, ∀ j ∈ seen, (j == key a) = false := by
  induction as generalizing seen with
  | nil => exact ⟨.nil, by simp [keepFirstAfter]⟩
  | cons b as ih =>
    unfold keepFirstAfter
    split
    · exact ih seen
    · next hnew =>
      obtain ⟨hpairs, hseen⟩ := ih (key b :: seen)
      refine ⟨.cons (fun a ha => hseen a ha _ List.mem_cons_self) hpairs, ?_⟩
      intro a ha j hj
      rcases List.mem_cons.1 ha with rfl | ha
      · rw [Bool.eq_false_iff]
        intro hbeq
        exact hnew (List.contains_iff_exists_mem_beq.2 ⟨j, hj, BEq.symm hbeq⟩)
      · exact hseen a ha j (List.mem_cons_of_mem _ hj)

/-- No two entries that are kept have one key. -/
theorem pairwise_keepFirst (key : α → κ) (as : List α) :
    (keepFirst key as).Pairwise fun a b => (key a == key b) = false :=
  (pairwise_keepFirstAfter key [] as).1

theorem keepFirstAfter_eq_self (h : as.Pairwise fun a b => (key a == key b) = false)
    (hseen : ∀ a ∈ as, ∀ j ∈ seen, (j == key a) = false) : keepFirstAfter key seen as = as := by
  induction as generalizing seen with
  | nil => rfl
  | cons b as ih =>
    rw [List.pairwise_cons] at h
    have hnew : ¬ seen.contains (key b) = true := by
      rw [List.contains_iff_exists_mem_beq]
      rintro ⟨j, hj, hbeq⟩
      have hne := hseen b List.mem_cons_self j hj
      rw [BEq.symm hbeq] at hne
      cases hne
    unfold keepFirstAfter
    rw [if_neg hnew, ih h.2 fun a ha j hj => ?_]
    rcases List.mem_cons.1 hj with rfl | hj
    · exact h.1 a ha
    · exact hseen a (List.mem_cons_of_mem _ ha) j hj

/-- Entries of which no two have one key are all kept. -/
theorem keepFirst_eq_self (h : as.Pairwise fun a b => (key a == key b) = false) :
    keepFirst key as = as :=
  keepFirstAfter_eq_self h fun _ _ _ hj => absurd hj List.not_mem_nil

/-- What is kept is the first entry of its key. -/
theorem find?_of_mem_keepFirstAfter (h : a ∈ keepFirstAfter key seen as)
    (hseen : ∀ j ∈ seen, (j == key a) = false) : as.find? (key · == key a) = some a := by
  induction as generalizing seen with
  | nil => cases h
  | cons b as ih =>
    unfold keepFirstAfter at h
    rw [List.find?_cons]
    split at h
    · next hb =>
      -- the key of `b` was seen, so it is not that of `a`
      have hne : (key b == key a) = false := by
        obtain ⟨j, hj, hbeq⟩ := List.contains_iff_exists_mem_beq.1 hb
        rw [BEq.congr_left hbeq]
        exact hseen j hj
      rw [hne]
      exact ih h hseen
    · cases hbeq : key b == key a with
      | true =>
        rcases List.mem_cons.1 h with rfl | h
        · rfl
        · have hlater := (pairwise_keepFirstAfter key (key b :: seen) as).2 a h _ List.mem_cons_self
          rw [hbeq] at hlater
          cases hlater
      | false =>
        rcases List.mem_cons.1 h with rfl | h
        · rw [BEq.rfl] at hbeq
          cases hbeq
        · refine ih h fun j hj => ?_
          rcases List.mem_cons.1 hj with rfl | hj
          · exact hbeq
          · exact hseen j hj

theorem find?_of_mem_keepFirst (h : a ∈ keepFirst key as) : as.find? (key · == key a) = some a :=
  find?_of_mem_keepFirstAfter h fun _ hj => absurd hj List.not_mem_nil

end KeepFirst

end SketchSense
