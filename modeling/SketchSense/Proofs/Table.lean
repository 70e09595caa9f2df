import SketchSense.Table

/-!
# Tables with one entry for each key

A table that is only filled by `insert` has one entry for each key, so its entries can be looked up.

* `Table.Distinct`, that no two entries have equal keys, which `insert` and `restrict` keep;
* `Table.Distinct.get?_of_mem`, that every entry is found, `Table.get?_restrict` and
  `Table.get?_eq_of_beq`.
-/

namespace SketchSense.Table

variable {κ α : Type} [BEq κ]

/-- No two entries have equal keys. -/
def Distinct (t : Table κ α) : Prop := t.keys.Pairwise fun j k => (j == k) = false

/-- Keys of which no two are equal are no repeats. -/
theorem nodup_of_pairwise [ReflBEq κ] {ks : List κ}
    (h : ks.Pairwise fun j k => (j == k) = false) : ks.Nodup :=
  h.imp fun {j k} hjk heq => by
    rw [heq, BEq.rfl] at hjk
    cases hjk

theorem distinct_empty : (empty : Table κ α).Distinct := .nil

/-- Putting a value keeps the keys, or adds its key behind keys that are not equal to it. -/
theorem keys_put [EquivBEq κ] (k : κ) (a : α) (es : List (κ × α)) :
    (put k a es).map (·.1) = es.map (·.1) ∨
      (put k a es).map (·.1) = es.map (·.1) ++ [k] ∧ ∀ j ∈ es.map (·.1), (j == k) = false := by
  induction es with
  | nil => exact .inr ⟨rfl, by simp⟩
  | cons e es ih =>
    unfold put
    split
    · exact .inl rfl
    · next he =>
      rw [Bool.not_eq_true] at he
      rcases ih with hkeys | ⟨hkeys, hnew⟩
      · exact .inl (by rw [List.map_cons, List.map_cons, hkeys])
      · refine .inr ⟨by rw [List.map_cons, List.map_cons, hkeys, List.cons_append], ?_⟩
        intro j hj
        rcases List.mem_cons.1 hj with rfl | hj
        · exact he
        · exact hnew j hj

variable {t : Table κ α}

theorem Distinct.insert [EquivBEq κ] (h : t.Distinct) (k : κ) (a : α) :
    (t.insert k a).Distinct := by
  unfold Distinct keys Table.insert at *
  rcases keys_put k a t.entries with hkeys | ⟨hkeys, hnew⟩
  · rw [hkeys]
    exact h
  · rw [hkeys, List.pairwise_append]
    refine ⟨h, .cons (by simp) .nil, fun j hj k' hk' => ?_⟩
    rw [List.mem_singleton.1 hk']
    exact hnew j hj

theorem Distinct.restrict (h : t.Distinct) (p : κ → Bool) : (t.restrict p).Distinct :=
  h.sublist (List.filter_sublist.map _)

/-- Every entry is found under its key. -/
theorem Distinct.get?_of_mem [EquivBEq κ] (h : t.Distinct) {k : κ} {a : α}
    (hmem : (k, a) ∈ t.entries) : t.get? k = some a := by
  obtain ⟨entries⟩ := t
  unfold Distinct keys at h
  show find? k entries = some a
  dsimp only at h hmem
  induction entries with
  | nil => cases hmem
  | cons e es ih =>
    rw [List.map_cons, List.pairwise_cons] at h
    unfold find?
    rcases List.mem_cons.1 hmem with rfl | hmem
    · rw [if_pos BEq.rfl]
    · rw [if_neg (by rw [h.1 k (List.mem_map_of_mem hmem)]; exact Bool.false_ne_true)]
      exact ih h.2 hmem

/-- The values are what is found under the keys. -/
theorem Distinct.map_get?_keys [EquivBEq κ] (h : t.Distinct) :
    t.keys.map t.get? = t.values.map some := by
  unfold keys values
  rw [List.map_map, List.map_map]
  exact List.map_congr_left fun e he => h.get?_of_mem he

/-- What is found under a key that is kept is found as before. -/
theorem get?_restrict {p : κ → Bool} {k : κ} (hp : ∀ j, (j == k) = true → p j = true) :
    (t.restrict p).get? k = t.get? k := by
  show find? k (t.entries.filter fun e => p e.1) = find? k t.entries
  induction t.entries with
  | nil => rfl
  | cons e es ih =>
    rw [List.filter_cons]
    by_cases hk : (e.1 == k) = true
    · rw [if_pos (hp _ hk), find?, find?, if_pos hk, if_pos hk]
    · rw [find?, if_neg hk]
      split
      · rw [find?, if_neg hk, ih]
      · exact ih

/-- Equal keys find the same. -/
theorem get?_eq_of_beq [EquivBEq κ] (t : Table κ α) {j k : κ} (h : (j == k) = true) :
    t.get? j = t.get? k := by
  show find? j t.entries = find? k t.entries
  induction t.entries with
  | nil => rfl
  | cons e es ih =>
    unfold find?
    rw [BEq.congr_right h, ih]

end SketchSense.Table
