/-!
# Tables

A table holds one value for each of its keys. Keys that are equal (`==`) are the same key, whatever
their spelling; the first spelling stays.

Nothing fixes the order in which a table lists its entries, and it may be another one each time. That
the entries stand in the order in which their keys came is a choice made here. What is looked up,
counted, changed or given up does not depend on it. The values are listed in one place only, for the
report of a project, which therefore takes an `Enumeration`.

* `Table`, with `get?`, `insert`, `erase`, `keys` and `values`;
* `Enumeration` and `Table.valuesIn`, the values in any order;
* one lemma for what each change does to `get?` and to the entries.
-/

namespace SketchSense

/-- One value for each key. The order, in which the keys came, is not part of what is kept. -/
structure Table (κ α : Type) where
  entries : List (κ × α) := []
  deriving Repr

namespace Table

variable {κ α : Type} [BEq κ]

def empty : Table κ α := {}

def size (t : Table κ α) : Nat := t.entries.length

def isEmpty (t : Table κ α) : Bool := t.entries.isEmpty

def keys (t : Table κ α) : List κ := t.entries.map (·.1)

def values (t : Table κ α) : List α := t.entries.map (·.2)

end Table

/-- An order in which values may be listed. -/
structure Enumeration (α : Type) where
  order : List α → List α
  perm : ∀ as, (order as).Perm as

namespace Enumeration

variable {α : Type}

/-- The order in which the keys came. -/
def kept : Enumeration α := ⟨id, .refl⟩

/-- The reverse of that order. -/
def reversed : Enumeration α := ⟨List.reverse, List.reverse_perm⟩

end Enumeration

namespace Table

variable {κ α : Type}

def valuesIn (e : Enumeration α) (t : Table κ α) : List α := e.order t.values

theorem valuesIn_perm (e : Enumeration α) (t : Table κ α) : (t.valuesIn e).Perm t.values :=
  e.perm t.values

@[simp] theorem valuesIn_kept (t : Table κ α) : t.valuesIn .kept = t.values := rfl

variable [BEq κ]

/-- The value of the first entry for `k`. -/
def find? (k : κ) : List (κ × α) → Option α
  | [] => none
  | (k', a) :: rest => if k' == k then some a else find? k rest

def get? (t : Table κ α) (k : κ) : Option α := find? k t.entries

/-- Replaces the value of `k`, or adds an entry at the end. -/
def put (k : κ) (a : α) : List (κ × α) → List (κ × α)
  | [] => [(k, a)]
  | (k', b) :: rest => if k' == k then (k', a) :: rest else (k', b) :: put k a rest

def insert (t : Table κ α) (k : κ) (a : α) : Table κ α := ⟨put k a t.entries⟩

def erase (t : Table κ α) (k : κ) : Table κ α := ⟨t.entries.filter fun e => !(e.1 == k)⟩

def contains (t : Table κ α) (k : κ) : Bool := (t.get? k).isSome

/-- Keeps the entries whose key satisfies `p`. -/
def restrict (t : Table κ α) (p : κ → Bool) : Table κ α := ⟨t.entries.filter fun e => p e.1⟩

theorem find?_put_self [ReflBEq κ] (k : κ) (a : α) (es : List (κ × α)) :
    find? k (put k a es) = some a := by
  induction es with
  | nil => simp [put, find?]
  | cons e es ih =>
    unfold put
    split
    · next h => simp [find?, h]
    · next h => simpa [find?, h] using ih

theorem find?_put_of_ne [EquivBEq κ] {k k' : κ} (h : (k == k') = false) (a : α)
    (es : List (κ × α)) : find? k' (put k a es) = find? k' es := by
  induction es with
  | nil => simp [put, find?, h]
  | cons e es ih =>
    unfold put
    split
    · next he =>
      have : (e.1 == k') = false := by rw [← h]; exact BEq.congr_left he
      simp [find?, this]
    · simp [find?, ih]

@[simp] theorem get?_insert_self [ReflBEq κ] (t : Table κ α) (k : κ) (a : α) :
    (t.insert k a).get? k = some a := find?_put_self k a t.entries

theorem get?_insert_of_ne [EquivBEq κ] (t : Table κ α) {k k' : κ} (h : (k == k') = false) (a : α) :
    (t.insert k a).get? k' = t.get? k' := find?_put_of_ne h a t.entries

@[simp] theorem get?_empty (k : κ) : (empty : Table κ α).get? k = none := rfl

theorem find?_erased_self (k : κ) (es : List (κ × α)) :
    find? k (es.filter fun e => !(e.1 == k)) = none := by
  induction es with
  | nil => rfl
  | cons e es ih =>
    cases he : (e.1 == k) with
    | true => simpa [List.filter_cons, he] using ih
    | false => simpa [List.filter_cons, find?, he] using ih

theorem find?_erased_of_ne [EquivBEq κ] {k k' : κ} (h : (k == k') = false) (es : List (κ × α)) :
    find? k' (es.filter fun e => !(e.1 == k)) = find? k' es := by
  induction es with
  | nil => rfl
  | cons e es ih =>
    cases he : (e.1 == k) with
    | true =>
      have hne : (e.1 == k') = false := by rw [← h]; exact BEq.congr_left he
      simpa [List.filter_cons, find?, he, hne] using ih
    | false => simp [find?, he, ih]

@[simp] theorem get?_erase_self (t : Table κ α) (k : κ) : (t.erase k).get? k = none :=
  find?_erased_self k t.entries

theorem get?_erase_of_ne [EquivBEq κ] (t : Table κ α) {k k' : κ} (h : (k == k') = false) :
    (t.erase k).get? k' = t.get? k' := find?_erased_of_ne h t.entries

/-- A value that is found stands under a key that is equal to the one asked for. -/
theorem exists_mem_of_find?_eq_some {k : κ} {a : α} {es : List (κ × α)}
    (h : find? k es = some a) : ∃ k', (k', a) ∈ es ∧ (k' == k) = true := by
  induction es with
  | nil => simp [find?] at h
  | cons e es ih =>
    unfold find? at h
    split at h
    · next he =>
      simp only [Option.some.injEq] at h
      subst h
      exact ⟨_, List.mem_cons_self, he⟩
    · obtain ⟨k', hmem, hk⟩ := ih h
      exact ⟨k', List.mem_cons_of_mem _ hmem, hk⟩

/-- An entry after a change was there before, or it has the new value under the new key or under an
equal one that was there before. -/
theorem mem_put {k : κ} {a : α} {e : κ × α} {es : List (κ × α)} (h : e ∈ put k a es) :
    e ∈ es ∨ e = (k, a) ∨ (e.2 = a ∧ (e.1 == k) = true ∧ ∃ b, (e.1, b) ∈ es) := by
  induction es with
  | nil => exact .inr (.inl (List.mem_singleton.1 h))
  | cons f es ih =>
    unfold put at h
    split at h
    · next hf =>
      rcases List.mem_cons.1 h with rfl | h
      · exact .inr (.inr ⟨rfl, hf, _, List.mem_cons_self⟩)
      · exact .inl (List.mem_cons_of_mem _ h)
    · rcases List.mem_cons.1 h with rfl | h
      · exact .inl List.mem_cons_self
      · rcases ih h with h | h | ⟨h₁, h₂, b, h₃⟩
        · exact .inl (List.mem_cons_of_mem _ h)
        · exact .inr (.inl h)
        · exact .inr (.inr ⟨h₁, h₂, b, List.mem_cons_of_mem _ h₃⟩)

theorem mem_of_mem_erase {t : Table κ α} {k : κ} {e : κ × α} (h : e ∈ (t.erase k).entries) :
    e ∈ t.entries := (List.mem_filter.1 h).1

end Table

end SketchSense
