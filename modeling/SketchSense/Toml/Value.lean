import SketchSense.Table

/-!
# Values of a document

* `Value` and `TableKind`;
* `update`, which follows a path of keys through the tables of a document, and the rules on where
  such a path may go.
-/

namespace SketchSense.Toml

/-- How a table came to be, which decides who may add to it. -/
inductive TableKind where
  /-- Written between braces, so it is complete. -/
  | braced
  /-- Made by a header of its own. -/
  | headed
  /-- Made by the header of a table further down. -/
  | implied
  /-- Made by a dotted key. -/
  | dotted
  deriving DecidableEq, Repr

/-- A value. Of floats, truth values and moments nothing is kept but what they are. -/
inductive Value where
  | text (s : String)
  | integer (n : Int)
  | float
  | truth
  | moment
  | array (items : List Value)
  | table (kind : TableKind) (entries : Table String Value)
  /-- Tables that share a header between double brackets. -/
  | tables (items : List (Table String Value))

/-- What a table holds. -/
abbrev Entries := Table String Value

/-! ## Paths through tables -/

/-- What a path of keys is written as. -/
inductive PathKind where
  /-- A key, in front of its value. -/
  | key
  /-- A header, in front of a table. -/
  | header
  deriving DecidableEq, Repr

namespace PathKind

/-- The kind of the tables that a path makes on its way. -/
def makes : PathKind → TableKind
  | key => .dotted
  | header => .implied

/-- Whether a path may go through a table. `last` says that the next key is the path's last one. A
key adds only to tables made by keys, but it may pass an implied table on its way to them. -/
def enters (path : PathKind) (last : Bool) : TableKind → Bool
  | .braced => false
  | .headed => path = .header
  | .implied => path = .header || !last
  | .dotted => true

/-- Whether a path may go through the last one of the tables that share a header. -/
def entersLast (path : PathKind) (last : Bool) : Bool := path = .header || !last

end PathKind

/-- Changes what stands at the end of a path, where `change` is given what stood there. -/
def Entries.update (path : PathKind) (change : Option Value → Option Value) :
    List String → Entries → Option Entries
  | [], _ => none
  | [k], t => do return t.insert k (← change (t.get? k))
  | k :: next :: keys, t =>
    let last := keys.isEmpty
    match t.get? k with
    | none => do
      return t.insert k (.table path.makes (← update path change (next :: keys) {}))
    | some (.table kind inner) =>
      if path.enters last kind then do
        return t.insert k (.table kind (← update path change (next :: keys) inner))
      else none
    | some (.tables items) =>
      match items.getLast? with
      | some inner =>
        if path.entersLast last then do
          let inner ← update path change (next :: keys) inner
          return t.insert k (.tables (items.dropLast ++ [inner]))
        else none
      | none => none
    | some _ => none

/-- Gives a key its value. A key is given a value once. -/
def Entries.assign (t : Entries) (key : List String) (v : Value) : Option Entries :=
  t.update .key (fun old => if old.isSome then none else some v) key

/-- Gives keys their values, one after the other. -/
def Entries.assignAll (t : Entries) (pairs : List (List String × Value)) : Option Entries :=
  pairs.foldlM (fun t (key, v) => t.assign key v) t

/-- The table under a header: new, or implied so far by headers of tables further down. -/
def Entries.openTable (t : Entries) (path : List String)
    (pairs : List (List String × Value)) : Option Entries :=
  t.update .header (fun
    | none => do return .table .headed (← Entries.assignAll {} pairs)
    | some (.table .implied inner) => do return .table .headed (← Entries.assignAll inner pairs)
    | some _ => none) path

/-- One more of the tables that share a header. -/
def Entries.addTable (t : Entries) (path : List String)
    (pairs : List (List String × Value)) : Option Entries :=
  t.update .header (fun
    | none => do return .tables [← Entries.assignAll {} pairs]
    | some (.tables items) => do return .tables (items ++ [← Entries.assignAll {} pairs])
    | some _ => none) path

/-- What is assigned is found there. -/
theorem Entries.get?_assign_singleton {t t' : Entries} {k : String} {v : Value}
    (h : t.assign [k] v = some t') : t.get? k = none ∧ t'.get? k = some v := by
  unfold assign update at h
  cases hk : t.get? k with
  | none =>
    simp only [hk, Option.isSome_none, Bool.false_eq_true, if_false, Option.pure_def,
      Option.bind_eq_bind, Option.bind_some, Option.some.injEq] at h
    subst h
    exact ⟨rfl, Table.get?_insert_self t k v⟩
  | some old => simp [hk] at h

end SketchSense.Toml
