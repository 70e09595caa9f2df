/-!
# Collation

Answers that are lists have a fixed order: they are sorted, stably, by a comparison, and of equal
entries the first one is kept.

* `lexCompare`, lists compared by their first difference;
* `sortBy`, the stable sort;
* `keepFirst`, the first entry of every key;
* `dropRepeats`, a sorted list without neighbours that are equal.
-/

namespace SketchSense

variable {α κ : Type}

/-- Order of lists by their first difference; a list comes before those that continue it. -/
def lexCompare (cmp : α → α → Ordering) : List α → List α → Ordering
  | [], [] => .eq
  | [], _ :: _ => .lt
  | _ :: _, [] => .gt
  | a :: as, b :: bs => (cmp a b).then (lexCompare cmp as bs)

/-- Sorts by a comparison; entries that compare equal keep their order. -/
def sortBy (cmp : α → α → Ordering) (as : List α) : List α :=
  as.mergeSort fun a b => (cmp a b).isLE

theorem sortBy_perm (cmp : α → α → Ordering) (as : List α) : (sortBy cmp as).Perm as :=
  List.mergeSort_perm as _

/-- The first entry of every key that is not in `seen`. -/
def keepFirstAfter [BEq κ] (key : α → κ) (seen : List κ) : List α → List α
  | [] => []
  | a :: as =>
    if seen.contains (key a) then keepFirstAfter key seen as
    else a :: keepFirstAfter key (key a :: seen) as

/-- The first entry of every key, in the order of the list. -/
def keepFirst [BEq κ] (key : α → κ) (as : List α) : List α := keepFirstAfter key [] as

/-- Of entries next to each other that are equal, the first one. -/
def dropRepeats [BEq α] : List α → List α
  | [] => []
  | [a] => [a]
  | a :: b :: rest =>
    match dropRepeats (b :: rest) with
    | [] => [a]
    | c :: kept => if a == c then a :: kept else a :: c :: kept

end SketchSense
