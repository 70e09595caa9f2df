/-!
# Searching a text

* `after?`, what follows a mark at the start of a text;
* `cutFirst?`, a text cut at the first place where a mark stands;
* `contains`, `startsWith`, `endsWith` and `eraseFirst`, built on them.
-/

namespace SketchSense.Text

/-- What follows `mark`, if the text starts with it. -/
def after? : List Char → List Char → Option (List Char)
  | [], s => some s
  | _ :: _, [] => none
  | m :: mark, c :: s => if m = c then after? mark s else none

/-- A text starts with a mark exactly when it is the mark and then the rest. -/
theorem after?_eq_some_iff {mark s rest : List Char} :
    after? mark s = some rest ↔ s = mark ++ rest := by
  induction mark generalizing s with
  | nil => simp [after?, eq_comm]
  | cons m mark ih =>
    cases s with
    | nil => simp [after?]
    | cons c s =>
      unfold after?
      split
      · next h => subst h; simp [ih]
      · next h => simp [Ne.symm h]

/-- Cuts a text at the first place where `mark` stands: what is before it and what is after. -/
def cutFirst? (mark : List Char) : List Char → Option (List Char × List Char)
  | [] => if mark = [] then some ([], []) else none
  | c :: cs =>
    match after? mark (c :: cs) with
    | some rest => some ([], rest)
    | none => (cutFirst? mark cs).map fun (before, rest) => (c :: before, rest)

/-- The two parts and the mark between them make up the text. -/
theorem eq_of_cutFirst? {mark s before rest : List Char}
    (h : cutFirst? mark s = some (before, rest)) : s = before ++ mark ++ rest := by
  induction s generalizing before rest with
  | nil =>
    unfold cutFirst? at h
    split at h
    · next hm => simp_all
    · simp at h
  | cons c cs ih =>
    unfold cutFirst? at h
    split at h
    · next r hr =>
      simp only [Option.some.injEq, Prod.mk.injEq] at h
      obtain ⟨rfl, rfl⟩ := h
      simpa using after?_eq_some_iff.1 hr
    · obtain ⟨⟨b, r⟩, hb, hbr⟩ := Option.map_eq_some_iff.1 h
      simp only [Prod.mk.injEq] at hbr
      obtain ⟨rfl, rfl⟩ := hbr
      simp [ih hb]

def startsWith (mark s : List Char) : Bool := (after? mark s).isSome

def endsWith (mark s : List Char) : Bool := startsWith mark.reverse s.reverse

def contains (mark s : List Char) : Bool := (cutFirst? mark s).isSome

/-- Takes out the first occurrence of `mark`, if there is one. -/
def eraseFirst (mark s : List Char) : List Char :=
  match cutFirst? mark s with
  | some (before, rest) => before ++ rest
  | none => s

/-- Takes off one leading character `c`, if it is there. -/
def dropOne (c : Char) : List Char → List Char
  | [] => []
  | d :: ds => if d = c then ds else d :: ds

end SketchSense.Text
