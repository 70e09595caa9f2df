import Mathlib.Data.List.Lex
import Mathlib.Data.String.Basic
import SketchSense.Proofs.Collation
import SketchSense.Proofs.FilePath.Spelling

/-!
# The order of octets

UTF-8 keeps the order of characters: the first octet grows with the character, and where it is the same
the others are digits of one more number. So paths that are texts are in the order of their octets
exactly if they are in the order of their texts.

* `Precedes`, octets that are less where they first differ, with `precedes_utf8EncodeChar`;
* `respell_lt_respell`, that respelled texts are in the order of the texts;
* `compare_ofText`, the order of paths that are texts.
-/

namespace SketchSense.OctetPath

open FilePath

/-! ## Characters -/

/-- The octets differ, and where they first do those on the left are less. -/
inductive Precedes : List UInt8 → List UInt8 → Prop
  | here {b c : UInt8} (bs cs : List UInt8) (h : b < c) : Precedes (b :: bs) (c :: cs)
  | behind (b : UInt8) {bs cs : List UInt8} (h : Precedes bs cs) : Precedes (b :: bs) (b :: cs)

theorem Precedes.append {bs cs : List UInt8} (h : Precedes bs cs) (more others : List UInt8) :
    Precedes (bs ++ more) (cs ++ others) := by
  induction h with
  | here bs cs h => exact .here _ _ h
  | behind b _ ih => exact .behind b ih

theorem Precedes.append_left {bs cs : List UInt8} (h : Precedes bs cs) (front : List UInt8) :
    Precedes (front ++ bs) (front ++ cs) := by
  induction front with
  | nil => exact h
  | cons b front ih => exact .behind b ih

theorem ofNat_lt_ofNat {m n : Nat} (h : m < n) (hn : n < 256) : UInt8.ofNat m < UInt8.ofNat n := by
  rw [UInt8.lt_iff_toNat_lt, UInt8.toNat_ofNat', UInt8.toNat_ofNat', Nat.mod_eq_of_lt hn,
    Nat.mod_eq_of_lt (Nat.lt_trans h hn)]
  exact h

/-- The last `k` digits of a number to the base 64, an octet for each. -/
def trail : Nat → Nat → List UInt8
  | 0, _ => []
  | k + 1, n => trail k (n / 64) ++ [UInt8.ofNat (n % 64 + 0x80)]

/-- Numbers that only differ in their last digits are in the order of these. -/
theorem precedes_trail {k m n : Nat} (h : m < n) (hsame : m / 64 ^ k = n / 64 ^ k) :
    Precedes (trail k m) (trail k n) := by
  induction k generalizing m n with
  | zero =>
    rw [Nat.pow_zero, Nat.div_one, Nat.div_one] at hsame
    omega
  | succ k ih =>
    rw [Nat.pow_succ', ← Nat.div_div_eq_div_mul, ← Nat.div_div_eq_div_mul] at hsame
    unfold trail
    rcases Nat.lt_or_ge (m / 64) (n / 64) with hless | hge
    · exact (ih hless hsame).append _ _
    · have hquotient : m / 64 = n / 64 := Nat.le_antisymm (Nat.div_le_div_right h.le) hge
      rw [hquotient]
      exact Precedes.append_left (.here [] [] (ofNat_lt_ofNat (by omega) (by omega))) _

/-- How many octets follow the first one of a character. -/
def following (n : Nat) : Nat :=
  if n ≤ 0x7f then 0 else if n ≤ 0x7ff then 1 else if n ≤ 0xffff then 2 else 3

/-- The first octet of a character. -/
def leading (n : Nat) : Nat :=
  if n ≤ 0x7f then n else if n ≤ 0x7ff then n / 64 + 0xc0
  else if n ≤ 0xffff then n / 4096 + 0xe0 else n / 262144 + 0xf0

theorem toNat_lt_of_char (c : Char) : c.toNat < 0x110000 := by
  rcases c.valid with h | h
  · exact Nat.lt_trans h (by decide)
  · exact h.2

/-- The octets of a character are the first one and the digits behind it. -/
theorem utf8EncodeChar_eq (c : Char) :
    String.utf8EncodeChar c = UInt8.ofNat (leading c.toNat) :: trail (following c.toNat) c.toNat := by
  have hlt := toNat_lt_of_char c
  unfold String.utf8EncodeChar leading following
  change c.val.toNat < _ at hlt
  dsimp only [Char.toNat]
  by_cases hone : c.val.toNat ≤ 0x7f
  · simp only [if_pos hone, trail]
  · by_cases htwo : c.val.toNat ≤ 0x7ff
    · have hfirst : c.val.toNat / 64 % 32 = c.val.toNat / 64 := Nat.mod_eq_of_lt (by omega)
      simp only [if_neg hone, if_pos htwo, hfirst, trail, List.nil_append]
    · by_cases hthree : c.val.toNat ≤ 0xffff
      · have hfirst : c.val.toNat / 4096 % 16 = c.val.toNat / 4096 := Nat.mod_eq_of_lt (by omega)
        simp only [if_neg hone, if_neg htwo, if_pos hthree, hfirst, trail, List.nil_append,
          List.cons_append]
      · have hfirst : c.val.toNat / 262144 % 8 = c.val.toNat / 262144 := Nat.mod_eq_of_lt (by omega)
        simp only [if_neg hone, if_neg htwo, if_neg hthree, hfirst, trail, List.nil_append,
          List.cons_append, Nat.div_div_eq_div_mul, Nat.reduceMul]

/-- The four lengths of a sequence, with the characters that have them. -/
theorem length_cases (n : Nat) :
    (n < 0x80 ∧ following n = 0 ∧ leading n = n) ∨
      (0x80 ≤ n ∧ n < 0x800 ∧ following n = 1 ∧ leading n = n / 64 + 0xc0) ∨
      (0x800 ≤ n ∧ n < 0x10000 ∧ following n = 2 ∧ leading n = n / 4096 + 0xe0) ∨
      (0x10000 ≤ n ∧ following n = 3 ∧ leading n = n / 262144 + 0xf0) := by
  unfold following leading
  split
  · omega
  · split
    · omega
    · split <;> omega

/-- The first octet grows, and where it does not the digits that follow do. -/
theorem leading_lt_or {m n : Nat} (h : m < n) :
    leading m < leading n ∨ (leading m = leading n ∧ following m = following n ∧
      m / 64 ^ following m = n / 64 ^ following m) := by
  rcases length_cases m with ⟨_, hm, hm'⟩ | ⟨_, _, hm, hm'⟩ | ⟨_, _, hm, hm'⟩ | ⟨_, hm, hm'⟩ <;>
    rcases length_cases n with ⟨_, hn, hn'⟩ | ⟨_, _, hn, hn'⟩ | ⟨_, _, hn, hn'⟩ | ⟨_, hn, hn'⟩ <;>
    rw [hm, hn, hm', hn'] <;> omega

/-- The octets of a character precede those of a later one. -/
theorem precedes_utf8EncodeChar {c d : Char} (h : c < d) :
    Precedes (String.utf8EncodeChar c) (String.utf8EncodeChar d) := by
  have hlt : c.toNat < d.toNat := h
  have hmax := toNat_lt_of_char d
  rw [utf8EncodeChar_eq, utf8EncodeChar_eq]
  rcases leading_lt_or hlt with hless | ⟨hfirst, hlength, hsame⟩
  · refine .here _ _ (ofNat_lt_ofNat hless ?_)
    rcases length_cases d.toNat with h | h | h | h <;> omega
  · rw [hfirst, ← hlength]
    exact .behind _ (precedes_trail hlt hsame)

/-! ## Texts -/

theorem lt_of_precedes {bs cs : List UInt8} (h : Precedes bs cs) (s t : List Char) :
    bs.map Char.ofUInt8 ++ s < cs.map Char.ofUInt8 ++ t := by
  induction h with
  | here bs cs h => exact List.Lex.rel h
  | behind b _ ih => exact List.Lex.cons ih

/-- Respelled texts are in the order of the texts. -/
theorem respell_lt_respell {s t : List Char} (h : s < t) : respell s < respell t := by
  induction h with
  | @nil c t =>
    cases hoctets : respell (c :: t) with
    | nil => exact absurd ((respell_eq_iff (by decide)).1 hoctets) (List.cons_ne_nil c t)
    | cons d ds => exact List.Lex.nil
  | @rel c s d t h =>
    rw [respell_cons c, respell_cons d]
    unfold respell
    rw [List.flatMap_singleton, List.flatMap_singleton]
    exact lt_of_precedes (precedes_utf8EncodeChar h) _ _
  | @cons c s t _ ih =>
    rw [respell_cons c s, respell_cons c t]
    exact List.Lex.append_left _ ih _

theorem compare_respellName (s t : String) :
    Ord.compare (respellName s) (respellName t) = Ord.compare s t := by
  have hless {s t : String} (h : s < t) : respellName s < respellName t := by
    rw [String.lt_iff_toList_lt, toList_respellName, toList_respellName]
    exact respell_lt_respell (String.lt_iff_toList_lt.1 h)
  rcases lt_trichotomy s t with h | rfl | h
  · rw [compare_lt_iff_lt.2 h, compare_lt_iff_lt.2 (hless h)]
  · rw [compare_eq_iff_eq.2 rfl, compare_eq_iff_eq.2 rfl]
  · rw [compare_gt_iff_gt.2 h, compare_gt_iff_gt.2 (hless h)]

/-! ## Paths -/

theorem compare_respellStep (a b : Component) :
    Component.compare (respellStep a) (respellStep b) = Component.compare a b := by
  cases a <;> cases b
  case name.name s t => exact compare_respellName s t
  all_goals rfl

theorem lexCompare_map {α β : Type} {cmp : β → β → Ordering} {cmp' : α → α → Ordering} (f : α → β)
    (h : ∀ a b, cmp (f a) (f b) = cmp' a b) (as bs : List α) :
    lexCompare cmp (as.map f) (bs.map f) = lexCompare cmp' as bs := by
  induction as generalizing bs with
  | nil => cases bs <;> rfl
  | cons a as ih =>
    cases bs with
    | nil => rfl
    | cons b bs => rw [List.map_cons, List.map_cons, lexCompare, lexCompare, h, ih]

/-- Paths that are texts are in the order of the texts. -/
theorem compare_ofText (p q : FilePath) : (ofText p).compare (ofText q) = p.compare q := by
  unfold compare FilePath.compare
  rw [components_spelled_ofText, components_spelled_ofText]
  exact lexCompare_map respellStep compare_respellStep _ _

end SketchSense.OctetPath
