import Mathlib.Algebra.Ring.Nat
import Mathlib.Data.List.Basic
import SketchSense.Hash.Content

/-!
# Reading the fields of a composite key

The bytes of a composite key are fields one after the other. A text without a zero character ends
at the first zero byte and a word has eight bytes, so both are read back off the front.

* `append_cons_inj`, what is read up to a separator;
* `textBytes_injective` and `zero_not_mem_textBytes`, the bytes of a text;
* `wordField_injective`, the bytes of a word;
* `textField_append_inj`, `numberField_append_inj` and `hashField_append_inj`, a field at the front of
  a sequence, with `eq_of_namedHashes_eq`, fields of names and hashes in turn;
* `CollisionFree`, that no two of some inputs have one hash.
-/

namespace SketchSense

/-- What stands in front of the first `a` is told apart from what follows it. -/
theorem append_cons_inj {α : Type} {a : α} {s t u v : List α} (hs : a ∉ s) (ht : a ∉ t)
    (h : s ++ a :: u = t ++ a :: v) : s = t ∧ u = v := by
  induction s generalizing t with
  | nil =>
    cases t with
    | nil => exact ⟨rfl, (List.cons.inj h).2⟩
    | cons b t => exact absurd ((List.cons.inj h).1 ▸ List.mem_cons_self) ht
  | cons c s ih =>
    cases t with
    | nil => exact absurd ((List.cons.inj h).1 ▸ List.mem_cons_self) hs
    | cons b t =>
      obtain ⟨rfl, htail⟩ := List.cons.inj h
      obtain ⟨rfl, hrest⟩ := ih (List.not_mem_of_not_mem_cons hs) (List.not_mem_of_not_mem_cons ht)
        htail
      exact ⟨rfl, hrest⟩

namespace ContentHash

/-! ## Texts -/

theorem textBytes_injective : Function.Injective textBytes := by
  intro s t h
  refine String.toByteArray_inj.1 (ByteArray.ext ?_)
  exact Array.ext' h

/-- The bytes of a text are those of its characters. -/
theorem textBytes_eq (s : String) : textBytes s = s.toList.flatMap String.utf8EncodeChar := by
  have hbytes : s.toUTF8 = s.toList.utf8Encode := by
    rw [← String.toByteArray_ofList, String.ofList_toList]
    rfl
  unfold textBytes
  rw [hbytes, List.utf8Encode]
  simp

/-- Only the zero character is written with a zero byte. -/
theorem zero_not_mem_utf8EncodeChar {c : Char} (hc : c ≠ '\x00') :
    (0 : UInt8) ∉ String.utf8EncodeChar c := by
  have hpos : 0 < c.val.toNat := by
    rw [Nat.pos_iff_ne_zero]
    intro hzero
    exact hc (Char.ext (UInt32.toNat_inj.1 hzero))
  have hne (n : Nat) (hn : n % 256 ≠ 0) : (0 : UInt8) ≠ UInt8.ofNat n := by
    intro h
    have hnat := congrArg UInt8.toNat h
    rw [UInt8.toNat_ofNat'] at hnat
    exact hn hnat.symm
  -- every byte of a longer sequence has a high bit of its own
  unfold String.utf8EncodeChar
  dsimp only
  split
  · simp only [List.mem_singleton]
    exact hne _ (by omega)
  · split
    · simp only [List.mem_cons, List.not_mem_nil, or_false, not_or]
      exact ⟨hne _ (by omega), hne _ (by omega)⟩
    · split
      · simp only [List.mem_cons, List.not_mem_nil, or_false, not_or]
        exact ⟨hne _ (by omega), hne _ (by omega), hne _ (by omega)⟩
      · simp only [List.mem_cons, List.not_mem_nil, or_false, not_or]
        exact ⟨hne _ (by omega), hne _ (by omega), hne _ (by omega), hne _ (by omega)⟩

theorem zero_not_mem_textBytes {s : String} (h : '\x00' ∉ s.toList) :
    (0 : UInt8) ∉ textBytes s := by
  rw [textBytes_eq, List.mem_flatMap]
  rintro ⟨c, hc, hzero⟩
  refine zero_not_mem_utf8EncodeChar ?_ hzero
  rintro rfl
  exact h hc

/-- A text without a zero character is read off the front. -/
theorem textField_append_inj {s t : String} (hs : '\x00' ∉ s.toList) (ht : '\x00' ∉ t.toList)
    {as bs : List UInt8} (h : textField s ++ as = textField t ++ bs) : s = t ∧ as = bs := by
  unfold textField at h
  rw [List.append_assoc, List.append_assoc] at h
  obtain ⟨hbytes, hrest⟩ := append_cons_inj (zero_not_mem_textBytes hs) (zero_not_mem_textBytes ht) h
  exact ⟨textBytes_injective hbytes, hrest⟩

/-! ## Words -/

/-- Numbers with the same bytes are the same. -/
theorem eq_of_bytes {n v w : Nat} (hv : v < 2 ^ (8 * n)) (hw : w < 2 ^ (8 * n))
    (h : ∀ i < n, v / 2 ^ (8 * i) % 256 = w / 2 ^ (8 * i) % 256) : v = w := by
  induction n generalizing v w with
  | zero =>
    simp only [Nat.mul_zero, Nat.pow_zero] at hv hw
    omega
  | succ n ih =>
    -- the lowest byte is taken off, and the others are the bytes of the quotient
    have hpow : 2 ^ (8 * (n + 1)) = 2 ^ (8 * n) * 256 := by rw [Nat.mul_add, Nat.pow_add]
    have hhigh : v / 256 = w / 256 := by
      refine ih ?_ ?_ fun i hi => ?_
      · exact (Nat.div_lt_iff_lt_mul (by decide)).2 (hpow ▸ hv)
      · exact (Nat.div_lt_iff_lt_mul (by decide)).2 (hpow ▸ hw)
      · have hbyte := h (i + 1) (Nat.succ_lt_succ hi)
        have hstep : 2 ^ (8 * (i + 1)) = 256 * 2 ^ (8 * i) := by
          rw [Nat.mul_add, Nat.pow_add, Nat.mul_comm]
        rwa [hstep, ← Nat.div_div_eq_div_mul, ← Nat.div_div_eq_div_mul] at hbyte
    have hlow : v % 256 = w % 256 := by simpa using h 0 (Nat.succ_pos n)
    omega

theorem wordField_injective : Function.Injective wordField := by
  intro v w h
  have hbyte (i : Nat) (hi : i < 8) :
      v.toNat / 2 ^ (8 * i) % 256 = w.toNat / 2 ^ (8 * i) % 256 := by
    have hget := congrArg (fun bytes : List UInt8 => bytes[i]?) h
    simp only [wordField, List.getElem?_map, List.getElem?_range hi, Option.map_some,
      Option.some.injEq] at hget
    have hnat := congrArg UInt8.toNat hget
    have hshift : 8 * i % 64 = 8 * i := Nat.mod_eq_of_lt (by omega)
    simpa [UInt64.toNat_toUInt8, UInt64.toNat_shiftRight, hshift, Nat.shiftRight_eq_div_pow]
      using hnat
  exact UInt64.toNat_inj.1 (eq_of_bytes v.toNat_lt w.toNat_lt hbyte)

/-- A number that fits into a word is read off the front. -/
theorem numberField_append_inj {m n : Nat} (hm : m < 2 ^ 64) (hn : n < 2 ^ 64) {as bs : List UInt8}
    (heq : numberField m ++ as = numberField n ++ bs) : m = n ∧ as = bs := by
  obtain ⟨hword, hrest⟩ := List.append_inj heq (by simp [numberField])
  refine ⟨?_, hrest⟩
  rw [← UInt64.toNat_ofNat_of_lt' hm, wordField_injective hword, UInt64.toNat_ofNat_of_lt' hn]

/-- A hash is read off the front. -/
theorem hashField_append_inj {g h : ContentHash} {as bs : List UInt8}
    (heq : hashField g ++ as = hashField h ++ bs) : g = h ∧ as = bs := by
  obtain ⟨hword, hrest⟩ := List.append_inj heq (by simp [hashField])
  refine ⟨?_, hrest⟩
  cases g
  cases h
  exact congrArg _ (wordField_injective hword)

/-- Hashes under names are read off one after the other. -/
theorem eq_of_namedHashes_eq {κ : Type} (shown : κ → String) {ks ls : List (κ × ContentHash)}
    (hks : ∀ k ∈ ks, '\x00' ∉ (shown k.1).toList) (hls : ∀ l ∈ ls, '\x00' ∉ (shown l.1).toList)
    (hapart : ∀ k ∈ ks, ∀ l ∈ ls, shown k.1 = shown l.1 → k.1 = l.1)
    (heq : (ks.flatMap fun k => textField (shown k.1) ++ hashField k.2) =
      ls.flatMap fun l => textField (shown l.1) ++ hashField l.2) : ks = ls := by
  induction ks generalizing ls with
  | nil =>
    cases ls with
    | nil => rfl
    | cons l ls => simp [textField] at heq
  | cons k ks ih =>
    cases ls with
    | nil => simp [textField] at heq
    | cons l ls =>
      obtain ⟨hk, hks⟩ := List.forall_mem_cons.1 hks
      obtain ⟨hl, hls⟩ := List.forall_mem_cons.1 hls
      rw [List.flatMap_cons, List.flatMap_cons, List.append_assoc, List.append_assoc] at heq
      obtain ⟨hshown, heq⟩ := textField_append_inj hk hl heq
      obtain ⟨hhash, heq⟩ := hashField_append_inj heq
      have hkey := hapart k List.mem_cons_self l List.mem_cons_self hshown
      have hrest := ih hks hls (fun k hk l hl =>
        hapart k (List.mem_cons_of_mem _ hk) l (List.mem_cons_of_mem _ hl)) heq
      rw [Prod.ext hkey hhash, hrest]

/-! ## Hashes without collisions -/

/-- No two of the byte sequences have the same hash. -/
def CollisionFree (inputs : List (List UInt8)) : Prop :=
  ∀ x ∈ inputs, ∀ y ∈ inputs, ofBytes x = ofBytes y → x = y

theorem CollisionFree.text_eq {inputs : List (List UInt8)} (h : CollisionFree inputs)
    {s t : String} (hs : textBytes s ∈ inputs) (ht : textBytes t ∈ inputs)
    (heq : ofText s = ofText t) : s = t :=
  textBytes_injective (h _ hs _ ht heq)

end ContentHash
end SketchSense
