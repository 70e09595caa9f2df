import SketchSense.Proofs.Hash.Fields
import SketchSense.Text.Lossy

/-!
# Octets and the texts they are shown as

Octets are read as a text exactly if they are its UTF-8 form, and then they are shown as it. What is
shown of other octets has an ASCII character only where there is an octet for it.

* `utf8EncodeChar_of_ascii` and `le_of_mem_utf8EncodeChar`, the octets of a character;
* `textOf?_eq_some_iff`, what is read as a text;
* `lossyText_textBytes` and `mem_of_mem_lossyText`, what is shown.
-/

namespace SketchSense.Text

open ContentHash (textBytes)

/-! ## The octets of a character -/

/-- Texts of ASCII characters, which are one octet each. -/
def IsAsciiText (s : List Char) : Prop := ∀ c ∈ s, c.toNat < 128

instance (s : List Char) : Decidable (IsAsciiText s) := List.decidableBAll _ s

theorem toNat_toUInt8 {c : Char} (h : c.toNat < 128) : c.toUInt8.toNat = c.toNat := by
  have hlt : c.toNat < 2 ^ 8 := by omega
  exact Nat.mod_eq_of_lt hlt

/-- An ASCII character is one octet. -/
theorem utf8EncodeChar_of_ascii {c : Char} (h : c.toNat < 128) :
    String.utf8EncodeChar c = [c.toUInt8] := by
  have hle : c.val.toNat ≤ 0x7f := by
    show c.toNat ≤ 127
    omega
  unfold String.utf8EncodeChar
  rw [if_pos hle]
  exact congrArg (· :: []) (UInt8.toNat_inj.1 rfl)

/-- The octets of other characters are none of ASCII. -/
theorem le_of_mem_utf8EncodeChar {c : Char} (h : 128 ≤ c.toNat) {b : UInt8}
    (hb : b ∈ String.utf8EncodeChar c) : 128 ≤ b.toNat := by
  have hgt : ¬ c.val.toNat ≤ 0x7f := by
    show ¬ c.toNat ≤ 127
    omega
  have hhigh (n : Nat) (hn : 128 ≤ n) (hlt : n < 256) : 128 ≤ (UInt8.ofNat n).toNat := by
    rw [UInt8.toNat_ofNat', Nat.mod_eq_of_lt hlt]
    exact hn
  unfold String.utf8EncodeChar at hb
  rw [if_neg hgt] at hb
  split at hb
  · simp only [List.mem_cons, List.not_mem_nil, or_false] at hb
    rcases hb with rfl | rfl <;> exact hhigh _ (by omega) (by omega)
  · split at hb
    · simp only [List.mem_cons, List.not_mem_nil, or_false] at hb
      rcases hb with rfl | rfl | rfl <;> exact hhigh _ (by omega) (by omega)
    · simp only [List.mem_cons, List.not_mem_nil, or_false] at hb
      rcases hb with rfl | rfl | rfl | rfl <;> exact hhigh _ (by omega) (by omega)

/-! ## What is read as a text -/

theorem textOf?_eq_some_iff {octets : List UInt8} {s : String} :
    textOf? octets = some s ↔ textBytes s = octets := by
  have hbytes : s.toByteArray = octets.toByteArray ↔ textBytes s = octets := by
    refine ⟨fun h => ?_, ?_⟩
    · unfold textBytes
      rw [String.toUTF8, h, List.data_toByteArray]
    · rintro rfl
      exact ByteArray.ext (by simp [textBytes])
  rw [← hbytes]
  unfold textOf? String.fromUTF8?
  split
  · next hvalid =>
    rw [Option.some.injEq]
    constructor
    · rintro rfl
      rfl
    · intro h
      exact String.toByteArray_inj.1 h.symm
  · next hinvalid =>
    refine ⟨nofun, fun h => ?_⟩
    exact absurd (h ▸ s.isValidUTF8) hinvalid

@[simp] theorem textOf?_textBytes (s : String) : textOf? (textBytes s) = some s :=
  textOf?_eq_some_iff.2 rfl

theorem textBytes_append (s t : String) : textBytes (s ++ t) = textBytes s ++ textBytes t := by
  rw [ContentHash.textBytes_eq, ContentHash.textBytes_eq, ContentHash.textBytes_eq,
    String.toList_append, List.flatMap_append]

/-! ## What is shown -/

/-- Octets that belong to an earlier character are passed over. -/
theorem lossyChars_eq_drop (skipped : Nat) (bs : List UInt8) :
    lossyChars skipped bs = lossyChars 0 (bs.drop skipped) := by
  induction bs generalizing skipped with
  | nil => simp [lossyChars]
  | cons b bs ih =>
    cases skipped with
    | zero => rfl
    | succ skipped => rw [lossyChars, ih, List.drop_succ_cons]

/-- A character is read off the front. -/
theorem lossyChars_utf8EncodeChar_append (c : Char) (bs : List UInt8) :
    lossyChars 0 (String.utf8EncodeChar c ++ bs) = c :: lossyChars 0 bs := by
  have hlength := String.length_utf8EncodeChar c
  have hread : ((String.utf8EncodeChar c ++ bs).toByteArray).utf8DecodeChar? 0 = some c := by
    rw [List.toByteArray_append]
    exact ByteArray.utf8DecodeChar?_utf8EncodeChar_append
  cases hoctets : String.utf8EncodeChar c with
  | nil =>
    have hpos := c.utf8Size_pos
    rw [hoctets, List.length_nil] at hlength
    omega
  | cons b rest =>
    rw [hoctets, List.length_cons] at hlength
    rw [hoctets] at hread
    have hleading : leadingChar b (rest ++ bs) = (c, rest.length) := by
      unfold leadingChar
      rw [← List.cons_append, hread]
      dsimp only
      rw [← hlength, Nat.add_sub_cancel]
    rw [List.cons_append, lossyChars, hleading, lossyChars_eq_drop, List.drop_left]

/-- The octets of a text are shown as the text. -/
theorem lossyText_textBytes (s : String) : lossyText (textBytes s) = s := by
  have hchars (cs : List Char) : lossyChars 0 (cs.flatMap String.utf8EncodeChar) = cs := by
    induction cs with
    | nil => rfl
    | cons c cs ih => rw [List.flatMap_cons, lossyChars_utf8EncodeChar_append, ih]
  unfold lossyText
  rw [ContentHash.textBytes_eq, hchars, String.ofList_toList]

/-- An ASCII character that octets start with is their first one. -/
theorem eq_of_leadingChar {c : Char} (hc : c.toNat < 128) {b : UInt8} {bs : List UInt8}
    (h : (leadingChar b bs).1 = c) : b = c.toUInt8 := by
  unfold leadingChar at h
  split at h
  · next d hread =>
    dsimp only at h
    subst h
    obtain ⟨rest, hrest⟩ := ByteArray.exists_of_utf8DecodeChar?_eq_some hread
    rw [utf8EncodeChar_of_ascii hc] at hrest
    have hlist := congrArg (fun bytes : ByteArray => bytes.data.toList.head?) hrest
    simpa using hlist
  · next hread =>
    have hbroken : '\uFFFD'.toNat < 128 := by rwa [← h] at hc
    exact absurd hbroken (by decide)

/-- An ASCII character is shown only for an octet that stands for it. -/
theorem mem_of_mem_lossyText {c : Char} (hc : c.toNat < 128) {octets : List UInt8}
    (h : c ∈ (lossyText octets).toList) : c.toUInt8 ∈ octets := by
  have hchars (skipped : Nat) (bs : List UInt8) (h : c ∈ lossyChars skipped bs) : c.toUInt8 ∈ bs := by
    induction bs generalizing skipped with
    | nil => simp [lossyChars] at h
    | cons b bs ih =>
      cases skipped with
      | succ skipped => exact List.mem_cons_of_mem _ (ih skipped h)
      | zero =>
        rcases List.mem_cons.1 h with hfirst | hrest
        · exact List.mem_cons.2 (.inl (eq_of_leadingChar hc hfirst.symm).symm)
        · exact List.mem_cons_of_mem _ (ih _ hrest)
  refine hchars 0 octets ?_
  rwa [lossyText, String.toList_ofList] at h

end SketchSense.Text
