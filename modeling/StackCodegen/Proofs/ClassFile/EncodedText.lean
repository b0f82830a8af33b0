import StackCodegen.Proofs.ClassFile.ModifiedUtf8

/-!
# Encoded texts

What the encoding of class files does to a text. Its bytes are read as units, and these are the only
ones that the characters of the text have in UTF-16 (`readChars?_eq_some_iff`). None of the bytes is
0 or one that starts a group of four (`bounds_of_mem_encode`), so an encoded text is the UTF-8 text
exactly where UTF-8 needs neither (`encode_eq_utf8_iff`).

Main statement: `encode_faithful`.
-/

set_option autoImplicit false

namespace StackCodegen.ClassFile.ModifiedUtf8

/-! ## Characters of units -/

theorem toNat_ofNat {n : Nat} (h : n.isValidChar) : (Char.ofNat n).toNat = n := by
  rw [Char.ofNat, dif_pos h]
  rfl

/-- A unit that is no surrogate is its character. -/
theorem units_ofNat {u : UInt16} (hhigh : ¬ u.toNat / 1024 = 54) (hlow : ¬ u.toNat / 1024 = 55) :
    units (Char.ofNat u.toNat) = [u] := by
  have hlt := u.toNat_lt
  have hvalid : u.toNat.isValidChar := by
    simp only [Nat.isValidChar]
    omega
  rw [units_eq, toNat_ofNat hvalid, if_pos hlt, UInt16.ofNat_toNat]

/-- A high and a low surrogate are the units of one character. -/
theorem units_ofNat_pair {u v : UInt16} (hu : u.toNat / 1024 = 54) (hv : v.toNat / 1024 = 55) :
    units (Char.ofNat (65536 + 1024 * (u.toNat % 1024) + v.toNat % 1024)) = [u, v] := by
  have hvalid : (65536 + 1024 * (u.toNat % 1024) + v.toNat % 1024).isValidChar := by
    simp only [Nat.isValidChar]
    omega
  have hfirst : 55296 + (65536 + 1024 * (u.toNat % 1024) + v.toNat % 1024 - 65536) / 1024 =
      u.toNat := by omega
  have hsecond : 56320 + (65536 + 1024 * (u.toNat % 1024) + v.toNat % 1024 - 65536) % 1024 =
      v.toNat := by omega
  rw [units_eq, toNat_ofNat hvalid, if_neg (by omega), unit_ofNat hfirst, unit_ofNat hsecond]

/-- Units are read as characters exactly where they are the units of these characters. -/
theorem readChars?_eq_some_iff {us : List UInt16} {chars : List Char} :
    readChars? us = some chars ↔ us = chars.flatMap units := by
  constructor
  · intro h
    -- one case for each way the reader goes on
    induction us using readChars?.induct generalizing chars with
    | case1 =>
        rw [readChars?] at h
        obtain rfl := Option.some.inj h
        rfl
    | case2 u hu v rest hv ih =>
        rw [readChars?, if_pos hu, if_pos hv] at h
        obtain ⟨later, hlater, rfl⟩ := Option.map_eq_some_iff.1 h
        rw [List.flatMap_cons, units_ofNat_pair hu hv, ih hlater]
        rfl
    | case3 u hu v rest hv =>
        rw [readChars?, if_pos hu, if_neg hv] at h
        cases h
    | case4 u hu =>
        rw [readChars?, if_pos hu] at h
        cases h
    | case5 u rest hu hv =>
        rw [readChars?.eq_def] at h
        dsimp only at h
        rw [if_neg hu, if_pos hv] at h
        cases h
    | case6 u rest hu hv ih =>
        rw [readChars?.eq_def] at h
        dsimp only at h
        rw [if_neg hu, if_neg hv] at h
        obtain ⟨later, hlater, rfl⟩ := Option.map_eq_some_iff.1 h
        rw [List.flatMap_cons, units_ofNat hu hv, ih hlater]
        rfl
  · rintro rfl
    exact readChars?_flatMap chars

/-! ## Bytes of groups -/

/-- No byte of a group is 0 or starts four bytes of UTF-8. -/
theorem bounds_of_mem_encodeUnit {u : UInt16} {b : UInt8} (h : b ∈ encodeUnit u) :
    b ≠ 0 ∧ b < 0xf0 := by
  have hlt := u.toNat_lt
  -- it is enough to bound the numbers that a group is made from
  suffices hnumber : ∃ n, b = .ofNat n ∧ 1 ≤ n ∧ n < 240 by
    obtain ⟨n, rfl, hlow, hhigh⟩ := hnumber
    have hbyte : (UInt8.ofNat n).toNat = n :=
      UInt8.toNat_ofNat_of_lt' (by simp only [UInt8.size]; omega)
    constructor
    · intro hzero
      rw [hzero] at hbyte
      change 0 = n at hbyte
      omega
    · rw [UInt8.lt_iff_toNat_lt, hbyte]
      exact hhigh
  rw [encodeUnit_eq_group, group] at h
  split at h
  next hone => exact ⟨_, List.mem_singleton.1 h, by omega, by omega⟩
  next hone =>
      split at h
      next htwo =>
          simp only [List.mem_cons, List.not_mem_nil, or_false] at h
          rcases h with hb | hb <;> exact ⟨_, hb, by omega, by omega⟩
      next htwo =>
          simp only [List.mem_cons, List.not_mem_nil, or_false] at h
          rcases h with hb | hb | hb <;> exact ⟨_, hb, by omega, by omega⟩

theorem bounds_of_mem_encode {text : String} {b : UInt8} (h : b ∈ encode text) :
    b ≠ 0 ∧ b < 0xf0 := by
  obtain ⟨c, -, hc⟩ := List.mem_flatMap.1 h
  obtain ⟨u, -, hu⟩ := List.mem_flatMap.1 hc
  exact bounds_of_mem_encodeUnit hu

/-- Texts are encoded piece by piece. -/
theorem encode_append (text text' : String) :
    encode (text ++ text') = encode text ++ encode text' := by
  rw [encode, encode, encode, String.toList_append, List.flatMap_append]

/-! ## Agreement with UTF-8 -/

/-- A character that needs neither a zero nor four bytes is encoded as in UTF-8. -/
theorem encode_char_eq_utf8 {c : Char} (hzero : 0 < c.toNat) (hlt : c.toNat < 0x10000) :
    (units c).flatMap encodeUnit = String.utf8EncodeChar c := by
  have hunit : (UInt16.ofNat c.toNat).toNat = c.toNat := UInt16.toNat_ofNat_of_lt' hlt
  have hlast : c.toNat % 64 + 128 = 128 + c.toNat % 64 := Nat.add_comm _ _
  have hmiddle : c.toNat / 64 % 64 + 128 = 128 + c.toNat / 64 % 64 := Nat.add_comm _ _
  rw [units_eq, if_pos hlt, List.flatMap_singleton, encodeUnit_eq_group, hunit]
  simp only [group, String.utf8EncodeChar, Char.toNat_val, hlast, hmiddle]
  apply ite_congr
  · exact propext ⟨And.right, fun h => ⟨hzero, h⟩⟩
  · intro _
    rfl
  · intro _
    apply ite_congr rfl
    · intro htwo
      have hfirst : c.toNat / 64 % 32 + 192 = 192 + c.toNat / 64 := by omega
      rw [hfirst]
    · intro _
      have hfirst : c.toNat / 4096 % 16 + 224 = 224 + c.toNat / 4096 := by omega
      rw [if_pos (Nat.le_of_lt_succ hlt), hfirst]

/-- In UTF-8 every other character has a byte that no encoded text has. -/
theorem exists_mem_utf8EncodeChar {c : Char} (h : ¬ (0 < c.toNat ∧ c.toNat < 0x10000)) :
    ∃ b ∈ String.utf8EncodeChar c, ¬ (b ≠ 0 ∧ b < 0xf0) := by
  rw [String.utf8EncodeChar, Char.toNat_val]
  -- a zero is its own byte, and a supplementary character starts with a byte above 0xef
  rcases Nat.eq_zero_or_pos c.toNat with hzero | hpos
  · rw [hzero]
    exact ⟨0, List.mem_singleton_self _, fun h => h.1 rfl⟩
  · have hlarge : 0x10000 ≤ c.toNat := by omega
    rw [if_neg (by omega), if_neg (by omega), if_neg (by omega)]
    refine ⟨_, List.mem_cons_self, ?_⟩
    rintro ⟨-, hlt⟩
    rw [UInt8.lt_iff_toNat_lt, UInt8.toNat_ofNat_of_lt' (by simp only [UInt8.size]; omega)] at hlt
    change _ < 240 at hlt
    omega

/-- An encoded text is the text in UTF-8 exactly where it has neither a zero nor a supplementary
character. -/
theorem encode_eq_utf8_iff (text : String) :
    (encode text).toByteArray = text.toUTF8 ↔
      ∀ c ∈ text.toList, 0 < c.toNat ∧ c.toNat < 0x10000 := by
  have hutf8 : text.toUTF8 = (text.toList.flatMap String.utf8EncodeChar).toByteArray := by
    rw [String.toUTF8_eq_toByteArray, ← String.utf8Encode_toList]
    rfl
  rw [hutf8, List.toByteArray_inj]
  constructor
  · intro heq c hc
    -- otherwise UTF-8 has a byte for the character that no encoded text has
    by_contra hnot
    obtain ⟨b, hb, hnone⟩ := exists_mem_utf8EncodeChar hnot
    have hmem : b ∈ encode text := by
      rw [heq]
      exact List.mem_flatMap.2 ⟨c, hc, hb⟩
    exact hnone (bounds_of_mem_encode hmem)
  · intro h
    apply List.flatMap_congr
    intro c hc
    exact encode_char_eq_utf8 (h c hc).1 (h c hc).2

/-- A supplementary character takes two groups of three bytes, and four bytes in UTF-8. -/
example : encode "😀" = [0xed, 0xa0, 0xbd, 0xed, 0xb8, 0x80] := by
  decide +kernel

/-- The encoding is faithful. The bytes of a text are read as its units, the only ones that it
has in UTF-16, so different texts have different bytes. None of these is 0 or above 0xef, texts are
encoded piece by piece, and where UTF-8 needs none of these bytes the encoding is UTF-8. -/
theorem encode_faithful :
    (∀ text, readUnits? (encode text) = some (unitsOf text) ∧
      ∀ us, readChars? us = some text.toList ↔ us = unitsOf text) ∧
    Function.Injective encode ∧
    (∀ text, ∀ b ∈ encode text, b ≠ 0 ∧ b < 0xf0) ∧
    (∀ text text', encode (text ++ text') = encode text ++ encode text') ∧
    (∀ text, (encode text).toByteArray = text.toUTF8 ↔
      ∀ c ∈ text.toList, 0 < c.toNat ∧ c.toNat < 0x10000) := by
  refine ⟨?_, encode_injective, ?_, encode_append, encode_eq_utf8_iff⟩
  · intro text
    exact ⟨readUnits?_encode text, fun us => readChars?_eq_some_iff⟩
  · intro text b hb
    exact bounds_of_mem_encode hb

end StackCodegen.ClassFile.ModifiedUtf8
