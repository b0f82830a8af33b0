import StackCodegen.ClassFile.ModifiedUtf8
import Mathlib.Data.UInt

/-!
# Reading modified UTF-8

Texts of class files read by the rules of the format. A group of one, two or three bytes gives one
UTF-16 unit (`readUnits?`); a high and a low surrogate together give one character, and a unit that
is no surrogate gives itself (`readChars?`).

Shifts and masks of the encoding are turned into quotients and remainders once, for the bytes of a
unit (`encodeUnit_eq_group`) and for the units of a character (`units_eq`).

Main statements: the bytes of a text are read as its units (`readUnits?_encode`), and the units as
the text (`read?_encode`).
-/

set_option autoImplicit false

namespace StackCodegen.ClassFile.ModifiedUtf8

/-! ## Readers -/

/-- The value of a byte that is not the first of its group. -/
def tail? (b : UInt8) : Option Nat :=
  if b.toNat / 64 = 2 then some (b.toNat % 64) else none

/-- The unit at the front of a sequence of bytes, and what follows. The byte 0 starts no group. -/
def readUnit? : Bytes → Option (UInt16 × Bytes)
  | [] => none
  | a :: rest =>
    if 1 ≤ a.toNat ∧ a.toNat < 128 then
      some (.ofNat a.toNat, rest)
    else if a.toNat / 32 = 6 then
      match rest with
      | b :: rest => (tail? b).map fun low => (.ofNat (64 * (a.toNat % 32) + low), rest)
      | _ => none
    else if a.toNat / 16 = 14 then
      match rest with
      | b :: c :: rest =>
        (tail? b).bind fun middle => (tail? c).map fun low =>
          (.ofNat (4096 * (a.toNat % 16) + 64 * middle + low), rest)
      | _ => none
    else none

theorem length_of_readUnit? {bytes rest : Bytes} {u : UInt16}
    (h : readUnit? bytes = some (u, rest)) : rest.length < bytes.length := by
  cases bytes with
  | nil => cases h
  | cons a bytes =>
      simp only [readUnit?] at h
      split at h
      · cases h
        exact Nat.lt_succ_self _
      · split at h
        · split at h
          · obtain ⟨low, -, heq⟩ := Option.map_eq_some_iff.1 h
            cases heq
            simp only [List.length_cons]
            omega
          · cases h
        · split at h
          · split at h
            · obtain ⟨middle, -, h⟩ := Option.bind_eq_some_iff.1 h
              obtain ⟨low, -, heq⟩ := Option.map_eq_some_iff.1 h
              cases heq
              simp only [List.length_cons]
              omega
            · cases h
          · cases h

/-- The units that a sequence of bytes holds to its end. -/
def readUnits? (bytes : Bytes) : Option (List UInt16) :=
  if bytes = [] then some []
  else
    match _h : readUnit? bytes with
    | none => none
    | some (u, rest) => (readUnits? rest).map (u :: ·)
termination_by bytes.length
decreasing_by exact length_of_readUnit? ‹_›

/-- The characters of a row of units. A surrogate that is no half of a pair has none. -/
def readChars? : List UInt16 → Option (List Char)
  | [] => some []
  | u :: rest =>
    if u.toNat / 1024 = 54 then
      match rest with
      | v :: rest =>
        if v.toNat / 1024 = 55 then
          (readChars? rest).map
            (Char.ofNat (65536 + 1024 * (u.toNat % 1024) + v.toNat % 1024) :: ·)
        else none
      | [] => none
    else if u.toNat / 1024 = 55 then none
    else (readChars? rest).map (Char.ofNat u.toNat :: ·)

/-- The text that a sequence of bytes holds. -/
def read? (bytes : Bytes) : Option String :=
  (readUnits? bytes).bind fun units => (readChars? units).map String.ofList

/-! ## Groups of bytes -/

/-- Marks above a value are added to it. -/
theorem toNat_or_mark {b mark : UInt8} {k m : Nat} (hmark : mark.toNat = 2 ^ k * m)
    (h : b.toNat < 2 ^ k) : (b ||| mark).toNat = mark.toNat + b.toNat := by
  rw [UInt8.toNat_or, Nat.or_comm, hmark, ← Nat.two_pow_add_eq_or_of_lt h]

theorem toNat_continuation (v : UInt16) :
    (encodeUnit.continuation v).toNat = 128 + v.toNat % 64 := by
  have hlow : (v &&& 0x3f).toUInt8.toNat = v.toNat % 64 := by
    have hand : (v &&& 0x3f).toNat = v.toNat % 64 := by
      rw [UInt16.toNat_and]
      exact Nat.and_two_pow_sub_one_eq_mod v.toNat 6
    rw [UInt16.toNat_toUInt8, hand]
    omega
  rw [encodeUnit.continuation, toNat_or_mark (k := 7) (m := 1) rfl (by omega), hlow]
  rfl

/-- The group of the unit with a number, byte by byte. -/
def group (n : Nat) : Bytes :=
  if 1 ≤ n ∧ n ≤ 127 then
    [.ofNat n]
  else if n ≤ 2047 then
    [.ofNat (192 + n / 64), .ofNat (128 + n % 64)]
  else
    [.ofNat (224 + n / 4096), .ofNat (128 + n / 64 % 64), .ofNat (128 + n % 64)]

/-- A byte is the one with its number. -/
theorem eq_ofNat {b : UInt8} {n : Nat} (h : b.toNat = n) : b = .ofNat n := by
  rw [← h, UInt8.ofNat_toNat]

/-- A number of a unit is the one of that unit. -/
theorem unit_ofNat {u : UInt16} {n : Nat} (h : n = u.toNat) : UInt16.ofNat n = u := by
  rw [h, UInt16.ofNat_toNat]

/-- The shifts and masks of a group are quotients and remainders. -/
theorem encodeUnit_eq_group (u : UInt16) : encodeUnit u = group u.toNat := by
  have hlt := u.toNat_lt
  have hshift : ∀ k : UInt16, (u >>> k).toNat = u.toNat / 2 ^ (k.toNat % 16) := by
    intro k
    rw [UInt16.toNat_shiftRight, Nat.shiftRight_eq_div_pow]
  have hsix : (u >>> 6).toNat = u.toNat / 64 := hshift 6
  have htwelve : (u >>> 12).toNat = u.toNat / 4096 := hshift 12
  have hlast := eq_ofNat (toNat_continuation u)
  have hone : (0x01 ≤ u ∧ u ≤ 0x7f) = (1 ≤ u.toNat ∧ u.toNat ≤ 127) := by
    rw [UInt16.le_iff_toNat_le, UInt16.le_iff_toNat_le]
    rfl
  have htwo : (u ≤ 0x7ff) = (u.toNat ≤ 2047) := by
    rw [UInt16.le_iff_toNat_le]
    rfl
  apply ite_congr hone
  · intro _
    rfl
  · intro _
    apply ite_congr htwo
    · intro hhigh
      have hlead : (u >>> 6).toUInt8.toNat = u.toNat / 64 := by
        rw [UInt16.toNat_toUInt8, hsix]
        omega
      have hfirst : ((u >>> 6).toUInt8 ||| 0xc0).toNat = 192 + u.toNat / 64 := by
        rw [toNat_or_mark (k := 6) (m := 3) rfl (by omega), hlead]
        rfl
      rw [eq_ofNat hfirst, hlast]
    · intro _
      have hlead : (u >>> 12).toUInt8.toNat = u.toNat / 4096 := by
        rw [UInt16.toNat_toUInt8, htwelve]
        omega
      have hfirst : ((u >>> 12).toUInt8 ||| 0xe0).toNat = 224 + u.toNat / 4096 := by
        rw [toNat_or_mark (k := 5) (m := 7) rfl (by omega), hlead]
        rfl
      have hmiddle := eq_ofNat (toNat_continuation (u >>> 6))
      rw [hsix] at hmiddle
      rw [eq_ofNat hfirst, hmiddle, hlast]

theorem tail?_ofNat (n : Nat) : tail? (.ofNat (128 + n % 64)) = some (n % 64) := by
  have h : (UInt8.ofNat (128 + n % 64)).toNat = 128 + n % 64 :=
    UInt8.toNat_ofNat_of_lt' (by simp only [UInt8.size]; omega)
  rw [tail?, if_pos (by omega), h]
  congr 1
  omega

/-- The group of a unit is read as the unit. -/
theorem readUnit?_encodeUnit (u : UInt16) (rest : Bytes) :
    readUnit? (encodeUnit u ++ rest) = some (u, rest) := by
  have hlt := u.toNat_lt
  have hbyte : ∀ n < 256, (UInt8.ofNat n).toNat = n := fun n hn => UInt8.toNat_ofNat_of_lt' hn
  rw [encodeUnit_eq_group, group]
  split
  next hone =>
      have hlead := hbyte u.toNat (by omega)
      rw [List.singleton_append, readUnit?.eq_def]
      dsimp only
      rw [if_pos (by omega), unit_ofNat hlead]
  next hone =>
      split
      next htwo =>
          have hlead := hbyte (192 + u.toNat / 64) (by omega)
          rw [List.cons_append, List.singleton_append]
          simp only [readUnit?]
          rw [if_neg (by omega), if_pos (by omega), tail?_ofNat, Option.map_some,
            unit_ofNat (u := u) (by omega)]
      next htwo =>
          have hlead := hbyte (224 + u.toNat / 4096) (by omega)
          rw [List.cons_append, List.cons_append, List.singleton_append]
          simp only [readUnit?]
          rw [if_neg (by omega), if_neg (by omega), if_pos (by omega), tail?_ofNat, tail?_ofNat,
            Option.bind_some, Option.map_some, unit_ofNat (u := u) (by omega)]

theorem encodeUnit_ne_nil (u : UInt16) : encodeUnit u ≠ [] := by
  unfold encodeUnit
  split
  · exact List.cons_ne_nil _ _
  · split <;> exact List.cons_ne_nil _ _

theorem readUnits?_flatMap (units : List UInt16) :
    readUnits? (units.flatMap encodeUnit) = some units := by
  induction units with
  | nil => rw [List.flatMap_nil, readUnits?, if_pos rfl]
  | cons u units ih =>
      have hne : encodeUnit u ++ units.flatMap encodeUnit ≠ [] :=
        List.append_ne_nil_of_left_ne_nil (encodeUnit_ne_nil u) _
      rw [List.flatMap_cons, readUnits?, if_neg hne]
      split
      next hnone =>
          rw [readUnit?_encodeUnit] at hnone
          cases hnone
      next u' rest hsome =>
          rw [readUnit?_encodeUnit] at hsome
          cases hsome
          rw [ih, Option.map_some]

/-! ## Units and characters -/

/-- The units of a text. -/
def unitsOf (text : String) : List UInt16 := text.toList.flatMap units

/-- The bytes of a text are read as its units. -/
theorem readUnits?_encode (text : String) : readUnits? (encode text) = some (unitsOf text) := by
  rw [encode, ← List.flatMap_assoc]
  exact readUnits?_flatMap _

/-- The units of a character, from its number. -/
theorem units_eq (c : Char) :
    units c =
      if c.toNat < 65536 then [.ofNat c.toNat]
      else
        [.ofNat (55296 + (c.toNat - 65536) / 1024), .ofNat (56320 + (c.toNat - 65536) % 1024)] := by
  have hvalid : c.toNat < 55296 ∨ 57343 < c.toNat ∧ c.toNat < 1114112 := c.valid
  have hof : ∀ (v : UInt32) (n : Nat), v.toNat % 65536 = n → v.toUInt16 = .ofNat n := by
    rintro v n rfl
    rw [← UInt32.toNat_toUInt16, UInt16.ofNat_toNat]
  unfold units
  split
  next hsmall =>
      have hlt : c.toNat < 65536 := UInt32.lt_iff_toNat_lt.1 hsmall
      rw [if_pos hlt, hof c.val c.toNat (Nat.mod_eq_of_lt hlt)]
  next hlarge =>
      have hge : 65536 ≤ c.toNat := by
        have hnot : ¬ c.toNat < 65536 := fun h => hlarge (UInt32.lt_iff_toNat_lt.2 h)
        omega
      have hsub : (c.val - 0x10000).toNat = c.toNat - 65536 :=
        UInt32.toNat_sub_of_le _ _ (UInt32.le_iff_toNat_le.2 hge)
      have hshift : ((c.val - 0x10000) >>> 10).toNat = (c.toNat - 65536) / 1024 := by
        rw [UInt32.toNat_shiftRight, hsub]
        exact Nat.shiftRight_eq_div_pow _ 10
      have hand : ((c.val - 0x10000) &&& 0x3ff).toNat = (c.toNat - 65536) % 1024 := by
        rw [UInt32.toNat_and, hsub]
        exact Nat.and_two_pow_sub_one_eq_mod _ 10
      rw [if_neg (by omega)]
      dsimp only
      rw [hof _ (55296 + (c.toNat - 65536) / 1024), hof _ (56320 + (c.toNat - 65536) % 1024)]
      · rw [UInt32.toNat_add, hand]
        change ((c.toNat - 65536) % 1024 + 56320) % 4294967296 % 65536 = _
        omega
      · rw [UInt32.toNat_add, hshift]
        change ((c.toNat - 65536) / 1024 + 55296) % 4294967296 % 65536 = _
        omega

/-- The units of a character are read as the character. -/
theorem readChars?_units (c : Char) (rest : List UInt16) :
    readChars? (units c ++ rest) = (readChars? rest).map (c :: ·) := by
  have hvalid : c.toNat < 55296 ∨ 57343 < c.toNat ∧ c.toNat < 1114112 := c.valid
  have hround : ∀ n : Nat, n = c.toNat → Char.ofNat n = c := by
    rintro n rfl
    exact Char.ofNat_toNat c
  have hunit : ∀ n < 65536, (UInt16.ofNat n).toNat = n := fun n hn => UInt16.toNat_ofNat_of_lt' hn
  rw [units_eq]
  split
  next hsmall =>
      have hone := hunit c.toNat hsmall
      rw [List.singleton_append, readChars?.eq_def]
      dsimp only
      rw [if_neg (by omega), if_neg (by omega), hround _ hone]
  next hlarge =>
      have hhigh := hunit (55296 + (c.toNat - 65536) / 1024) (by omega)
      have hlow := hunit (56320 + (c.toNat - 65536) % 1024) (by omega)
      rw [List.cons_append, List.singleton_append]
      simp only [readChars?]
      rw [if_pos (by omega), if_pos (by omega), hround _ (by omega)]

theorem readChars?_flatMap (chars : List Char) :
    readChars? (chars.flatMap units) = some chars := by
  induction chars with
  | nil => rfl
  | cons c chars ih => rw [List.flatMap_cons, readChars?_units, ih, Option.map_some]

/-- The bytes of a text are read as the text. -/
theorem read?_encode (text : String) : read? (encode text) = some text := by
  rw [read?, readUnits?_encode, Option.bind_some, unitsOf, readChars?_flatMap, Option.map_some,
    String.ofList_toList]

/-- Different texts are encoded differently. -/
theorem encode_injective : Function.Injective encode := by
  intro text text' h
  apply Option.some.inj
  rw [← read?_encode text, ← read?_encode text', h]

end StackCodegen.ClassFile.ModifiedUtf8
