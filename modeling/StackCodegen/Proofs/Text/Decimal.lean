import StackCodegen.Text.Decimal

/-!
# Decimal numerals of numbers

The numeral of a number is made of digits alone, stands for the number, and starts with 0 for the
number 0 alone (`toDigits_eq_zero_cons`). The numeral of a negative integer has a minus sign in
front (`toList_toString`).
-/

set_option autoImplicit false

namespace StackCodegen.Text

theorem isDigit_of_mem_toDigits {n : Nat} {c : Char} (h : c ∈ Nat.toDigits 10 n) :
    isDigit c = true :=
  Nat.isDigit_of_mem_toDigits (by decide) (by decide) h

/-- A digit is no sign. -/
theorem sign_notMem_toDigits (n : Nat) : '-' ∉ Nat.toDigits 10 n :=
  fun h => absurd (isDigit_of_mem_toDigits h) (by decide)

/-- A numeral starts with a digit. -/
theorem exists_toDigits (n : Nat) :
    ∃ c digits, Nat.toDigits 10 n = c :: digits ∧ isDigit c = true := by
  cases h : Nat.toDigits 10 n with
  | nil => exact absurd h Nat.toDigits_ne_nil
  | cons c digits =>
      exact ⟨c, digits, rfl, isDigit_of_mem_toDigits (h ▸ List.mem_cons_self)⟩

/-- The numeral of a number stands for it. -/
theorem value_toDigits (n : Nat) : value (Nat.toDigits 10 n) = n :=
  Nat.ofDigitChars_ten_toDigits

/-- No digit but 0 is written as 0. -/
theorem eq_zero_of_digitChar {n : Nat} (h : n < 10) (hzero : Nat.digitChar n = '0') : n = 0 := by
  revert hzero
  revert n
  decide

/-- A numeral that starts with 0 is that of 0. -/
theorem eq_zero_of_toDigits {n : Nat} {digits : List Char}
    (h : Nat.toDigits 10 n = '0' :: digits) : n = 0 := by
  induction n using Nat.strongRecOn generalizing digits with
  | ind n ih =>
      by_cases hsmall : n < 10
      · rw [Nat.toDigits_of_lt_base hsmall] at h
        exact eq_zero_of_digitChar hsmall (List.cons.inj h).1
      · -- the digits before the last one are the numeral of a tenth
        rw [Nat.toDigits_of_base_le (by decide) (Nat.le_of_not_lt hsmall)] at h
        obtain ⟨c, front, hfront, -⟩ := exists_toDigits (n / 10)
        rw [hfront, List.cons_append] at h
        have htenth := ih (n / 10) (by omega) (hfront.trans (by rw [(List.cons.inj h).1]))
        omega

theorem toList_toString (n : Int) : (toString n).toList =
    if n < 0 then '-' :: Nat.toDigits 10 n.natAbs else Nat.toDigits 10 n.natAbs := by
  cases n with
  | ofNat n => exact Nat.toList_repr
  | negSucc n =>
      change ("-" ++ Nat.repr (n + 1)).toList = _
      rw [String.toList_append, Nat.toList_repr, if_pos (Int.negSucc_lt_zero n)]
      rfl

end StackCodegen.Text
