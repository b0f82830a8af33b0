/-!
# Decimal numerals

Numerals over the digits `0` to `9`. Digits are those of ASCII; no other character is one.
-/

set_option autoImplicit false

namespace StackCodegen.Text

/-- Recogniser for `0` to `9`. -/
def isDigit (c : Char) : Bool := '0' ≤ c && c ≤ '9'

/-- The value of a digit. -/
def digitValue (c : Char) : Nat := c.toNat - '0'.toNat

/-- The number that a sequence of digits stands for after `value`. -/
def valueFrom (value : Nat) (digits : List Char) : Nat :=
  digits.foldl (fun v c => 10 * v + digitValue c) value

/-- The number that a sequence of digits stands for. -/
def value (digits : List Char) : Nat := valueFrom 0 digits

theorem valueFrom_cons (v : Nat) (c : Char) (digits : List Char) :
    valueFrom v (c :: digits) = valueFrom (10 * v + digitValue c) digits := by
  rw [valueFrom, List.foldl_cons, ← valueFrom]

/-- The value of a hexadecimal digit in either case. -/
def hexValue? (c : Char) : Option Nat :=
  if isDigit c then some (digitValue c)
  else if 'a' ≤ c && c ≤ 'f' then some (c.toNat - 'a'.toNat + 10)
  else if 'A' ≤ c && c ≤ 'F' then some (c.toNat - 'A'.toNat + 10)
  else none

/-- The number that a sequence of hexadecimal digits stands for. -/
def hexValues? (digits : List Char) : Option Nat :=
  digits.foldlM (fun v c => (hexValue? c).map (16 * v + ·)) 0

end StackCodegen.Text
