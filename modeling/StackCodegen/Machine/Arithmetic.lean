import StackCodegen.Program.Statement

/-!
# Word arithmetic

The meaning of the binary operators on 32-bit words. Sums, differences and products wrap; quotients
truncate towards zero and the remainder has the sign of the dividend, with `-2147483648 / -1`
wrapping to `-2147483648`. Comparisons are signed and give 1 or 0.
-/

set_option autoImplicit false

namespace StackCodegen

/-- The word that stands for a truth value. -/
def truthWord (b : Bool) : Int32 := if b then 1 else 0

/-- The result of an operator on its left and right operands; there is none for a zero divisor. -/
def BinaryOp.eval : BinaryOp → Int32 → Int32 → Option Int32
  | add, a, b => some (a + b)
  | sub, a, b => some (a - b)
  | mul, a, b => some (a * b)
  | div, a, b => if b = 0 then none else some (a / b)
  | rem, a, b => if b = 0 then none else some (a % b)
  | and, a, b => some (a &&& b)
  | or, a, b => some (a ||| b)
  | eq, a, b => some (truthWord (a = b))
  | ne, a, b => some (truthWord (a ≠ b))
  | gt, a, b => some (truthWord (b < a))
  | lt, a, b => some (truthWord (a < b))
  | le, a, b => some (truthWord (a ≤ b))
  | ge, a, b => some (truthWord (b ≤ a))

theorem BinaryOp.eval_eq_none_iff (op : BinaryOp) (a b : Int32) :
    op.eval a b = none ↔ (op = div ∨ op = rem) ∧ b = 0 := by
  cases op <;> simp [eval]

end StackCodegen
