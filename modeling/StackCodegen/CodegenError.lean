import StackCodegen.Program.Statement

/-!
# Code generation errors

The two targets and everything that keeps a program from being compiled, with the text of each
cause. `resolveJump` is the bound on jump targets that both targets share.
-/

set_option autoImplicit false

namespace StackCodegen

/-- What a program is compiled to: a class file, or assembly text. -/
inductive Target where
  | managed
  | native
  deriving DecidableEq

/-- The displayed name of a target. -/
def Target.text : Target → String
  | managed => "managed"
  | native => "native"

/-- Why a program was not compiled. -/
inductive CodegenError where
  | unsupported (target : Target) (function : String) (index : Nat) (statement : Statement)
  | unresolvedVariable (function : String) (name : String)
  | unresolvedJumpTarget (function : String) (index : Nat) (target : UInt64) (length : Nat)
  | unresolvedFunction (name : String) (arity : Nat)
  | symbolClash (function : String) (symbol : String)
  | missingEntry
  | stackUnderflow (offset : Nat)
  | stackMismatch (offset : Nat) (expected : Nat) (found : Nat)
  | branchOutOfRange (distance : Int)
  | codeTooLarge (length : Nat)
  | constantPoolOverflow
  | tooManyLocals (count : Nat)
  | unboundLabel (label : Nat)
  deriving DecidableEq

namespace CodegenError

/-- The text of an error. -/
def message : CodegenError → String
  | unsupported target function index statement =>
    s!"Unsupported opcode in {target.text} target, {function}#{index}: {statement.text}"
  | unresolvedVariable function name => s!"Unresolved variable `{name}` in {function}"
  | unresolvedJumpTarget function index target length =>
    s!"Unresolved jump target {target.toNat} at {function}#{index} (sequence length {length})"
  | unresolvedFunction name arity => s!"Unresolved function `{name}` with {arity} argument(s)"
  | symbolClash function symbol =>
    s!"Symbol `{symbol}` of function `{function}` collides with a statement label"
  | missingEntry => "Program has no entry routine"
  | stackUnderflow offset => s!"Operand stack underflow at code offset {offset}"
  | stackMismatch offset expected found =>
    s!"Operand stack height mismatch at code offset {offset}: {expected} vs {found}"
  | branchOutOfRange distance => s!"Branch offset {distance} does not fit in 16 bits"
  | codeTooLarge length => s!"Method body of {length} bytes exceeds the class-file limit"
  | constantPoolOverflow => "Constant pool overflow"
  | tooManyLocals count => s!"Too many local slots: {count}"
  | unboundLabel label => s!"Unbound label {label}"

/-- Recogniser for statements that a target does not provide. -/
def isUnsupported : CodegenError → Bool
  | unsupported .. => true
  | _ => false

end CodegenError

/-- The statement index a jump leads to; the end of a routine of `length` statements is the last
one. -/
def resolveJump (function : String) (index : Nat) (target : UInt64) (length : Nat) :
    Except CodegenError Nat :=
  if length < target.toNat then
    .error (.unresolvedJumpTarget function index target length)
  else
    .ok target.toNat

/-- Jumps lead to the indices up to the length. -/
theorem resolveJump_eq_ok {function : String} {index length label : Nat} {target : UInt64} :
    resolveJump function index target length = .ok label ↔
      target.toNat ≤ length ∧ label = target.toNat := by
  unfold resolveJump
  split
  next hlt => simp [Nat.not_le.2 hlt]
  next hle => simp [Nat.not_lt.1 hle, eq_comm]

end StackCodegen
