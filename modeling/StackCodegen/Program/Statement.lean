/-!
# Stack statements

A routine is a sequence of statements over an implicit operand stack of 32-bit words and a set of
variables addressed by name. `Statement` lists them, `Callee` says what a call may reach, and
`Statement.text` is the one-line form that listings and error messages show.

Jump targets are statement indices of the enclosing routine. A target equal to the length of the
routine means its end; larger ones can be written down, and every consumer rejects them.
-/

set_option autoImplicit false

namespace StackCodegen

/-- Operators that replace the two topmost words by one. -/
inductive BinaryOp where
  | add | sub | mul | div | rem | and | or
  | eq | ne | gt | lt | le | ge
  deriving DecidableEq

namespace BinaryOp

/-- Every operator, arithmetic before comparisons. -/
def all : List BinaryOp :=
  [add, sub, mul, div, rem, and, or, eq, ne, gt, lt, le, ge]

/-- The operators whose result is a truth value. -/
def comparisons : List BinaryOp := [eq, ne, gt, lt, le, ge]

/-- Recogniser for `comparisons`. -/
def isComparison : BinaryOp → Bool
  | eq | ne | gt | lt | le | ge => true
  | add | sub | mul | div | rem | and | or => false

theorem isComparison_iff_mem (op : BinaryOp) : op.isComparison = true ↔ op ∈ comparisons := by
  cases op <;> decide

theorem mem_all (op : BinaryOp) : op ∈ all := by
  cases op <;> decide

/-- The sign an operator is displayed with. -/
def symbol : BinaryOp → String
  | add => "+"
  | sub => "-"
  | mul => "*"
  | div => "/"
  | rem => "%"
  | and => "&"
  | or => "|"
  | eq => "=="
  | ne => "!="
  | gt => ">"
  | lt => "<"
  | le => "<="
  | ge => ">="

end BinaryOp

/-- Services every target provides: one integer in, one integer out. -/
inductive Intrinsic where
  | read
  | write
  deriving DecidableEq

namespace Intrinsic

/-- The name a service is displayed and linked with. -/
def symbol : Intrinsic → String
  | read => "read"
  | write => "write"

/-- Number of operands a service takes. -/
def arity : Intrinsic → Nat
  | read => 0
  | write => 1

/-- Whether a service leaves a word on the stack. -/
def returnsValue : Intrinsic → Bool
  | read => true
  | write => false

end Intrinsic

/-- What a caller knows of a function: its name and its parameters in order. Nothing forbids a
parameter name to occur twice. -/
structure Declaration where
  name : String
  parameters : List String
  deriving DecidableEq

/-- Number of operands a function takes. -/
def Declaration.arity (d : Declaration) : Nat := d.parameters.length

/-- What a call statement may reach. -/
inductive Callee where
  | intrinsic (service : Intrinsic)
  | function (declaration : Declaration)
  deriving DecidableEq

namespace Callee

/-- The name a callee is displayed with. -/
def name : Callee → String
  | intrinsic service => service.symbol
  | function declaration => declaration.name

/-- Number of operands a call consumes. -/
def arity : Callee → Nat
  | intrinsic service => service.arity
  | function declaration => declaration.arity

/-- Whether a call leaves a word on the stack; every function does. -/
def returnsValue : Callee → Bool
  | intrinsic service => service.returnsValue
  | function _ => true

end Callee

/-- One statement. `prepareArguments` is reserved: no target and no machine accepts it. -/
inductive Statement where
  | nop
  | push (value : Int32)
  | load (name : String)
  | store (name : String)
  | negate
  | binary (op : BinaryOp)
  | jump (target : UInt64)
  | jumpIfZero (target : UInt64)
  | call (callee : Callee)
  | returnZero
  | returnTop
  | pop
  | prepareArguments
  deriving DecidableEq

namespace Statement

/-- The target of a jump, conditional or not. -/
def jumpTarget? : Statement → Option UInt64
  | jump target | jumpIfZero target => some target
  | _ => none

/-- Recogniser for the statements that end their activation. -/
def isReturn : Statement → Bool
  | returnZero | returnTop => true
  | _ => false

/-- The variable a statement names. -/
def variableName? : Statement → Option String
  | load v | store v => some v
  | _ => none

/-- The one-line form of a statement. -/
def text : Statement → String
  | nop => "nop"
  | push value => "push " ++ toString value.toInt
  | load v => "ld " ++ v
  | store v => "st " ++ v
  | negate => "unop -"
  | binary op => "binop " ++ op.symbol
  | jump target => "jmp " ++ toString target.toNat
  | jumpIfZero target => "jz " ++ toString target.toNat
  | call callee => "call " ++ callee.name
  | returnZero => "ret0"
  | returnTop => "ret1"
  | pop => "pop"
  | prepareArguments => "preargs"

end Statement

/-- The statements of one routine, indexed from 0. -/
abbrev Body := Array Statement

namespace Body

/-- Index and target of every jump, in order. -/
def jumpTargets (body : Body) : List (Nat × UInt64) :=
  body.toList.zipIdx.filterMap fun (statement, index) =>
    statement.jumpTarget?.map fun target => (index, target)

theorem mem_jumpTargets {body : Body} {index : Nat} {target : UInt64} :
    (index, target) ∈ body.jumpTargets ↔
      ∃ statement, body[index]? = some statement ∧ statement.jumpTarget? = some target := by
  simp only [jumpTargets, List.mem_filterMap, List.mem_zipIdx_iff_getElem?, Array.getElem?_toList,
    Option.map_eq_some_iff, Prod.exists, Prod.mk.injEq]
  constructor
  · rintro ⟨statement, _, hindex, _, htarget, rfl, rfl⟩
    exact ⟨statement, hindex, htarget⟩
  · rintro ⟨statement, hindex, htarget⟩
    exact ⟨statement, index, hindex, target, htarget, rfl, rfl⟩

end Body

end StackCodegen
