import StackCodegen.Native.Listing
import StackCodegen.Program.Statement

/-!
# Instructions of the native target

The 32-bit instructions that lowered functions consist of, and the line each is written as. Operands
stand in source, destination order.
-/

set_option autoImplicit false

namespace StackCodegen.Native

/-- The registers in use. -/
inductive Register where
  | eax | ecx | edx | esp | ebp
  deriving DecidableEq

/-- The name of a register in text. -/
def Register.text : Register → String
  | eax => "%eax"
  | ecx => "%ecx"
  | edx => "%edx"
  | esp => "%esp"
  | ebp => "%ebp"

/-- An operand: a constant, a register, or the word at an offset from a register. -/
inductive Operand where
  | immediate (value : Int)
  | register (r : Register)
  | memory (offset : Int) (base : Register)
  deriving DecidableEq

/-- A constant in text. -/
def immediateText (value : Int) : String := "$" ++ toString value

/-- A memory word in text. -/
def memoryText (offset : Int) (base : String) : String :=
  toString offset ++ "(" ++ base ++ ")"

/-- An operand in text. -/
def Operand.text : Operand → String
  | immediate value => immediateText value
  | register r => r.text
  | memory offset base => memoryText offset base.text

/-- The condition codes after a subtraction: equal, not equal, and the signed orders. -/
inductive Condition where
  | z | nz | g | l | le | ge
  deriving DecidableEq

/-- The suffix of a condition code. -/
def Condition.text : Condition → String
  | z => "z"
  | nz => "nz"
  | g => "g"
  | l => "l"
  | le => "le"
  | ge => "ge"

/-- The condition under which a comparison holds. -/
def condition? : BinaryOp → Option Condition
  | .eq => some .z
  | .ne => some .nz
  | .gt => some .g
  | .lt => some .l
  | .le => some .le
  | .ge => some .ge
  | _ => none

/-- One instruction. `set` writes the lowest byte of `%eax`. -/
inductive Instruction where
  | push (source : Operand)
  | pop (destination : Operand)
  | mov (source destination : Operand)
  | add (source destination : Operand)
  | sub (source destination : Operand)
  | imul (source destination : Operand)
  | and (source destination : Operand)
  | or (source destination : Operand)
  | neg (destination : Operand)
  | cmp (source destination : Operand)
  | cltd
  | idiv (source : Operand)
  | set (condition : Condition)
  | jmp (label : String)
  | jz (label : String)
  | call (symbol : String)
  | leave
  | ret
  deriving DecidableEq

/-- The line of an instruction. -/
def Instruction.line : Instruction → Line
  | push source => .instruction "pushl" [source.text]
  | pop destination => .instruction "popl" [destination.text]
  | mov source destination => .instruction "movl" [source.text, destination.text]
  | add source destination => .instruction "addl" [source.text, destination.text]
  | sub source destination => .instruction "subl" [source.text, destination.text]
  | imul source destination => .instruction "imull" [source.text, destination.text]
  | and source destination => .instruction "andl" [source.text, destination.text]
  | or source destination => .instruction "orl" [source.text, destination.text]
  | neg destination => .instruction "negl" [destination.text]
  | cmp source destination => .instruction "cmpl" [source.text, destination.text]
  | cltd => .instruction "cltd" []
  | idiv source => .instruction "idivl" [source.text]
  | set condition => .instruction ("set" ++ condition.text) ["%al"]
  | jmp label => .instruction "jmp" [label]
  | jz label => .instruction "jz" [label]
  | call symbol => .instruction "call" [symbol]
  | leave => .instruction "leave" []
  | ret => .instruction "ret" []

/-- An element of lowered code: a directive, a label, or an instruction. -/
inductive Item where
  | directive (text : String)
  | label (name : String) (comment : Option String)
  | code (instruction : Instruction)
  deriving DecidableEq

/-- The line of an element. -/
def Item.line : Item → Line
  | directive text => .directive text
  | label name none => .label name
  | label name (some comment) => .commentedLabel name comment
  | code instruction => instruction.line

end StackCodegen.Native
