import StackCodegen.ClassFile.Bytes
import StackCodegen.ClassFile.Opcode

/-!
# Symbolic instructions

The instructions of a method body before its layout is known. Jumps name labels, and a label is
bound at a place in the list by `bind`, which takes no bytes.

`Instruction.size` is what layout counts and `Instruction.encode` is what is written. They agree
whenever `slot` is used with an opcode that has one-byte forms; for another opcode and a slot below
4, one byte is counted and two are written.
-/

set_option autoImplicit false

namespace StackCodegen.ClassFile

/-- Labels are numbered from 0. -/
abbrev Label := Nat

/-- One symbolic instruction. `slot` accesses a local variable, and `member` a field, method or
class of the constant pool, with its stack effect. -/
inductive Instruction where
  | plain (op : Opcode)
  | byte (op : Opcode) (operand : UInt8)
  | short (op : Opcode) (operand : UInt16)
  | slot (op : Opcode) (number : UInt16)
  | member (op : Opcode) (index : UInt16) (pops pushes : UInt16)
  | jump (op : Opcode) (target : Label)
  | bind (label : Label)
  deriving DecidableEq

namespace Instruction

/-- Bytes an instruction counts in the layout. -/
def size : Instruction → Nat
  | plain _ => 1
  | byte _ _ => 2
  | short _ _ | member .. | jump _ _ => 3
  | slot _ number => if number ≤ 3 then 1 else if number ≤ 255 then 2 else 4
  | bind _ => 0

/-- Words taken off and put on the operand stack. -/
def stackEffect : Instruction → Nat × Nat
  | plain op | byte op _ | short op _ | slot op _ | jump op _ => op.stackEffect
  | member _ _ pops pushes => (pops.toNat, pushes.toNat)
  | bind _ => (0, 0)

/-- The bytes of an instruction, those of a jump with distance 0. -/
def encode : Instruction → Bytes
  | plain op => [op.byte]
  | byte op operand => [op.byte, operand]
  | short op operand => op.byte :: u2 operand
  | slot op number =>
    if number ≤ 255 then
      match op.shortFormBase? with
      | some base => if number ≤ 3 then [base + number.toUInt8] else [op.byte, number.toUInt8]
      | none => [op.byte, number.toUInt8]
    else
      Opcode.wide.byte :: op.byte :: u2 number
  | member op index _ _ => op.byte :: u2 index
  | jump op _ => [op.byte, 0, 0]
  | bind _ => []

end Instruction

end StackCodegen.ClassFile
