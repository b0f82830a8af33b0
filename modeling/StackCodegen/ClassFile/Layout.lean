import StackCodegen.ClassFile.Instruction
import StackCodegen.CodegenError

/-!
# Layout of a method body

Offsets are given to instructions one after the other. A label stands for the place of its last
`bind`: a position in the instruction list and an offset in the code.

A body is laid out unless it is longer than a class file allows or a label is nowhere bound, in this
order of precedence.
-/

set_option autoImplicit false

namespace StackCodegen.ClassFile

/-- The instructions of a method body over labels `0, …, labelCount - 1`. -/
structure SymbolicCode where
  instructions : Array Instruction
  labelCount : Nat

/-- The place a label is bound at. -/
structure Binding where
  position : Nat
  offset : Nat
  deriving DecidableEq

/-- The places of instructions and labels. -/
structure Layout where
  offsets : Array Nat
  bindings : Array Binding

/-- Longest code of a method. -/
def maxCodeLength : Nat := 65535

namespace Layout

/-- The state of a scan: the offsets given out, the bindings met, and the next offset. -/
structure Scan where
  offsets : Array Nat
  bindings : Array (Option Binding)
  size : Nat

/-- The scan after one more instruction. -/
def Scan.place : Scan → Instruction → Scan
  | ⟨offsets, bindings, size⟩, insn =>
    let bindings := match insn with
      | .bind label => bindings.setIfInBounds label (some ⟨offsets.size, size⟩)
      | _ => bindings
    ⟨offsets.push size, bindings, size + insn.size⟩

/-- The scan of a whole body. -/
def scan (code : SymbolicCode) : Scan :=
  code.instructions.foldl Scan.place ⟨#[], .replicate code.labelCount none, 0⟩

/-- The layout of a body. -/
def of (code : SymbolicCode) : Except CodegenError Layout :=
  let s := scan code
  if maxCodeLength < s.size then
    .error (.codeTooLarge s.size)
  else
    match s.bindings.findIdx? Option.isNone with
    | some label => .error (.unboundLabel label)
    | none => .ok ⟨s.offsets, s.bindings.filterMap id⟩

/-- The offset of the instruction at a position. -/
def offset (layout : Layout) (position : Nat) : Nat := layout.offsets[position]?.getD 0

end Layout

end StackCodegen.ClassFile
