import StackCodegen.ClassFile.StackHeight

/-!
# Assembly of a method body

A body is laid out, its instructions are encoded one after the other, and the distance of each jump
is written behind the jump's own opcode, at the offset the layout gives it. Last, the stack heights
are analysed. Errors have the precedence of these steps, and within the second step that of the
list.
-/

set_option autoImplicit false

namespace StackCodegen.ClassFile

/-- An assembled body. -/
structure MethodCode where
  code : Bytes
  maxStack : UInt16
  labelOffsets : List Nat
  deriving DecidableEq

/-- A branch distance as the two bytes of a signed field. -/
def branchField? (distance : Int) : Option UInt16 :=
  if -32768 ≤ distance ∧ distance ≤ 32767 then
    some (Int16.ofInt distance).toUInt16
  else
    none

/-- Two bytes written over a code at an offset. -/
def writeField (code : Array UInt8) (offset : Nat) (field : UInt16) : Array UInt8 :=
  (code.setIfInBounds offset (field >>> 8).toUInt8).setIfInBounds (offset + 1) field.toUInt8

/-- The code after one more instruction, which the layout puts at `offset`. -/
def appendInstruction (layout : Layout) (code : Array UInt8) (insn : Instruction) (offset : Nat) :
    Except CodegenError (Array UInt8) :=
  match insn with
  | .jump _ target =>
    match layout.bindings[target]? with
    | none => .error (.unboundLabel target)
    | some binding =>
      let distance : Int := binding.offset - offset
      match branchField? distance with
      | none => .error (.branchOutOfRange distance)
      | some field => .ok (writeField (code ++ insn.encode) (offset + 1) field)
  | _ => .ok (code ++ insn.encode)

/-- The bytes of a body under a layout. -/
def encodeBody (layout : Layout) (instructions : Array Instruction) :
    Except CodegenError (Array UInt8) :=
  (instructions.zip layout.offsets).foldlM
    (fun code (insn, offset) => appendInstruction layout code insn offset) #[]

/-- The assembled form of a body. -/
def SymbolicCode.assemble (body : SymbolicCode) : Except CodegenError MethodCode := do
  let layout ← Layout.of body
  let code ← encodeBody layout body.instructions
  let height ← maxHeight body.instructions layout
  return {
    code := code.toList
    maxStack := .ofNat height
    labelOffsets := (layout.bindings.map Binding.offset).toList }

end StackCodegen.ClassFile
