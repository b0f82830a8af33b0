import StackCodegen.ClassFile.Basic
import StackCodegen.Managed.Slots

/-!
# Lowering to symbolic instructions

One routine becomes the body of one method. Label `i` stands for statement `i`, the label of the
routine's length for its end; a comparison takes two labels of its own.

The body opens a reader on standard input and stores it, sets every variable to 0, goes through the
statements, and returns. Every statement leaves the operands it would leave on the routine's own
stack:

* a constant is the shortest of `iconst`, `bipush`, `sipush`, `ldc` and `ldc_w` that holds it;
* a conditional jump compares with a pushed 0;
* a comparison branches on the opposite condition around a 1 to a 0.

Calls of functions and returns are not provided.
-/

set_option autoImplicit false

namespace StackCodegen.Managed

open ClassFile
open ClassFile.ConstantPool (Interning)

/-! ## Names of the class library -/

/-- The root class. -/
def objectClass : String := "java/lang/Object"

/-- The class of the standard streams. -/
def systemClass : String := "java/lang/System"

/-- The class that reads integers from text. -/
def integerClass : String := "java/lang/Integer"

/-- The class of standard output. -/
def printStreamClass : String := "java/io/PrintStream"

/-- The class that decodes standard input. -/
def inputStreamReaderClass : String := "java/io/InputStreamReader"

/-- The class that splits standard input into lines. -/
def bufferedReaderClass : String := "java/io/BufferedReader"

/-- The routine's name in error reports, and the name of the method. -/
def routineName : String := "main"

/-! ## Statements -/

/-- A lowering adds constants and takes fresh labels. -/
abbrev Lowering := StateT Label Interning

/-- A label not used so far. -/
def freshLabel : Lowering Label := fun next => pure (next, next + 1)

/-- The instruction that pushes a constant. -/
def pushConstant (value : Int32) : Interning Instruction :=
  match Opcode.iconst? value with
  | some op => pure (.plain op)
  | none =>
    if -128 ≤ value.toInt ∧ value.toInt ≤ 127 then
      pure (.byte .bipush value.toInt8.toUInt8)
    else if -32768 ≤ value.toInt ∧ value.toInt ≤ 32767 then
      pure (.short .sipush value.toInt16.toUInt16)
    else do
      let index ← ConstantPool.integer value
      if index ≤ 255 then
        return .byte .ldc index.toUInt8
      else
        return .short .ldcW index

/-- The branch taken where a comparison fails. -/
def otherwiseBranch? : BinaryOp → Option Opcode
  | .eq => some .ifIcmpne
  | .ne => some .ifIcmpeq
  | .gt => some .ifIcmple
  | .lt => some .ifIcmpge
  | .ge => some .ifIcmplt
  | .le => some .ifIcmpgt
  | _ => none

/-- The opcode of an operator that is no comparison. -/
def arithmetic? : BinaryOp → Option Opcode
  | .add => some .iadd
  | .sub => some .isub
  | .mul => some .imul
  | .div => some .idiv
  | .rem => some .irem
  | .and => some .iand
  | .or => some .ior
  | _ => none

/-- The diamond of a comparison: 1 where the branch is not taken, else 0. -/
def comparison (branch : Opcode) (otherwise after : Label) : List Instruction :=
  [.jump branch otherwise, .plain .iconst1, .jump .goto after, .bind otherwise, .plain .iconst0,
    .bind after]

/-- The instructions of a binary operator. -/
def lowerBinary (op : BinaryOp) : Lowering (List Instruction) :=
  match otherwiseBranch? op with
  | some branch => do
    let otherwise ← freshLabel
    let after ← freshLabel
    return comparison branch otherwise after
  | none => return (arithmetic? op).toList.map .plain

/-- The instructions that read one integer: a line of the reader, parsed. -/
def lowerRead : Interning (List Instruction) := do
  let readLine ← ConstantPool.methodRef bufferedReaderClass "readLine" "()Ljava/lang/String;"
  let parseInt ← ConstantPool.methodRef integerClass "parseInt" "(Ljava/lang/String;)I"
  return [.slot .aload readerSlot, .member .invokevirtual readLine 1 1,
    .member .invokestatic parseInt 1 1]

/-- The instructions that print one integer on a line. -/
def lowerWrite : Interning (List Instruction) := do
  let out ← ConstantPool.fieldRef systemClass "out" "Ljava/io/PrintStream;"
  let println ← ConstantPool.methodRef printStreamClass "println" "(I)V"
  return [.member .getstatic out 0 1, .plain .swap, .member .invokevirtual println 2 0]

/-- The slot of a variable. -/
def slotOf (slots : Std.TreeMap String UInt16) (name : String) : Except CodegenError UInt16 :=
  match slots[name]? with
  | some slot => .ok slot
  | none => .error (.unresolvedVariable routineName name)

/-- The instructions of statement `index` of a routine of `length` statements. -/
def lowerStatement (slots : Std.TreeMap String UInt16) (length index : Nat) :
    Statement → Lowering (List Instruction)
  | .nop => return [.plain .nop]
  | .push value => return [← pushConstant value]
  | .load name => do
    let slot ← liftExcept (slotOf slots name)
    return [.slot .iload slot]
  | .store name => do
    let slot ← liftExcept (slotOf slots name)
    return [.slot .istore slot]
  | .negate => return [.plain .ineg]
  | .binary op => lowerBinary op
  | .jump target => do
    let label ← liftExcept (resolveJump routineName index target length)
    return [.jump .goto label]
  | .jumpIfZero target => do
    let label ← liftExcept (resolveJump routineName index target length)
    return [.plain .iconst0, .jump .ifIcmpeq label]
  | .call (.intrinsic .read) => lowerRead
  | .call (.intrinsic .write) => lowerWrite
  | .pop => return [.plain .pop]
  | .call (.function declaration) => unsupported (.call (.function declaration))
  | .returnZero => unsupported .returnZero
  | .returnTop => unsupported .returnTop
  | .prepareArguments => unsupported .prepareArguments
where
  /-- A result without effect on pool and labels. -/
  liftExcept {α : Type} : Except CodegenError α → Lowering α
    | .ok a => pure a
    | .error e => throw e
  unsupported (statement : Statement) : Lowering (List Instruction) :=
    throw (.unsupported .managed routineName index statement)

/-! ## Method bodies -/

/-- The instructions that open the reader on standard input. -/
def openReader : Interning (List Instruction) := do
  let reader ← ConstantPool.classRef bufferedReaderClass
  let decoder ← ConstantPool.classRef inputStreamReaderClass
  let stdin ← ConstantPool.fieldRef systemClass "in" "Ljava/io/InputStream;"
  let initDecoder ← ConstantPool.methodRef inputStreamReaderClass "<init>"
    "(Ljava/io/InputStream;)V"
  let initReader ← ConstantPool.methodRef bufferedReaderClass "<init>" "(Ljava/io/Reader;)V"
  return [.short .new reader, .plain .dup, .short .new decoder, .plain .dup,
    .member .getstatic stdin 0 1, .member .invokespecial initDecoder 2 0,
    .member .invokespecial initReader 2 0, .slot .astore readerSlot]

/-- The instructions that set every variable to 0. -/
def zeroVariables (slots : List (String × UInt16)) : List Instruction :=
  slots.flatMap fun (_, slot) => [.plain .iconst0, .slot .istore slot]

/-- The instructions of all statements, each after the binding of its label. -/
def lowerStatements (slots : Std.TreeMap String UInt16) (body : Body) :
    Lowering (List (List Instruction)) :=
  body.toList.zipIdx.mapM fun (statement, index) => do
    let instructions ← lowerStatement slots body.size index statement
    return .bind index :: instructions

/-- The symbolic code of the main method. -/
def lowerMain (slots : List (String × UInt16)) (body : Body) : Interning SymbolicCode := do
  let opening ← openReader
  let (statements, labelCount) ← (lowerStatements (.ofList slots) body).run (body.size + 1)
  let closing := [Instruction.bind body.size, .plain .returnVoid]
  return ⟨(opening ++ zeroVariables slots ++ statements.flatten ++ closing).toArray, labelCount⟩

/-- The symbolic code of the constructor: that of the superclass is called. -/
def lowerConstructor : Interning SymbolicCode := do
  let init ← ConstantPool.methodRef objectClass "<init>" "()V"
  return ⟨#[.slot .aload 0, .member .invokespecial init 1 0, .plain .returnVoid], 0⟩

end StackCodegen.Managed
