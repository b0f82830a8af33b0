import StackCodegen.CodegenError
import StackCodegen.Program.Variables

/-!
# Slots of the managed target

Slot 0 of the main method holds its argument, slot 1 the reader on standard input, and every
variable of the routine has a slot of its own from 2 upward, in order of first occurrence.
-/

set_option autoImplicit false

namespace StackCodegen.Managed

/-- The slot of the method's argument. -/
def argumentSlot : UInt16 := 0

/-- The slot of the reader on standard input. -/
def readerSlot : UInt16 := 1

/-- The slot of the first variable. -/
def firstVariableSlot : Nat := 2

/-- Each variable of a body with its slot, unless slots run out. -/
def allocateSlots (body : Body) : Except CodegenError (List (String × UInt16)) :=
  let names := body.variableNames
  let count := firstVariableSlot + names.length
  if 65535 < count then
    .error (.tooManyLocals count)
  else
    .ok (names.zipIdx.map fun (name, i) => (name, .ofNat (firstVariableSlot + i)))

end StackCodegen.Managed
