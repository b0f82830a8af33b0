import StackCodegen.Managed.Lowering

/-!
# The managed target

A routine becomes a class with a constructor and one static main method. The steps are the class's
own names, the constructor, the slots, the lowering and assembly of the main method, and the names
of the variable table; the first one that fails gives the error.
-/

set_option autoImplicit false

namespace StackCodegen.Managed

open ClassFile
open ClassFile.ConstantPool (Interning)

/-- Name of the class, and whether its main method has a variable table. -/
structure Options where
  className : String
  debugInfo : Bool
  deriving DecidableEq

/-- The options of an ordinary compilation. -/
def Options.standard : Options := ⟨"Program", true⟩

/-- The descriptor of the main method. -/
def mainDescriptor : String := "([Ljava/lang/String;)V"

/-- Recogniser for names a variable table may hold. -/
def isUnqualifiedName (name : String) : Bool :=
  !name.isEmpty && !name.any fun c => c == '.' || c == ';' || c == '[' || c == '/'

/-- The variable table: the argument, the reader, and each variable whose name is unqualified and
not taken yet. -/
def debugEntries (slots : List (String × UInt16)) : List DebugEntry :=
  let named := slots.filter fun (name, _) =>
    isUnqualifiedName name && name != "args" && name != "input"
  ⟨"args", "[Ljava/lang/String;", argumentSlot⟩ ::
    ⟨"input", "Ljava/io/BufferedReader;", readerSlot⟩ ::
    named.map fun (name, slot) => ⟨name, "I", slot⟩

/-- A class with its constructor, and the main method that it still lacks, not yet assembled. -/
structure Lowered where
  classFile : ClassFile
  slots : List (String × UInt16)
  main : SymbolicCode

/-- A class with its constructor, and the assembled main method that it still lacks. -/
structure Assembled where
  classFile : ClassFile
  slots : List (String × UInt16)
  main : MethodCode

/-- Slots of the main method. -/
def Assembled.maxLocals (a : Assembled) : UInt16 := .ofNat (firstVariableSlot + a.slots.length)

/-- The value computed on the pool of a class, and the class with the constants added. -/
def interned {α : Type} (c : ClassFile) (x : Interning α) : Except CodegenError (α × ClassFile) :=
  match c.intern x with
  | (.ok a, c) => .ok (a, c)
  | (.error e, _) => .error e

/-- The class with one more method. -/
def withMethod (c : ClassFile) (accessFlags : UInt16) (name descriptor : String)
    (body : MethodCode) (maxLocals : UInt16) (entries : List DebugEntry) :
    Except CodegenError ClassFile :=
  match c.addMethod accessFlags name descriptor body maxLocals entries with
  | (.ok (), c) => .ok c
  | (.error e, _) => .error e

/-- All steps up to the lowering of the main method. -/
def lowerClass (className : String) (body : Body) : Except CodegenError Lowered := do
  let c ← ClassFile.create className objectClass
  let (constructor, c) ← interned c lowerConstructor
  let c ← withMethod c accPublic "<init>" "()V" (← constructor.assemble) 1 []
  let slots ← allocateSlots body
  let (main, c) ← interned c (lowerMain slots body)
  return ⟨c, slots, main⟩

/-- All steps up to the assembly of the main method. -/
def assembleMain (className : String) (body : Body) : Except CodegenError Assembled := do
  let lowered ← lowerClass className body
  return ⟨lowered.classFile, lowered.slots, ← lowered.main.assemble⟩

/-- The class with its main method. -/
def Assembled.finish (a : Assembled) (debugInfo : Bool) : Except CodegenError ClassFile :=
  withMethod a.classFile (accPublic ||| accStatic) routineName mainDescriptor a.main a.maxLocals
    (if debugInfo then debugEntries a.slots else [])

/-- The class of a routine. -/
def compileClass (options : Options) (body : Body) : Except CodegenError ClassFile := do
  (← assembleMain options.className body).finish options.debugInfo

/-- The class file of a routine. -/
def compile (options : Options) (body : Body) : Except CodegenError Bytes :=
  ClassFile.bytes <$> compileClass options body

end StackCodegen.Managed
