import StackCodegen.Program.Variables
import Std.Data.TreeMap

/-!
# Stack frames

Where the variables of a function live, as offsets in bytes from `%ebp`:

* parameter `i` at `8 + 4 * i`, past the saved `%ebp` at 0 and the return address at 4;
* local `i` at `-4 * (i + 1)`.

Locals are the variables the body names that are no parameters, in order of first occurrence. Of
parameters of one name the first one counts. Offsets and sizes are 32-bit integers for less than
`2 ^ 28` parameters and variables.
-/

set_option autoImplicit false

namespace StackCodegen.Native

/-- Bytes of a stack word. -/
def wordSize : Int := 4

/-- Offset of the first parameter. -/
def firstParameterOffset : Int := 8

/-- Locals and parameters with their offsets, each in order. -/
structure Frame where
  locals : List (String × Int)
  parameters : List (String × Int)
  deriving DecidableEq

namespace Frame

/-- The parameters of a declaration with their offsets. -/
def parameterOffsets (declaration : Declaration) : List (String × Int) :=
  (distinctBy Prod.fst declaration.parameters.zipIdx).map fun (name, i) =>
    (name, firstParameterOffset + wordSize * i)

/-- The locals of a body with their offsets. -/
def localOffsets (declaration : Declaration) (body : Body) : List (String × Int) :=
  let parameters := Std.TreeSet.ofList declaration.parameters
  (body.variableNames.filter fun name => !parameters.contains name).zipIdx.map fun (name, i) =>
    (name, -(wordSize * (i + 1)))

/-- The frame of a function. -/
def layout (declaration : Declaration) (body : Body) : Frame :=
  ⟨localOffsets declaration body, parameterOffsets declaration⟩

/-- Every variable with its offset. -/
def table (frame : Frame) : Std.TreeMap String Int :=
  .ofList (frame.parameters ++ frame.locals)

/-- The offset of a variable. -/
def offset? (frame : Frame) (name : String) : Option Int := frame.table[name]?

/-- Bytes reserved below `%ebp`. -/
def localsSize (frame : Frame) : Int := wordSize * frame.locals.length

end Frame

end StackCodegen.Native
