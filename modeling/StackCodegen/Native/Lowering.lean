import StackCodegen.CodegenError
import StackCodegen.Native.Frame
import StackCodegen.Native.Instruction
import StackCodegen.Native.Platform
import StackCodegen.Program.Basic

/-!
# Lowering to native code

Every function becomes a block of code. The machine stack below the frame is the function's operand
stack; `%eax` and `%ecx` hold the operands of one statement and `%eax` the value returned.

A block opens with its symbol and the frame, has the label `NAME_l<i>` before the code of statement
`i`, and ends with the label of its length. Unless the body ends in a return that nothing jumps
past, that last label is followed by a return of 0.

Arguments are pushed in order by the caller, the first one deepest. A call copies them from the top
down, so that the callee finds the first one nearest, and afterwards releases both copies and
originals.

A program is refused if the symbol of a function is also the label of a statement, or if a statement
cannot be lowered; the first such function or statement is reported, symbols before statements.
-/

set_option autoImplicit false

namespace StackCodegen.Native

open Instruction

/-- Shorthand for a register operand. -/
def reg (r : Register) : Operand := .register r

/-! ## Statements -/

/-- The code of a binary operator between the two pops and the push, and the register of its
result. The right operand is in `%ecx`, the left one in `%eax`. -/
def binaryCore : BinaryOp → List Instruction × Register
  | .add => ([add (reg .ecx) (reg .eax)], .eax)
  | .sub => ([sub (reg .ecx) (reg .eax)], .eax)
  | .mul => ([imul (reg .ecx) (reg .eax)], .eax)
  | .and => ([and (reg .ecx) (reg .eax)], .eax)
  | .or => ([or (reg .ecx) (reg .eax)], .eax)
  | .div => ([cltd, idiv (reg .ecx)], .eax)
  | .rem => ([cltd, idiv (reg .ecx)], .edx)
  | .eq => comparison .z
  | .ne => comparison .nz
  | .gt => comparison .g
  | .lt => comparison .l
  | .le => comparison .le
  | .ge => comparison .ge
where
  comparison (condition : Condition) : List Instruction × Register :=
    ([sub (reg .ecx) (reg .eax), set condition, and (.immediate 1) (reg .eax)], .eax)

/-- The code of a binary operator. -/
def lowerBinary (op : BinaryOp) : List Instruction :=
  let (core, result) := binaryCore op
  [pop (reg .ecx), pop (reg .eax)] ++ core ++ [push (reg result)]

/-- The code of a call with `arity` operands on the stack. Its numbers are 32-bit integers up to
`2 ^ 28` operands. -/
def callSequence (symbol : String) (arity : Nat) (returnsValue : Bool) : List Instruction :=
  let copies := (List.range arity).map fun (j : Nat) => push (.memory (2 * wordSize * j) .esp)
  let release := add (.immediate (wordSize * arity)) (reg .esp)
  copies ++ [call symbol] ++ (if arity = 0 then [] else [release, release]) ++
    (if returnsValue then [push (reg .eax)] else [])

/-- The code of a call. A function must be defined in the program with as many parameters. -/
def lowerCall (platform : Platform) (program : Program) (callee : Callee) :
    Except CodegenError (List Instruction) :=
  match callee with
  | .intrinsic service =>
    .ok (callSequence (platform.symbol service.symbol) service.arity service.returnsValue)
  | .function declaration =>
    match program.function? declaration.name with
    | some found =>
      if found.declaration.arity = declaration.arity then
        .ok (callSequence (platform.symbol declaration.name) declaration.arity true)
      else
        .error (.unresolvedFunction declaration.name declaration.arity)
    | none => .error (.unresolvedFunction declaration.name declaration.arity)

/-- The code that returns what is in `%eax`. -/
def epilogue : List Instruction := [leave, ret]

/-- The memory word of a variable. -/
def wordOf (function : String) (offsets : Std.TreeMap String Int) (name : String) :
    Except CodegenError Operand :=
  match offsets[name]? with
  | some offset => .ok (.memory offset .ebp)
  | none => .error (.unresolvedVariable function name)

/-- The code of statement `index` of a function. -/
def lowerStatement (platform : Platform) (program : Program) (function : Function)
    (offsets : Std.TreeMap String Int) (index : Nat) :
    Statement → Except CodegenError (List Instruction)
  | .nop => .ok []
  | .push value => .ok [push (.immediate value.toInt)]
  | .load name => return [push (← wordOf function.name offsets name)]
  | .store name => return [pop (← wordOf function.name offsets name)]
  | .negate => .ok [pop (reg .eax), neg (reg .eax), push (reg .eax)]
  | .binary op => .ok (lowerBinary op)
  | .jump target => return [jmp (← jumpLabel target)]
  | .jumpIfZero target =>
    return [pop (reg .eax), cmp (.immediate 0) (reg .eax), jz (← jumpLabel target)]
  | .call callee => lowerCall platform program callee
  | .returnZero => .ok (mov (.immediate 0) (reg .eax) :: epilogue)
  | .returnTop => .ok (pop (reg .eax) :: epilogue)
  | .pop => .ok [pop (reg .eax)]
  | .prepareArguments => .error (.unsupported .native function.name index .prepareArguments)
where
  jumpLabel (target : UInt64) : Except CodegenError String :=
    statementLabel function.name <$> resolveJump function.name index target function.body.size

/-! ## Functions -/

/-- Whether the end of a body is reached: it does not end in a return, or something jumps there. -/
def needsImplicitReturn (body : Body) : Bool :=
  !(body.back?.any Statement.isReturn) ||
    body.jumpTargets.any fun (_, target) => target.toNat == body.size

/-- The code that opens a frame. -/
def prologue (frame : Frame) : List Instruction :=
  [push (reg .ebp), mov (reg .esp) (reg .ebp)] ++
    (if 0 < frame.localsSize then [sub (.immediate frame.localsSize) (reg .esp)] else [])

/-- The label and the code after the last statement. -/
def closing (function : Function) : List Item :=
  let last := statementLabel function.name function.body.size
  if needsImplicitReturn function.body then
    .label last (some Statement.returnZero.text) ::
      (mov (.immediate 0) (reg .eax) :: epilogue).map .code
  else
    [.label last none]

/-- The block of a function. -/
def lowerFunction (platform : Platform) (program : Program) (function : Function) :
    Except CodegenError (List Item) := do
  let symbol := platform.symbol function.name
  let frame := Frame.layout function.declaration function.body
  let offsets := frame.table
  let opening := [Item.directive (".globl " ++ symbol), .label symbol none] ++
    (prologue frame).map .code
  let statements ← function.body.toList.zipIdx.mapM fun (statement, index) => do
    let code ← lowerStatement platform program function offsets index statement
    return Item.label (statementLabel function.name index) (some statement.text) ::
      code.map .code
  return opening ++ statements.flatten ++ closing function

/-! ## Programs -/

/-- Every statement label of a function, that of its end included. -/
def statementLabels (function : Function) : List String :=
  (List.range (function.body.size + 1)).map (statementLabel function.name)

/-- The first function whose symbol is also a statement label. -/
def symbolClash? (platform : Platform) (program : Program) : Option Function :=
  let labels := Std.TreeSet.ofList (program.functions.flatMap statementLabels)
  program.functions.find? fun function => labels.contains (platform.symbol function.name)

/-- The code of a program, its functions in order. -/
def compileProgram (platform : Platform) (program : Program) : Except CodegenError (List Item) :=
  match symbolClash? platform program with
  | some function => .error (.symbolClash function.name (platform.symbol function.name))
  | none => do
    let blocks ← program.functions.mapM (lowerFunction platform program)
    return .directive ".text" :: blocks.flatten

/-- The listing of a program. -/
def compileListing (platform : Platform) (program : Program) : Except CodegenError Listing :=
  List.map Item.line <$> compileProgram platform program

/-- The assembly text of a program. -/
def compile (platform : Platform) (program : Program) : Except CodegenError String :=
  Listing.text <$> compileListing platform program

end StackCodegen.Native
