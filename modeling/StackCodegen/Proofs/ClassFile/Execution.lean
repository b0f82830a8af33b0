import StackCodegen.Proofs.ClassFile.Reader
import Mathlib.Logic.Function.Basic
import Mathlib.Logic.Relation

/-!
# Execution of methods

The virtual machine on one static method of a class that was read. Words are tagged: an integer, a
line of input, an object of one of the library classes that compiled methods use, or an object that
is allocated and not yet initialised. Standard input is a queue of lines that each hold an integer;
`readLine` answers `null` at its end, and `parseInt` throws on `null`.

A step decodes the operation at the program counter. It goes on, returns, throws, or is a
`Violation`: the bytes are no operation, an operand or a local variable is missing or of the wrong
kind, a constant is of the wrong kind, a branch leaves the code, or the operand stack outgrows what
the method declares. A machine that checks classes refuses a method with a reachable violation.

Class and member names are resolved in the constant pool by their bytes. The library members are
those of `Member`; any other name is a violation.
-/

set_option autoImplicit false

namespace StackCodegen.ClassFile

/-! ## Words and members -/

/-- Classes of initialised objects. -/
inductive ObjectKind where
  | arguments
  | inputStream
  | decoder
  | reader
  | printStream
  deriving DecidableEq

/-- One word of the operand stack or of a local variable. A `line` that holds nothing is `null`. A
`fresh` object is told apart from others of its class by the place of its allocation. -/
inductive Value where
  | int (value : Int32)
  | line (content : Option Int32)
  | object (kind : ObjectKind)
  | fresh (kind : ObjectKind) (site : Nat)
  deriving DecidableEq

/-- The library members that methods may use. -/
inductive Member where
  | stdin
  | stdout
  | initDecoder
  | initReader
  | readLine
  | parseInt
  | println
  deriving DecidableEq

/-- A member by name: whether it is a field, the class it belongs to, its name and descriptor. -/
structure Spelling where
  isField : Bool
  owner : Bytes
  name : Bytes
  descriptor : Bytes
  deriving DecidableEq

/-- The spelling of texts. -/
def Spelling.ofTexts (isField : Bool) (owner name descriptor : String) : Spelling :=
  ⟨isField, ModifiedUtf8.encode owner, ModifiedUtf8.encode name, ModifiedUtf8.encode descriptor⟩

namespace Member

/-- Every member. -/
def all : List Member := [stdin, stdout, initDecoder, initReader, readLine, parseInt, println]

/-- How a member is named in a constant pool. -/
def spelling : Member → Spelling
  | stdin => .ofTexts true "java/lang/System" "in" "Ljava/io/InputStream;"
  | stdout => .ofTexts true "java/lang/System" "out" "Ljava/io/PrintStream;"
  | initDecoder => .ofTexts false "java/io/InputStreamReader" "<init>" "(Ljava/io/InputStream;)V"
  | initReader => .ofTexts false "java/io/BufferedReader" "<init>" "(Ljava/io/Reader;)V"
  | readLine => .ofTexts false "java/io/BufferedReader" "readLine" "()Ljava/lang/String;"
  | parseInt => .ofTexts false "java/lang/Integer" "parseInt" "(Ljava/lang/String;)I"
  | println => .ofTexts false "java/io/PrintStream" "println" "(I)V"

/-- The opcode a member is used with. -/
def opcode : Member → Opcode
  | stdin | stdout => .getstatic
  | initDecoder | initReader => .invokespecial
  | readLine | println => .invokevirtual
  | parseInt => .invokestatic

end Member

namespace StoredPool

/-- The bytes of the text at an index. -/
def text? (pool : StoredPool) (index : UInt16) : Option Bytes :=
  match pool.get? index with
  | some (.utf8 body) => some body
  | _ => none

/-- The name of the class at an index. -/
def className? (pool : StoredPool) (index : UInt16) : Option Bytes :=
  match pool.get? index with
  | some (.classRef name) => pool.text? name
  | _ => none

/-- The name and the descriptor at an index. -/
def nameAndType? (pool : StoredPool) (index : UInt16) : Option (Bytes × Bytes) :=
  match pool.get? index with
  | some (.nameAndType name descriptor) =>
    match pool.text? name, pool.text? descriptor with
    | some name, some descriptor => some (name, descriptor)
    | _, _ => none
  | _ => none

/-- The spelling of a member given by its class and its name with descriptor. -/
def spellingOf? (pool : StoredPool) (isField : Bool) (owner member : UInt16) : Option Spelling :=
  match pool.className? owner, pool.nameAndType? member with
  | some owner, some (name, descriptor) => some ⟨isField, owner, name, descriptor⟩
  | _, _ => none

/-- The spelling of the member at an index. -/
def spelling? (pool : StoredPool) (index : UInt16) : Option Spelling :=
  match pool.get? index with
  | some (.fieldRef owner member) => pool.spellingOf? true owner member
  | some (.methodRef owner member) => pool.spellingOf? false owner member
  | _ => none

/-- The library member at an index. -/
def member? (pool : StoredPool) (index : UInt16) : Option Member :=
  match pool.spelling? index with
  | some spelling => Member.all.find? fun m => m.spelling == spelling
  | none => none

/-- The class of the objects that `new` allocates, at an index. -/
def allocated? (pool : StoredPool) (index : UInt16) : Option ObjectKind :=
  match pool.className? index with
  | some name =>
    if name = ModifiedUtf8.encode "java/io/InputStreamReader" then some .decoder
    else if name = ModifiedUtf8.encode "java/io/BufferedReader" then some .reader
    else none
  | none => none

/-- The integer at an index. -/
def integer? (pool : StoredPool) (index : UInt16) : Option Int32 :=
  match pool.get? index with
  | some (.integer value) => some value
  | _ => none

end StoredPool

/-! ## Meaning of opcodes -/

namespace Opcode

/-- The integer that a constant opcode pushes. -/
def constant? : Opcode → Option Int32
  | iconstM1 => some (-1)
  | iconst0 => some 0
  | iconst1 => some 1
  | iconst2 => some 2
  | iconst3 => some 3
  | iconst4 => some 4
  | iconst5 => some 5
  | _ => none

/-- The result of an operator on its left and right operands, `none` where it throws. Arithmetic
wraps, and only division by zero throws. -/
def operator? : Opcode → Option (Int32 → Int32 → Option Int32)
  | iadd => some fun a b => some (a + b)
  | isub => some fun a b => some (a - b)
  | imul => some fun a b => some (a * b)
  | idiv => some fun a b => if b = 0 then none else some (a / b)
  | irem => some fun a b => if b = 0 then none else some (a % b)
  | iand => some fun a b => some (a &&& b)
  | ior => some fun a b => some (a ||| b)
  | _ => none

/-- The condition on its two operands under which a branch is taken. -/
def condition? : Opcode → Option (Int32 → Int32 → Bool)
  | ifIcmpeq => some fun a b => a = b
  | ifIcmpne => some fun a b => a ≠ b
  | ifIcmplt => some fun a b => a < b
  | ifIcmpge => some fun a b => b ≤ a
  | ifIcmpgt => some fun a b => b < a
  | ifIcmple => some fun a b => a ≤ b
  | _ => none

end Opcode

/-! ## Steps -/

/-- A method ready to run: the constants of its class, its code, and the sizes it declares. -/
structure Executable where
  constants : StoredPool
  code : Bytes
  maxStack : UInt16
  maxLocals : UInt16

/-- The state of a method: the program counter, the operand stack with its top first, the local
variables, the lines not yet read, and the integers printed so far. -/
structure Frame where
  pc : Nat
  stack : List Value
  locals : UInt16 → Option Value
  input : List Int32
  output : List Int32

/-- What a checking machine refuses. -/
inductive Violation where
  | undecodable
  | operands
  | locals
  | constants
  | branch
  | overflow
  deriving DecidableEq

/-- What a step leads to. A method that throws has done nothing else in that step. -/
inductive Outcome where
  | running (frame : Frame)
  | returned (frame : Frame)
  | thrown (frame : Frame)
  | violation (cause : Violation)

/-- Words with one object initialised. -/
def Value.initialise (kind : ObjectKind) (site : Nat) (v : Value) : Value :=
  if v = .fresh kind site then .object kind else v

namespace Frame

/-- The frame further on, with another operand stack. -/
def resume (f : Frame) (next : Nat) (stack : List Value) : Outcome :=
  .running { f with pc := next, stack := stack }

/-- The frame further on, with an object initialised wherever it is held. -/
def initialise (f : Frame) (next : Nat) (kind : ObjectKind) (site : Nat) (stack : List Value) :
    Outcome :=
  .running
    { f with
      pc := next
      stack := stack.map (Value.initialise kind site)
      locals := fun n => (f.locals n).map (Value.initialise kind site) }

/-- The use of a library member. -/
def use (f : Frame) (next : Nat) (m : Member) : Outcome :=
  match m, f.stack with
  | .stdin, stack => f.resume next (.object .inputStream :: stack)
  | .stdout, stack => f.resume next (.object .printStream :: stack)
  | .initDecoder, .object .inputStream :: .fresh .decoder site :: stack =>
    f.initialise next .decoder site stack
  | .initReader, .object .decoder :: .fresh .reader site :: stack =>
    f.initialise next .reader site stack
  | .readLine, .object .reader :: stack =>
    .running
      { f with pc := next, stack := .line f.input.head? :: stack, input := f.input.tail }
  | .parseInt, .line (some value) :: stack => f.resume next (.int value :: stack)
  | .parseInt, .line none :: _ => .thrown f
  | .println, .int value :: .object .printStream :: stack =>
    .running { f with pc := next, stack := stack, output := f.output ++ [value] }
  | _, _ => .violation .operands

/-- An operation without operands behind its opcode. -/
def plain (f : Frame) (next : Nat) (op : Opcode) : Outcome :=
  match op, f.stack with
  | .nop, stack => f.resume next stack
  | .pop, _ :: stack => f.resume next stack
  | .dup, v :: stack => f.resume next (v :: v :: stack)
  | .swap, v :: w :: stack => f.resume next (w :: v :: stack)
  | .ineg, .int a :: stack => f.resume next (.int (-a) :: stack)
  | .returnVoid, _ => .returned f
  | op, stack =>
    match op.constant?, op.operator?, stack with
    | some value, _, stack => f.resume next (.int value :: stack)
    | none, some operator, .int right :: .int left :: stack =>
      match operator left right with
      | some value => f.resume next (.int value :: stack)
      | none => .thrown f
    | _, _, _ => .violation .operands

/-- An access to a local variable. -/
def access (e : Executable) (f : Frame) (next : Nat) (op : Opcode) (number : UInt16) : Outcome :=
  if e.maxLocals ≤ number then
    .violation .locals
  else
    match op, f.locals number, f.stack with
    | .iload, some (.int value), stack => f.resume next (.int value :: stack)
    | .aload, some (.object kind), stack => f.resume next (.object kind :: stack)
    | .istore, _, .int value :: stack =>
      .running
        { f with
          pc := next
          stack := stack
          locals := Function.update f.locals number (some (.int value)) }
    | .astore, _, .object kind :: stack =>
      .running
        { f with
          pc := next
          stack := stack
          locals := Function.update f.locals number (some (.object kind)) }
    | _, _, _ => .violation .locals

/-- The use of a constant by an opcode. -/
def useConstant (e : Executable) (f : Frame) (next : Nat) (op : Opcode) (index : UInt16) :
    Outcome :=
  match op, e.constants.integer? index, e.constants.allocated? index, e.constants.member? index with
  | .ldc, some value, _, _ | .ldcW, some value, _, _ => f.resume next (.int value :: f.stack)
  | .new, _, some kind, _ => f.resume next (.fresh kind f.pc :: f.stack)
  | op, _, _, some m => if m.opcode = op then f.use next m else .violation .constants
  | _, _, _, _ => .violation .constants

/-- A jump over a signed distance. -/
def jump (f : Frame) (distance : Int) (stack : List Value) : Outcome :=
  if f.pc + distance < 0 then .violation .branch else f.resume (f.pc + distance).toNat stack

/-- A branch, taken or not. -/
def branch (f : Frame) (next : Nat) (op : Opcode) (distance : Int) : Outcome :=
  match op, op.condition?, f.stack with
  | .goto, _, stack => f.jump distance stack
  | _, some condition, .int right :: .int left :: stack =>
    if condition left right then f.jump distance stack else f.resume next stack
  | _, _, _ => .violation .operands

/-- One operation, the one behind it starting at `next`. -/
def execute (e : Executable) (f : Frame) (next : Nat) : Operation → Outcome
  | .plain op => f.plain next op
  | .byte .bipush operand => f.resume next (.int operand.toInt8.toInt32 :: f.stack)
  | .byte op operand => useConstant e f next op operand.toUInt16
  | .short .sipush operand => f.resume next (.int operand.toInt16.toInt32 :: f.stack)
  | .short op operand => useConstant e f next op operand
  | .slot op number => access e f next op number
  | .branch op distance => f.branch next op distance

/-! ### Plain operations on a given stack -/

section Plain

variable {e : Executable} {f : Frame} {next : Nat} {v w : Value} {stack : List Value}
  {op : Opcode} {operator : Int32 → Int32 → Option Int32}

theorem execute_pop (h : f.stack = v :: stack) :
    f.execute e next (.plain .pop) = f.resume next stack := by
  obtain ⟨pc, _, locals, input, output⟩ := f
  cases h
  rfl

theorem execute_dup (h : f.stack = v :: stack) :
    f.execute e next (.plain .dup) = f.resume next (v :: v :: stack) := by
  obtain ⟨pc, _, locals, input, output⟩ := f
  cases h
  rfl

theorem execute_swap (h : f.stack = v :: w :: stack) :
    f.execute e next (.plain .swap) = f.resume next (w :: v :: stack) := by
  obtain ⟨pc, _, locals, input, output⟩ := f
  cases h
  rfl

theorem execute_ineg {a : Int32} (h : f.stack = .int a :: stack) :
    f.execute e next (.plain .ineg) = f.resume next (.int (-a) :: stack) := by
  obtain ⟨pc, _, locals, input, output⟩ := f
  cases h
  rfl

/-- An operation that takes operands is refused on an empty stack. -/
theorem execute_of_empty (hpops : op.stackEffect.1 ≠ 0) (h : f.stack = []) :
    f.execute e next (.plain op) = .violation .operands := by
  obtain ⟨pc, _, locals, input, output⟩ := f
  cases h
  cases op <;> first | rfl | exact absurd rfl hpops

theorem plain_operator (h : op.operator? = some operator) {right left : Int32}
    (hstack : f.stack = .int right :: .int left :: stack) :
    f.plain next op =
      match operator left right with
      | some value => f.resume next (.int value :: stack)
      | none => .thrown f := by
  obtain ⟨pc, _, locals, input, output⟩ := f
  cases hstack
  cases op <;> cases h <;> rfl

theorem plain_operator_short (h : op.operator? = some operator) (hstack : f.stack.length < 2) :
    f.plain next op = .violation .operands := by
  obtain ⟨pc, operands, locals, input, output⟩ := f
  rcases operands with _ | ⟨v, _ | ⟨w, stack⟩⟩
  · cases op <;> cases h <;> rfl
  · cases op <;> cases h <;> cases v <;> rfl
  · exact absurd hstack (Nat.not_lt.2 (Nat.le_add_left 2 _))

end Plain

end Frame

namespace Executable

/-- An outcome whose operand stack the method makes room for. -/
def bounded (e : Executable) : Outcome → Outcome
  | .running f => if f.stack.length ≤ e.maxStack.toNat then .running f else .violation .overflow
  | outcome => outcome

/-- One step: the operation at the program counter. -/
def step (e : Executable) (f : Frame) : Outcome :=
  match decode? (e.code.drop f.pc) with
  | some (operation, size) => e.bounded (f.execute e (f.pc + size) operation)
  | none => .violation .undecodable

/-- What goes on within bounds goes on. -/
theorem running_of_bounded {e : Executable} {outcome : Outcome} {g : Frame}
    (h : e.bounded outcome = .running g) : outcome = .running g := by
  cases outcome with
  | running f =>
      rw [bounded] at h
      split at h
      · exact h
      · cases h
  | returned f | thrown f | violation cause => exact h

/-- A static method is entered with its argument in the first local variable. -/
def start (input : List Int32) : Frame :=
  ⟨0, [], Function.update (fun _ => none) 0 (some (.object .arguments)), input, []⟩

/-- One frame after another. -/
def Step (e : Executable) (f g : Frame) : Prop := e.step f = .running g

/-- Any number of steps. -/
abbrev Steps (e : Executable) : Frame → Frame → Prop := Relation.ReflTransGen e.Step

/-- The frames that a method meets on some input. -/
def Reaches (e : Executable) (input : List Int32) (f : Frame) : Prop := e.Steps (start input) f

end Executable

namespace StoredClass

/-- The public static method that a program starts in. -/
def main? (c : StoredClass) : Option Method :=
  c.methods.find? fun m =>
    m.accessFlags == accPublic ||| accStatic && c.constants.isText "main" m.nameIndex &&
      c.constants.isText "([Ljava/lang/String;)V" m.descriptorIndex

/-- The method that a program starts in, ready to run. -/
def executable? (c : StoredClass) : Option Executable :=
  c.main?.map fun m => ⟨c.constants, m.code, m.maxStack, m.maxLocals⟩

end StoredClass

end StackCodegen.ClassFile
