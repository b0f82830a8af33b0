import StackCodegen.Native.Instruction
import StackCodegen.Native.Platform
import Mathlib.Algebra.Group.Int.Defs
import Mathlib.Logic.Function.Basic
import Mathlib.Logic.Relation

/-!
# Execution of native code

The processor on a list of directives, labels and instructions. Words are tagged: a 32-bit integer,
an address, or a place in the code. Addresses are integers without bounds, and so is the stack.
Memory maps the address of a word's first byte to the word; a store tears the words that overlap the
stored one, and a torn word is of no use to any instruction.

Only subtractions and comparisons leave flags that a condition may look at. Division faults on a
zero divisor and where the quotient has no 32 bits. A step without result is a fault, or the code
has been left.

Calls of the two services go to the runtime, by the platform's symbols. It takes its argument from
the top of the stack, answers in `%eax`, and may leave anything in `%eax`, `%ecx`, `%edx`, in the
slots of its arguments, and below them. What it leaves is given by a `Residue`, which may depend on
the whole state.
-/

set_option autoImplicit false

namespace StackCodegen.Native

/-! ## Words -/

/-- One word of a register or of memory. -/
inductive Word where
  | data (value : Int32)
  | address (byte : Int)
  | code (position : Nat)
  | torn
  deriving DecidableEq

/-- Words by the address of their first byte. -/
abbrev Memory := Int → Word

/-- The memory after a store. Words that overlap the stored one are torn. -/
def Memory.store (memory : Memory) (byte : Int) (w : Word) : Memory := fun other =>
  if other = byte then w
  else if byte - 4 < other ∧ other < byte + 4 then .torn
  else memory other

/-- The flags that a subtraction leaves. -/
structure Flags where
  zero : Bool
  sign : Bool
  overflow : Bool
  deriving DecidableEq

/-- The flags of `left - right`. -/
def Flags.ofSub (left right : Int32) : Flags :=
  ⟨left - right = 0, left - right < 0, (left - right).toInt ≠ left.toInt - right.toInt⟩

/-- Whether a condition code holds of some flags. -/
def Condition.holds (f : Flags) : Condition → Bool
  | z => f.zero
  | nz => !f.zero
  | g => !f.zero && f.sign == f.overflow
  | l => f.sign != f.overflow
  | le => f.zero || f.sign != f.overflow
  | ge => f.sign == f.overflow

/-! ## The processor -/

/-- The state of the processor, with the integers not yet read and those written so far. -/
structure Cpu where
  pc : Nat
  registers : Register → Word
  memory : Memory
  flags : Option Flags
  input : List Int32
  output : List Int32

namespace Cpu

/-- The processor with one register set. -/
def set (c : Cpu) (r : Register) (w : Word) : Cpu :=
  { c with registers := Function.update c.registers r w }

/-- The processor with one word of memory set. -/
def store (c : Cpu) (byte : Int) (w : Word) : Cpu := { c with memory := c.memory.store byte w }

/-- The processor with flags as given. -/
def withFlags (c : Cpu) (flags : Option Flags) : Cpu := { c with flags := flags }

/-- The processor at another place of the code. -/
def goto (c : Cpu) (position : Nat) : Cpu := { c with pc := position }

/-- The address a register holds. -/
def address? (c : Cpu) (r : Register) : Option Int :=
  match c.registers r with
  | .address byte => some byte
  | _ => none

/-- The word an operand stands for. -/
def value? (c : Cpu) : Operand → Option Word
  | .immediate value => some (.data (.ofInt value))
  | .register r => some (c.registers r)
  | .memory offset base => (c.address? base).map fun byte => c.memory (byte + offset)

/-- The 32-bit integer an operand stands for. -/
def data? (c : Cpu) (operand : Operand) : Option Int32 :=
  match c.value? operand with
  | some (.data value) => some value
  | _ => none

/-- The processor with the word of an operand set. -/
def write? (c : Cpu) (w : Word) : Operand → Option Cpu
  | .immediate _ => none
  | .register r => some (c.set r w)
  | .memory offset base => (c.address? base).map fun byte => c.store (byte + offset) w

/-- The processor with a word pushed. -/
def push? (c : Cpu) (w : Word) : Option Cpu :=
  (c.address? .esp).map fun byte => (c.set .esp (.address (byte - 4))).store (byte - 4) w

/-- The word on top of the stack, and the processor with it popped. -/
def pop? (c : Cpu) : Option (Word × Cpu) :=
  (c.address? .esp).map fun byte => (c.memory byte, c.set .esp (.address (byte + 4)))

/-- An operation on the 32-bit integers of source and destination. -/
def operate? (c : Cpu) (source destination : Operand) (flags : Int32 → Int32 → Option Flags)
    (f : Int32 → Int32 → Int32) : Option Cpu :=
  match c.data? destination, c.data? source with
  | some left, some right =>
    (c.withFlags (flags left right)).write? (.data (f left right)) destination
  | _, _ => none

/-- A register moved by a constant, if it holds an address. -/
def move? (c : Cpu) (offset : Int) (r : Register) : Option Cpu :=
  (c.address? r).map fun byte => (c.withFlags none).set r (.address (byte + offset))

/-- The division of `%edx` and `%eax` together by an integer. -/
def divide? (c : Cpu) (divisor : Int32) : Option Cpu :=
  match c.data? (.register .edx), c.data? (.register .eax) with
  | some high, some low =>
    let dividend := high.toInt * 2 ^ 32 + low.toInt % 2 ^ 32
    let quotient := dividend.tdiv divisor.toInt
    if divisor = 0 ∨ quotient < -2 ^ 31 ∨ 2 ^ 31 ≤ quotient then
      none
    else
      some (((c.withFlags none).set .eax (.data (.ofInt quotient))).set .edx
        (.data (.ofInt (dividend.tmod divisor.toInt))))
  | _, _ => none

end Cpu

/-! ## The runtime -/

/-- What a call of the runtime leaves in the registers and in the memory it may use. -/
structure Residue where
  eax : Word
  ecx : Word
  edx : Word
  memory : Memory

/-- What the runtime leaves, in whatever way it comes to do so. -/
abbrev Runtime := Cpu → Residue

namespace Cpu

/-- The processor after a call of the runtime whose arguments end at `limit`. -/
def returned (c : Cpu) (residue : Residue) (limit : Int) (answer : Word) : Cpu :=
  { c with
    registers := fun
      | .eax => answer
      | .ecx => residue.ecx
      | .edx => residue.edx
      | r => c.registers r
    memory := fun byte => if byte < limit then residue.memory byte else c.memory byte
    flags := none }

/-- A call of one of the services. -/
def service? (c : Cpu) (residue : Residue) : Intrinsic → Option Cpu
  | .read =>
    match c.address? .esp, c.input with
    | some byte, value :: input =>
      some { c.returned residue byte (.data value) with input := input }
    | _, _ => none
  | .write =>
    match c.address? .esp with
    | some byte =>
      match c.memory byte with
      | .data value =>
        some { c.returned residue (byte + 4) residue.eax with output := c.output ++ [value] }
      | _ => none
    | none => none

end Cpu

/-! ## Steps -/

/-- Recogniser for the label of a name. -/
def Item.isLabel (name : String) : Item → Bool
  | label name' _ => name' == name
  | _ => false

/-- Code to run: its elements, the symbols of the platform, and the runtime it is linked with. -/
structure Executable where
  items : List Item
  platform : Platform
  runtime : Runtime

namespace Executable

/-- The place of a label. -/
def position? (x : Executable) (name : String) : Option Nat :=
  x.items.findIdx? (Item.isLabel name)

/-- The service that a symbol links to. -/
def service? (x : Executable) (symbol : String) : Option Intrinsic :=
  [Intrinsic.read, .write].find? fun service => x.platform.symbol service.symbol == symbol

/-- A call: of the code at a label, or of the runtime. The processor stands behind the call. -/
def call? (x : Executable) (c : Cpu) (symbol : String) : Option Cpu :=
  match x.position? symbol, x.service? symbol with
  | some position, _ => (c.push? (.code c.pc)).map (·.goto position)
  | none, some service => c.service? (x.runtime c) service
  | none, none => none

/-- One instruction. The processor stands behind it. -/
def execute? (x : Executable) (c : Cpu) : Instruction → Option Cpu
  | .push source => do c.push? (← c.value? source)
  | .pop destination => do
    let (w, c) ← c.pop?
    c.write? w destination
  | .mov source destination => do c.write? (← c.value? source) destination
  | .add (.immediate value) (.register .esp) => c.move? value .esp
  | .sub (.immediate value) (.register .esp) => c.move? (-value) .esp
  | .add source destination => c.operate? source destination (fun _ _ => none) (· + ·)
  | .sub source destination => c.operate? source destination (some <| .ofSub · ·) (· - ·)
  | .imul source destination => c.operate? source destination (fun _ _ => none) (· * ·)
  | .and source destination => c.operate? source destination (fun _ _ => none) (· &&& ·)
  | .or source destination => c.operate? source destination (fun _ _ => none) (· ||| ·)
  | .neg destination => do
    let value ← c.data? destination
    (c.withFlags none).write? (.data (-value)) destination
  | .cmp source destination => do
    let left ← c.data? destination
    let right ← c.data? source
    return c.withFlags (some (.ofSub left right))
  | .cltd => do
    let value ← c.data? (.register .eax)
    return c.set .edx (.data (if value < 0 then -1 else 0))
  | .idiv source => do c.divide? (← c.data? source)
  | .set condition => do
    let flags ← c.flags
    let value ← c.data? (.register .eax)
    return c.set .eax (.data ((value &&& -256) ||| if condition.holds flags then 1 else 0))
  | .jmp label => (x.position? label).map c.goto
  | .jz label => do
    let flags ← c.flags
    if flags.zero then (x.position? label).map c.goto else some c
  | .call symbol => x.call? c symbol
  | .leave => do
    let (w, c) ← (c.set .esp (c.registers .ebp)).pop?
    return c.set .ebp w
  | .ret => do
    let (w, c) ← c.pop?
    match w with
    | .code position => return c.goto position
    | _ => none

/-- One step. Directives and labels take no effect. -/
def step? (x : Executable) (c : Cpu) : Option Cpu :=
  match x.items[c.pc]? with
  | some (.code insn) => x.execute? (c.goto (c.pc + 1)) insn
  | some _ => some (c.goto (c.pc + 1))
  | none => none

/-- One step that is taken. -/
def Step (x : Executable) (c d : Cpu) : Prop := x.step? c = some d

/-- Any number of steps. -/
abbrev Steps (x : Executable) : Cpu → Cpu → Prop := Relation.ReflTransGen x.Step

end Executable

end StackCodegen.Native
