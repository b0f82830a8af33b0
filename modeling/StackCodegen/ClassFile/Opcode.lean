/-!
# Opcodes

The part of the virtual machine's instruction set that compiled classes use, with the byte, the
mnemonic and the operand-stack effect of each opcode.
-/

set_option autoImplicit false

namespace StackCodegen.ClassFile

/-- One opcode. -/
inductive Opcode where
  | nop
  | iconstM1 | iconst0 | iconst1 | iconst2 | iconst3 | iconst4 | iconst5
  | bipush | sipush | ldc | ldcW
  | iload | aload | iload0 | aload0
  | istore | astore | istore0 | astore0
  | pop | dup | swap
  | iadd | isub | imul | idiv | irem | ineg | iand | ior
  | ifIcmpeq | ifIcmpne | ifIcmplt | ifIcmpge | ifIcmpgt | ifIcmple
  | goto | returnVoid
  | getstatic | invokevirtual | invokespecial | invokestatic
  | new | wide
  deriving DecidableEq

namespace Opcode

/-- The byte an opcode is encoded as. -/
def byte : Opcode → UInt8
  | nop => 0x00
  | iconstM1 => 0x02
  | iconst0 => 0x03
  | iconst1 => 0x04
  | iconst2 => 0x05
  | iconst3 => 0x06
  | iconst4 => 0x07
  | iconst5 => 0x08
  | bipush => 0x10
  | sipush => 0x11
  | ldc => 0x12
  | ldcW => 0x13
  | iload => 0x15
  | aload => 0x19
  | iload0 => 0x1a
  | aload0 => 0x2a
  | istore => 0x36
  | astore => 0x3a
  | istore0 => 0x3b
  | astore0 => 0x4b
  | pop => 0x57
  | dup => 0x59
  | swap => 0x5f
  | iadd => 0x60
  | isub => 0x64
  | imul => 0x68
  | idiv => 0x6c
  | irem => 0x70
  | ineg => 0x74
  | iand => 0x7e
  | ior => 0x80
  | ifIcmpeq => 0x9f
  | ifIcmpne => 0xa0
  | ifIcmplt => 0xa1
  | ifIcmpge => 0xa2
  | ifIcmpgt => 0xa3
  | ifIcmple => 0xa4
  | goto => 0xa7
  | returnVoid => 0xb1
  | getstatic => 0xb2
  | invokevirtual => 0xb6
  | invokespecial => 0xb7
  | invokestatic => 0xb8
  | new => 0xbb
  | wide => 0xc4

/-- The mnemonic of an opcode. -/
def name : Opcode → String
  | nop => "nop"
  | iconstM1 => "iconst_m1"
  | iconst0 => "iconst_0"
  | iconst1 => "iconst_1"
  | iconst2 => "iconst_2"
  | iconst3 => "iconst_3"
  | iconst4 => "iconst_4"
  | iconst5 => "iconst_5"
  | bipush => "bipush"
  | sipush => "sipush"
  | ldc => "ldc"
  | ldcW => "ldc_w"
  | iload => "iload"
  | aload => "aload"
  | iload0 => "iload_0"
  | aload0 => "aload_0"
  | istore => "istore"
  | astore => "astore"
  | istore0 => "istore_0"
  | astore0 => "astore_0"
  | pop => "pop"
  | dup => "dup"
  | swap => "swap"
  | iadd => "iadd"
  | isub => "isub"
  | imul => "imul"
  | idiv => "idiv"
  | irem => "irem"
  | ineg => "ineg"
  | iand => "iand"
  | ior => "ior"
  | ifIcmpeq => "if_icmpeq"
  | ifIcmpne => "if_icmpne"
  | ifIcmplt => "if_icmplt"
  | ifIcmpge => "if_icmpge"
  | ifIcmpgt => "if_icmpgt"
  | ifIcmple => "if_icmple"
  | goto => "goto"
  | returnVoid => "return"
  | getstatic => "getstatic"
  | invokevirtual => "invokevirtual"
  | invokespecial => "invokespecial"
  | invokestatic => "invokestatic"
  | new => "new"
  | wide => "wide"

/-- Every opcode, in the order of their bytes. -/
def all : List Opcode :=
  [nop, iconstM1, iconst0, iconst1, iconst2, iconst3, iconst4, iconst5, bipush, sipush, ldc, ldcW,
    iload, aload, iload0, aload0, istore, astore, istore0, astore0, pop, dup, swap, iadd, isub,
    imul, idiv, irem, ineg, iand, ior, ifIcmpeq, ifIcmpne, ifIcmplt, ifIcmpge, ifIcmpgt, ifIcmple,
    goto, returnVoid, getstatic, invokevirtual, invokespecial, invokestatic, new, wide]

theorem mem_all (op : Opcode) : op ∈ all := by
  cases op <;> decide

/-- The opcode of a mnemonic. -/
def ofName? (text : String) : Option Opcode := all.find? fun op => op.name == text

/-- The one-byte opcode that pushes a constant from -1 to 5. -/
def iconst? (value : Int32) : Option Opcode :=
  if value = -1 then some iconstM1
  else if value = 0 then some iconst0
  else if value = 1 then some iconst1
  else if value = 2 then some iconst2
  else if value = 3 then some iconst3
  else if value = 4 then some iconst4
  else if value = 5 then some iconst5
  else none

/-- The first of the four one-byte opcodes for slots 0 to 3 that a local-variable opcode has. -/
def shortFormBase? : Opcode → Option UInt8
  | iload => some iload0.byte
  | aload => some aload0.byte
  | istore => some istore0.byte
  | astore => some astore0.byte
  | _ => none

/-- Words taken off and put on the operand stack. The effect of an invocation depends on its
operand, which states it; here it counts as none. -/
def stackEffect : Opcode → Nat × Nat
  | nop | goto | returnVoid | wide => (0, 0)
  | iconstM1 | iconst0 | iconst1 | iconst2 | iconst3 | iconst4 | iconst5
  | bipush | sipush | ldc | ldcW | iload | aload | iload0 | aload0 | getstatic | new => (0, 1)
  | istore | astore | istore0 | astore0 | pop => (1, 0)
  | dup => (1, 2)
  | swap => (2, 2)
  | iadd | isub | imul | idiv | irem | iand | ior => (2, 1)
  | ineg => (1, 1)
  | ifIcmpeq | ifIcmpne | ifIcmplt | ifIcmpge | ifIcmpgt | ifIcmple => (2, 0)
  | invokevirtual | invokespecial | invokestatic => (0, 0)

/-- Recogniser for the branches that compare two words. -/
def isConditionalBranch : Opcode → Bool
  | ifIcmpeq | ifIcmpne | ifIcmplt | ifIcmpge | ifIcmpgt | ifIcmple => true
  | _ => false

end Opcode

end StackCodegen.ClassFile
