import StackCodegen.ClassFile.Assembly

/-!
# Decoding code

The inverse of the encoding of instructions. `decode?` reads one instruction from the front of a
sequence of bytes, in any of the forms the virtual machine knows for it: a local-variable access is
written as one of the opcodes of slots 0 to 3, with a slot byte, or behind `wide` with a slot field.
What is read is an `Operation`: labels are gone, a jump has its signed distance, and the three forms
of a local-variable access are one.

An instruction is `Regular` if its opcode is used with the kind of operand that belongs to it. Main
statements: an encoded regular instruction is read back with the size the layout counts for it
(`decode?_encode`, `decode?_jump`).
-/

set_option autoImplicit false

namespace StackCodegen.ClassFile

/-! ## Fields -/

/-- The two-byte field of a most and a least significant byte. -/
def joinBytes (high low : UInt8) : UInt16 := .ofNat (256 * high.toNat + low.toNat)

theorem u2_eq (value : UInt16) :
    u2 value = [.ofNat (value.toNat / 256), .ofNat (value.toNat % 256)] := by
  have hlt := value.toNat_lt
  have hhigh : (value >>> 8).toUInt8 = .ofNat (value.toNat / 256) := by
    apply UInt8.toNat_inj.1
    simp [UInt16.toNat_shiftRight, Nat.shiftRight_eq_div_pow]
  have hlow : value.toUInt8 = .ofNat (value.toNat % 256) := by
    apply UInt8.toNat_inj.1
    simp
  rw [u2, hhigh, hlow]

/-- A two-byte field is read back. -/
theorem joinBytes_u2 (value : UInt16) :
    joinBytes (.ofNat (value.toNat / 256)) (.ofNat (value.toNat % 256)) = value := by
  have hlt := value.toNat_lt
  apply UInt16.toNat_inj.1
  simp only [joinBytes, UInt16.toNat_ofNat', UInt8.toNat_ofNat']
  omega

/-! ## Operations -/

/-- An instruction as the virtual machine reads it. `slot` accesses a local variable, and the
distance of `branch` is counted from the branch's own first byte. -/
inductive Operation where
  | plain (op : Opcode)
  | byte (op : Opcode) (operand : UInt8)
  | short (op : Opcode) (operand : UInt16)
  | slot (op : Opcode) (number : UInt16)
  | branch (op : Opcode) (distance : Int)
  deriving DecidableEq

/-- What follows an opcode. -/
inductive OperandKind where
  | none
  | byte
  | short
  | slot
  | distance
  deriving DecidableEq

/-- Bytes of an operand. -/
def OperandKind.width : OperandKind → Nat
  | none => 0
  | byte | slot => 1
  | short | distance => 2

namespace Opcode

/-- The kind of operand that belongs to an opcode; `wide` is no opcode of its own. -/
def operandKind : Opcode → OperandKind
  | bipush | ldc => .byte
  | sipush | ldcW | getstatic | invokevirtual | invokespecial | invokestatic | new => .short
  | iload | aload | istore | astore => .slot
  | ifIcmpeq | ifIcmpne | ifIcmplt | ifIcmpge | ifIcmpgt | ifIcmple | goto => .distance
  | _ => .none

/-- The opcode of a byte. -/
def ofByte? (b : UInt8) : Option Opcode := all.find? fun op => op.byte == b

/-- The local-variable access that a byte of the one-byte forms stands for. -/
def shortForm? (b : UInt8) : Option (Opcode × UInt16) :=
  if 0x1a ≤ b ∧ b ≤ 0x1d then some (iload, (b - 0x1a).toUInt16)
  else if 0x2a ≤ b ∧ b ≤ 0x2d then some (aload, (b - 0x2a).toUInt16)
  else if 0x3b ≤ b ∧ b ≤ 0x3e then some (istore, (b - 0x3b).toUInt16)
  else if 0x4b ≤ b ∧ b ≤ 0x4e then some (astore, (b - 0x4b).toUInt16)
  else none

theorem ofByte?_byte (op : Opcode) : ofByte? op.byte = some op := by
  cases op <;> decide

end Opcode

/-- The operation of an opcode with the bytes behind it, and the bytes taken in all. -/
def decodeOperand? (op : Opcode) (rest : Bytes) : Option (Operation × Nat) :=
  match op.operandKind, rest with
  | .none, _ => some (.plain op, 1)
  | .byte, operand :: _ => some (.byte op operand, 2)
  | .short, high :: low :: _ => some (.short op (joinBytes high low), 3)
  | .slot, number :: _ => some (.slot op number.toUInt16, 2)
  | .distance, high :: low :: _ => some (.branch op (joinBytes high low).toInt16.toInt, 3)
  | _, _ => none

/-- The operation behind `wide`: a local-variable access with a slot field. -/
def decodeWide? : Bytes → Option (Operation × Nat)
  | b :: high :: low :: _ =>
    match Opcode.ofByte? b with
    | some op => if op.operandKind = .slot then some (.slot op (joinBytes high low), 4) else none
    | none => none
  | _ => none

/-- The operation at the front of a sequence of bytes, with its size. -/
def decode? : Bytes → Option (Operation × Nat)
  | [] => none
  | b :: rest =>
    match Opcode.shortForm? b with
    | some (op, number) => some (.slot op number, 1)
    | none =>
      match Opcode.ofByte? b with
      | none => none
      | some .wide => decodeWide? rest
      | some op => decodeOperand? op rest

/-! ## Reading back -/

/-- An opcode with an operand of the kind that belongs to it. The opcodes of the one-byte forms are
written through `slot` alone. -/
def Instruction.Regular : Instruction → Prop
  | .plain op => op.operandKind = .none ∧ op ≠ .wide ∧ Opcode.shortForm? op.byte = none
  | .byte op _ => op.operandKind = .byte
  | .short op _ | .member op _ _ _ => op.operandKind = .short
  | .slot op _ => op.operandKind = .slot
  | .jump op _ => op.operandKind = .distance
  | .bind _ => True

instance (insn : Instruction) : Decidable insn.Regular := by
  cases insn <;> unfold Instruction.Regular <;> infer_instance

/-- An opcode with as many operand bytes as belong to it; slots are accessed by the opcodes that
have one-byte forms. -/
def Instruction.Fitting : Instruction → Prop
  | .plain op => op.operandKind.width = 0 ∧ op ≠ .wide
  | .byte op _ => op.operandKind.width = 1
  | .short op _ | .member op _ _ _ | .jump op _ => op.operandKind.width = 2
  | .slot op _ => op.operandKind = .slot
  | .bind _ => True

instance (insn : Instruction) : Decidable insn.Fitting := by
  cases insn <;> unfold Instruction.Fitting <;> infer_instance

theorem Instruction.Regular.fitting {insn : Instruction} (h : insn.Regular) : insn.Fitting := by
  cases insn with
  | plain op => exact ⟨congrArg OperandKind.width h.1, h.2.1⟩
  | byte op operand | short op operand | member op index | jump op target =>
      exact congrArg OperandKind.width h
  | slot op number => exact h
  | bind label => trivial

/-- The operation of an instruction, a jump being given its distance. -/
def Instruction.operation (distance : Int) : Instruction → Operation
  | .plain op => .plain op
  | .byte op operand => .byte op operand
  | .short op operand => .short op operand
  | .member op index _ _ => .short op index
  | .slot op number => .slot op number
  | .jump op _ => .branch op distance
  | .bind _ => .plain .nop

/-- Recogniser for the bindings of labels, which take no bytes. -/
def Instruction.isBind : Instruction → Bool
  | .bind _ => true
  | _ => false

/-- Outside the one-byte forms, an opcode is read with the bytes behind it. -/
theorem decode?_byte {op : Opcode} {rest : Bytes} (hwide : op ≠ .wide)
    (hform : Opcode.shortForm? op.byte = none) :
    decode? (op.byte :: rest) = decodeOperand? op rest := by
  rw [decode?, hform]
  simp only [Opcode.ofByte?_byte]

theorem decode?_wide {op : Opcode} {number : UInt16} {rest : Bytes} (hop : op.operandKind = .slot) :
    decode? (Opcode.wide.byte :: op.byte :: (u2 number ++ rest)) = some (.slot op number, 4) := by
  have h0 : Opcode.shortForm? Opcode.wide.byte = none := by decide
  rw [decode?, h0]
  simp only [Opcode.ofByte?_byte, u2_eq, List.cons_append, List.nil_append, decodeWide?, hop,
    joinBytes_u2, if_pos]

/-- The opcodes that take operands are none of the one-byte forms. -/
theorem shortForm?_eq_none (op : Opcode) (h : op.operandKind ≠ .none) :
    Opcode.shortForm? op.byte = none ∧ op ≠ .wide := by
  cases op <;> first | exact absurd rfl h | decide

/-- A local-variable access is read back from the form its slot calls for. -/
theorem decode?_slot {op : Opcode} {number : UInt16} {rest : Bytes} (hop : op.operandKind = .slot) :
    decode? ((Instruction.slot op number).encode ++ rest) =
      some (.slot op number, (Instruction.slot op number).size) := by
  obtain ⟨hform, hwide⟩ := shortForm?_eq_none op (by rw [hop]; decide)
  by_cases hsmall : number ≤ 3
  · have hcases : number = 0 ∨ number = 1 ∨ number = 2 ∨ number = 3 := by
      have h3 : number.toNat ≤ 3 := UInt16.le_iff_toNat_le.1 hsmall
      simp only [← UInt16.toNat_inj]
      change _ = 0 ∨ _ = 1 ∨ _ = 2 ∨ _ = 3
      omega
    cases op <;> first | exact absurd hop (by decide) | skip
    all_goals
      rcases hcases with rfl | rfl | rfl | rfl <;> rfl
  · by_cases hbyte : number ≤ 255
    · have hn : number.toUInt8.toUInt16 = number := by
        have h255 : number.toNat ≤ 255 := UInt16.le_iff_toNat_le.1 hbyte
        apply UInt16.toNat_inj.1
        simp only [UInt8.toNat_toUInt16, UInt16.toNat_toUInt8]
        omega
      have hencode : (Instruction.slot op number).encode = [op.byte, number.toUInt8] := by
        simp only [Instruction.encode, if_pos hbyte, if_neg hsmall]
        split <;> rfl
      rw [hencode, List.cons_append, decode?_byte hwide hform]
      simp only [decodeOperand?, hop, List.cons_append, List.nil_append, hn, Instruction.size,
        if_neg hsmall, if_pos hbyte]
    · simp only [Instruction.encode, if_neg hbyte, List.cons_append, Instruction.size,
        if_neg hsmall]
      exact decode?_wide hop

/-- An encoded instruction is read back with its size. -/
theorem decode?_encode {insn : Instruction} (hreg : insn.Regular) (hbind : insn.isBind = false)
    (hjump : ∀ op target, insn ≠ .jump op target) (distance : Int) (rest : Bytes) :
    decode? (insn.encode ++ rest) = some (insn.operation distance, insn.size) := by
  cases insn with
  | plain op =>
    obtain ⟨hkind, hwide, hform⟩ := hreg
    rw [Instruction.encode, List.cons_append, decode?_byte hwide hform]
    simp only [decodeOperand?, hkind]
    rfl
  | byte op operand =>
    have hkind : op.operandKind = .byte := hreg
    obtain ⟨hform, hwide⟩ := shortForm?_eq_none op (by rw [hkind]; decide)
    rw [Instruction.encode, List.cons_append, decode?_byte hwide hform]
    simp only [decodeOperand?, hkind, List.cons_append]
    rfl
  | short op operand | member op operand =>
    have hkind : op.operandKind = .short := hreg
    obtain ⟨hform, hwide⟩ := shortForm?_eq_none op (by rw [hkind]; decide)
    rw [Instruction.encode, List.cons_append, decode?_byte hwide hform]
    simp only [decodeOperand?, hkind, u2_eq, List.cons_append, joinBytes_u2]
    rfl
  | slot op number => exact decode?_slot hreg
  | jump op target => exact absurd rfl (hjump op target)
  | bind label => cases hbind

/-- A distance that fits is read back from its field. -/
theorem toInt_of_branchField? {distance : Int} {field : UInt16}
    (h : branchField? distance = some field) : field.toInt16.toInt = distance := by
  unfold branchField? at h
  split at h
  next hrange =>
    cases h
    have hround : (Int16.ofInt distance).toUInt16.toInt16 = Int16.ofInt distance := rfl
    rw [hround]
    exact Int16.toInt_ofInt_of_le (by simpa using hrange.1) (by have := hrange.2; simp; omega)
  next => cases h

/-- A jump is read back with the distance in its field. -/
theorem decode?_jump {op : Opcode} {distance : Int} {field : UInt16} {rest : Bytes}
    (hop : op.operandKind = .distance) (hfield : branchField? distance = some field) :
    decode? (op.byte :: (u2 field ++ rest)) = some (.branch op distance, 3) := by
  obtain ⟨hform, hwide⟩ := shortForm?_eq_none op (by rw [hop]; decide)
  rw [decode?_byte hwide hform]
  simp only [decodeOperand?, hop, u2_eq, List.cons_append, joinBytes_u2,
    toInt_of_branchField? hfield]

end StackCodegen.ClassFile
