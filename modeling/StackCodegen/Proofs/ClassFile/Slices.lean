import StackCodegen.Proofs.ClassFile.Disassembly
import StackCodegen.Proofs.ClassFile.StraightLine

/-!
# Slices of code

The code of a method is the bytes of its instructions, one after the other, those of a jump made of
its own place and that of its label (`bytesFrom`). So a row of instructions has the bytes between
the place where it starts and the place where it ends (`slice_bytesFrom`), and a jump that is read
there leads to the place of its label (`branchesAt_of_assemble`).
-/

set_option autoImplicit false

namespace StackCodegen.ClassFile

/-- The bytes of an instruction that lies at an offset, with the places of labels. -/
def Instruction.bytesAt (places : List Nat) (offset : Nat) : Instruction → Bytes
  | .jump op target => op.byte :: u2 ((Instruction.jump op target).field places offset)
  | insn => insn.encode

/-- The bytes of a row of instructions that starts at an offset, with the places of labels. -/
def bytesFrom (places : List Nat) : Nat → List Instruction → Bytes
  | _, [] => []
  | offset, insn :: code => insn.bytesAt places offset ++ bytesFrom places (offset + insn.size) code

/-- The place of a label in the code. -/
def MethodCode.place (m : MethodCode) (label : Label) : Nat := m.labelOffsets.getD label 0

/-- A branch is read at an offset of the code, and leads to another one. -/
def MethodCode.BranchesAt (m : MethodCode) (offset : Nat) (op : Opcode) (target : Nat) : Prop :=
  decode? (m.code.drop offset) = some (.branch op ((target : Int) - offset), 3)

/-! ## Rows of bytes -/

section Rows

variable {places : List Nat} {offset : Nat}

/-- The field of a jump takes the bytes that are kept free for it. -/
theorem length_bytesAt_eq (insn : Instruction) :
    (insn.bytesAt places offset).length = insn.encode.length := by
  cases insn <;> rfl

theorem length_bytesAt {insn : Instruction} (h : insn.Fitting) :
    (insn.bytesAt places offset).length = insn.size := by
  rw [length_bytesAt_eq, length_encode h]

theorem length_bytesFrom {code : List Instruction} (h : ∀ insn ∈ code, insn.Fitting) :
    (bytesFrom places offset code).length = codeSize code := by
  induction code generalizing offset with
  | nil => rfl
  | cons insn code ih =>
      rw [bytesFrom, List.length_append, length_bytesAt (h insn List.mem_cons_self),
        ih fun i hi => h i (List.mem_cons_of_mem _ hi), codeSize_cons]

theorem bytesFrom_append (done todo : List Instruction) :
    bytesFrom places offset (done ++ todo) =
      bytesFrom places offset done ++ bytesFrom places (offset + codeSize done) todo := by
  induction done generalizing offset with
  | nil => rfl
  | cons insn done ih =>
      rw [List.cons_append, bytesFrom, bytesFrom, ih, codeSize_cons, Nat.add_assoc,
        List.append_assoc]

/-- What follows a row begins where the row ends. -/
theorem drop_bytesFrom {done todo : List Instruction} (h : ∀ insn ∈ done, insn.Fitting) :
    (bytesFrom places offset (done ++ todo)).drop (codeSize done) =
      bytesFrom places (offset + codeSize done) todo := by
  rw [bytesFrom_append, ← length_bytesFrom h, List.drop_left, length_bytesFrom h]

theorem take_bytesFrom {row todo : List Instruction} (h : ∀ insn ∈ row, insn.Fitting) :
    (bytesFrom places offset (row ++ todo)).take (codeSize row) = bytesFrom places offset row := by
  rw [bytesFrom_append, ← length_bytesFrom h, List.take_left]

/-- A row of instructions lies between the places where it starts and ends. -/
theorem slice_bytesFrom {done row todo : List Instruction}
    (h : ∀ insn ∈ done ++ (row ++ todo), insn.Fitting) :
    ((bytesFrom places offset (done ++ (row ++ todo))).drop (codeSize done)).take (codeSize row) =
      bytesFrom places (offset + codeSize done) row := by
  rw [drop_bytesFrom fun i hi => h i (List.mem_append_left _ hi),
    take_bytesFrom fun i hi => h i (List.mem_append_right _ (List.mem_append_left _ hi))]

/-- Instructions without jumps have the same bytes at every place. -/
theorem bytesFrom_of_straight {code : List Instruction} (h : ∀ insn ∈ code, insn.straight = true) :
    bytesFrom places offset code = code.flatMap Instruction.encode := by
  induction code generalizing offset with
  | nil => rfl
  | cons insn code ih =>
      have hinsn : insn.bytesAt places offset = insn.encode := by
        have hstraight := h insn List.mem_cons_self
        cases insn <;> first | rfl | cases hstraight
      rw [bytesFrom, hinsn, ih fun i hi => h i (List.mem_cons_of_mem _ hi), List.flatMap_cons]

/-- A label takes no bytes. -/
theorem codeSize_bind (done : List Instruction) (label : Label) (todo : List Instruction) :
    codeSize (done ++ .bind label :: todo) = codeSize done + codeSize todo := by
  rw [codeSize_append, codeSize_cons, size_of_isBind rfl, Nat.zero_add]

end Rows

/-- Encoded instructions are the bytes of a row, labels lying where the layout puts them. -/
theorem Encodes.eq_bytesFrom {layout : Layout} {offset : Nat} {code : List Instruction}
    {bytes : Bytes} (h : Encodes layout offset code bytes) :
    bytes = bytesFrom (layout.bindings.toList.map Binding.offset) offset code := by
  induction h with
  | nil => rfl
  | @cons offset insn code front back head tail ih =>
      -- a jump is the one instruction whose bytes depend on places
      have hfront : front = insn.bytesAt (layout.bindings.toList.map Binding.offset) offset := by
        cases insn with
        | jump op target =>
            obtain ⟨b, field, hb, hfield, rfl⟩ := head
            rw [Instruction.bytesAt, field_eq_of_branchField? (getElem?_places hb) hfield]
        | _ => exact head
      rw [bytesFrom, hfront, ih]

/-! ## Assembled code -/

section Assembled

variable {body : SymbolicCode} {m : MethodCode}
  (hfit : ∀ insn ∈ body.instructions.toList, insn.Fitting) (h : body.assemble = .ok m)
include hfit h

/-- Assembled code is the bytes of its instructions, one after the other. -/
theorem code_eq_bytesFrom : m.code = bytesFrom m.labelOffsets 0 body.instructions.toList := by
  obtain ⟨layout, flow, hassembly⟩ := assembly_of_assemble hfit h
  rw [hassembly.labelOffsets_eq]
  exact hassembly.encodes.eq_bytesFrom

/-- A jump is read where it lies, and leads to the place of its label. -/
theorem branchesAt_of_assemble {op : Opcode} {target : Label}
    (hreg : (Instruction.jump op target).Regular) {done todo : List Instruction}
    (hcode : body.instructions.toList = done ++ .jump op target :: todo) :
    m.BranchesAt (codeSize done) op (m.place target) := by
  obtain ⟨layout, flow, hassembly⟩ := assembly_of_assemble hfit h
  have hencodes := hassembly.encodes
  rw [hcode] at hencodes hfit
  obtain ⟨distance, hdecode, hdistance⟩ := (hencodes.drop hfit).decode?_cons hreg rfl
  obtain ⟨b, hb, rfl⟩ := hdistance op target rfl
  have hplace : m.place target = b.offset := by
    rw [MethodCode.place, hassembly.labelOffsets_eq, List.getD_eq_getElem?_getD,
      getElem?_places hb]
    rfl
  rw [MethodCode.BranchesAt, hplace]
  rw [Nat.zero_add] at hdecode
  exact hdecode

end Assembled

end StackCodegen.ClassFile
