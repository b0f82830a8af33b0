import StackCodegen.Proofs.ClassFile.Refusals

/-!
# Disassembling code

The code of a method decoded from its first byte to its last, one operation after the other
(`disassemble?`). An instruction is read as its opcode and operand; the one-byte opcodes of slot 0
are read as the accesses they are short for, and a pseudo-instruction that binds a label is not read
at all (`operationsFrom`).

Main statement: what `assemble` makes of instructions with fitting operands is read back as those
instructions, each at the offset the layout gives it, with jumps to the places of their labels; code
that is too long, or a jump that is too far, is refused, and nothing else is refused for that reason
(`disassemble_assemble`).
-/

set_option autoImplicit false

namespace StackCodegen.ClassFile

/-! ## Linear decoding -/

/-- The operations of a sequence of bytes, the first one at `offset`, each with its offset. -/
def disassembleFrom? (offset : Nat) (bytes : Bytes) : Option (List (Nat × Operation)) :=
  match bytes with
  | [] => some []
  | b :: rest =>
    match decode? (b :: rest) with
    | none => none
    | some (operation, size) =>
      (disassembleFrom? (offset + size) (rest.drop (size - 1))).map ((offset, operation) :: ·)
termination_by bytes.length
decreasing_by
  rw [List.length_drop, List.length_cons]
  omega

/-- The operations of a method's code, each with its offset. -/
def disassemble? (code : Bytes) : Option (List (Nat × Operation)) := disassembleFrom? 0 code

/-- What stands in front is decoded first. -/
theorem disassembleFrom?_append {offset : Nat} {front back : Bytes} {operation : Operation}
    (hne : front ≠ []) (h : decode? (front ++ back) = some (operation, front.length)) :
    disassembleFrom? offset (front ++ back) =
      (disassembleFrom? (offset + front.length) back).map ((offset, operation) :: ·) := by
  cases front with
  | nil => exact absurd rfl hne
  | cons b front =>
      rw [List.cons_append] at h ⊢
      rw [disassembleFrom?, h]
      simp

/-! ## Instructions as they are read -/

/-- The access that a one-byte opcode of slot 0 is short for. -/
def Opcode.slotZero? : Opcode → Option Opcode
  | iload0 => some iload
  | aload0 => some aload
  | istore0 => some istore
  | astore0 => some astore
  | _ => none

/-- The operation of an opcode with one operand byte. -/
def Operation.ofByte (op : Opcode) (operand : UInt8) : Operation :=
  if op.operandKind = .slot then .slot op operand.toUInt16 else .byte op operand

/-- The operation of an opcode with two operand bytes. -/
def Operation.ofShort (op : Opcode) (operand : UInt16) : Operation :=
  if op.operandKind = .distance then .branch op operand.toInt16.toInt else .short op operand

/-- The operand of two bytes as a signed integer. -/
def Operation.signed? : Operation → Option Int
  | .short _ operand => some operand.toInt16.toInt
  | .branch _ distance => some distance
  | _ => none

theorem Operation.signed?_ofShort (op : Opcode) (operand : UInt16) :
    (Operation.ofShort op operand).signed? = some operand.toInt16.toInt := by
  unfold Operation.ofShort
  split <;> rfl

/-- The operation an instruction is read as, a jump with a given field. -/
def Instruction.reading (field : UInt16) : Instruction → Operation
  | .plain op =>
    match op.slotZero? with
    | some access => .slot access 0
    | none => .plain op
  | .byte op operand => .ofByte op operand
  | .short op operand | .member op operand _ _ => .ofShort op operand
  | .slot op number => .slot op number
  | .jump op _ => .ofShort op field
  | .bind _ => .plain .nop

/-- The field of a jump at `offset`, its label's place being among `places`. -/
def Instruction.field (places : List Nat) (offset : Nat) : Instruction → UInt16
  | .jump _ target => (Int16.ofInt ((places.getD target 0 : Int) - offset)).toUInt16
  | _ => 0

/-- The operations of a row of instructions that starts at `offset`, each with its own offset. -/
def operationsFrom (places : List Nat) : Nat → List Instruction → List (Nat × Operation)
  | _, [] => []
  | offset, insn :: code =>
    if insn.isBind then
      operationsFrom places (offset + insn.size) code
    else
      (offset, insn.reading (insn.field places offset)) ::
        operationsFrom places (offset + insn.size) code

theorem operationsFrom_append (places : List Nat) (offset : Nat) (done todo : List Instruction) :
    operationsFrom places offset (done ++ todo) =
      operationsFrom places offset done ++ operationsFrom places (offset + codeSize done) todo := by
  induction done generalizing offset with
  | nil => rfl
  | cons insn done ih =>
      rw [List.cons_append, operationsFrom, operationsFrom, ih, codeSize_cons, Nat.add_assoc]
      split <;> rfl

/-- A binding takes no bytes. -/
theorem size_of_isBind {insn : Instruction} (h : insn.isBind = true) : insn.size = 0 := by
  cases insn <;> first | rfl | cases h

/-- The first operation of a row lies where the row starts; a row of labels alone ends there. -/
theorem head?_operationsFrom (places : List Nat) (offset : Nat) (code : List Instruction) :
    ((operationsFrom places offset code).head?.map Prod.fst).getD (offset + codeSize code) =
      offset := by
  induction code generalizing offset with
  | nil => rfl
  | cons insn code ih =>
      rw [operationsFrom, codeSize_cons, ← Nat.add_assoc]
      split
      next hbind =>
          rw [size_of_isBind hbind, Nat.add_zero]
          exact ih offset
      next => rfl

/-! ## Reading back -/

/-- An opcode with a two-byte operand is read with it. -/
theorem decode?_ofShort {op : Opcode} (operand : UInt16) (rest : Bytes)
    (hop : op.operandKind.width = 2) :
    decode? (op.byte :: (u2 operand ++ rest)) = some (.ofShort op operand, 3) := by
  have hkind : op.operandKind = .short ∨ op.operandKind = .distance := by
    cases hk : op.operandKind <;> simp_all [OperandKind.width]
  obtain ⟨hform, hwide⟩ := shortForm?_eq_none op
    (by rcases hkind with hk | hk <;> rw [hk] <;> decide)
  rw [decode?_byte hwide hform]
  rcases hkind with hk | hk <;>
    simp [decodeOperand?, hk, u2_eq, joinBytes_u2, Operation.ofShort]

/-- An opcode with a one-byte operand is read with it. -/
theorem decode?_ofByte {op : Opcode} (operand : UInt8) (rest : Bytes)
    (hop : op.operandKind.width = 1) :
    decode? (op.byte :: operand :: rest) = some (.ofByte op operand, 2) := by
  have hkind : op.operandKind = .byte ∨ op.operandKind = .slot := by
    cases hk : op.operandKind <;> simp_all [OperandKind.width]
  obtain ⟨hform, hwide⟩ := shortForm?_eq_none op
    (by rcases hkind with hk | hk <;> rw [hk] <;> decide)
  rw [decode?_byte hwide hform]
  rcases hkind with hk | hk <;> simp [decodeOperand?, hk, Operation.ofByte]

/-- An opcode without operand is read as it is, or as the access it is short for. -/
theorem decode?_plain {op : Opcode} (rest : Bytes) (hop : op.operandKind.width = 0)
    (hwide : op ≠ .wide) (field : UInt16) :
    decode? (op.byte :: rest) = some ((Instruction.plain op).reading field, 1) := by
  cases hzero : op.slotZero? with
  | some access =>
      cases op <;> first | cases hzero; done | skip
      all_goals
        cases hzero
        rfl
  | none =>
      have hform : Opcode.shortForm? op.byte = none := by
        cases op <;> first | cases hzero; done | decide
      have hkind : op.operandKind = .none := by
        cases hk : op.operandKind <;> simp_all [OperandKind.width]
      rw [decode?_byte hwide hform]
      simp [decodeOperand?, hkind, Instruction.reading, hzero]

/-- The field of a jump whose distance fits. -/
theorem field_eq_of_branchField? {places : List Nat} {offset place : Nat} {op : Opcode}
    {target : Label} (hplace : places[target]? = some place) {field : UInt16}
    (hfield : branchField? ((place : Int) - offset) = some field) :
    (Instruction.jump op target).field places offset = field := by
  have hget : places.getD target 0 = place := by
    rw [List.getD_eq_getElem?_getD, hplace]
    rfl
  unfold branchField? at hfield
  split at hfield
  · rw [Instruction.field, hget]
    exact Option.some.inj hfield
  · cases hfield

/-- A placed instruction is read back, a jump with its label's distance. -/
theorem decode?_placed {layout : Layout} {offset : Nat} {insn : Instruction} {front : Bytes}
    (hfit : insn.Fitting) (hbind : insn.isBind = false)
    (h : PlacedBytes layout offset insn front) (back : Bytes) :
    decode? (front ++ back) = some (insn.reading (insn.field
      (layout.bindings.toList.map Binding.offset) offset), insn.size) := by
  cases insn with
  | plain op =>
      rw [show front = _ from h]
      exact decode?_plain back hfit.1 hfit.2 _
  | byte op operand =>
      rw [show front = _ from h]
      exact decode?_ofByte operand back hfit
  | short op operand | member op operand =>
      rw [show front = _ from h]
      exact decode?_ofShort operand back hfit
  | slot op number =>
      rw [show front = _ from h]
      exact decode?_slot hfit
  | jump op target =>
      obtain ⟨b, field, hb, hfield, rfl⟩ := h
      rw [Instruction.reading, field_eq_of_branchField? (getElem?_places hb) hfield]
      exact decode?_ofShort field back hfit
  | bind label => cases hbind

/-- Encoded instructions are read back, one after the other. -/
theorem disassembleFrom?_of_encodes {layout : Layout} {offset : Nat} {code : List Instruction}
    {bytes : Bytes} (h : Encodes layout offset code bytes) (hfit : ∀ insn ∈ code, insn.Fitting) :
    disassembleFrom? offset bytes =
      some (operationsFrom (layout.bindings.toList.map Binding.offset) offset code) := by
  induction h with
  | nil => rw [disassembleFrom?, operationsFrom]
  | @cons offset insn code front back head tail ih =>
      have hinsn := hfit insn List.mem_cons_self
      have hrest := ih fun i hi => hfit i (List.mem_cons_of_mem _ hi)
      have hlength := length_PlacedBytes hinsn head
      rw [operationsFrom]
      split
      next hbind =>
          have hnil : front = [] := by
            cases insn <;> first | exact head | cases hbind
          rw [size_of_isBind hbind, Nat.add_zero] at hrest ⊢
          rw [hnil, List.nil_append]
          exact hrest
      next hbind =>
          have hdecode := decode?_placed hinsn (by simpa using hbind) head back
          have hne : front ≠ [] := by
            rintro rfl
            cases insn <;> first | exact absurd rfl hbind | skip
            all_goals
              revert hlength
              simp only [Instruction.size, List.length_nil]
              repeat' split
              all_goals omega
          rw [← hlength] at hdecode
          rw [disassembleFrom?_append hne hdecode, hlength, hrest, Option.map_some]

/-! ## Assembled bodies -/

/-- What the code of an assembled body is: its instructions, of the sizes that were counted, with
jumps to the places of labels, and each label at the first instruction behind its last binding. -/
structure Disassembled (body : SymbolicCode) (m : MethodCode) : Prop where
  listing : disassemble? m.code =
    some (operationsFrom m.labelOffsets 0 body.instructions.toList)
  length_eq : m.code.length = codeSize body.instructions.toList
  length_le : m.code.length ≤ 65535
  labels_length : m.labelOffsets.length = body.labelCount
  jump : ∀ done op target todo, body.instructions.toList = done ++ .jump op target :: todo →
    ∃ (operation : Operation) (distance : Int) (place : Nat),
      (codeSize done, operation) ∈ operationsFrom m.labelOffsets 0 body.instructions.toList ∧
        operation.signed? = some distance ∧ m.labelOffsets[target]? = some place ∧
        (codeSize done : Int) + distance = place
  label : ∀ (target : Label) (place : Nat), m.labelOffsets[target]? = some place →
    ∃ done todo, body.instructions.toList = done ++ .bind target :: todo ∧
      target ∉ boundLabels todo ∧
      place = ((operationsFrom m.labelOffsets (codeSize done) todo).head?.map Prod.fst).getD
        m.code.length

/-- A jump that fits its field reaches the place of its label. -/
theorem toInt_field {places : List Nat} {offset place : Nat} {op : Opcode} {target : Label}
    (hplace : places[target]? = some place) {field : UInt16}
    (hfield : branchField? ((place : Int) - offset) = some field) :
    ((Instruction.jump op target).field places offset).toInt16.toInt = (place : Int) - offset := by
  rw [field_eq_of_branchField? hplace hfield]
  exact toInt_of_branchField? hfield

/-- The field of an encoded jump. -/
theorem Encodes.branchField? {layout : Layout} {offset : Nat} {done todo : List Instruction}
    {op : Opcode} {target : Label} {bytes : Bytes}
    (h : Encodes layout offset (done ++ .jump op target :: todo) bytes) :
    ∃ b field, layout.bindings[target]? = some b ∧
      ClassFile.branchField? ((b.offset : Int) - (offset + codeSize done : Nat)) = some field := by
  induction done generalizing offset bytes with
  | nil =>
      cases h with
      | cons head tail =>
          obtain ⟨b, field, hb, hfield, -⟩ := head
          exact ⟨b, field, hb, by simpa using hfield⟩
  | cons insn done ih =>
      cases h with
      | cons head tail =>
          obtain ⟨b, field, hb, hfield⟩ := ih tail
          exact ⟨b, field, hb, by rw [codeSize_cons, ← Nat.add_assoc]; exact hfield⟩

/-- Assembled code of fitting instructions is read back. -/
theorem disassembled_of_assemble {body : SymbolicCode} {m : MethodCode}
    (hfit : ∀ insn ∈ body.instructions.toList, insn.Fitting) (h : body.assemble = .ok m) :
    Disassembled body m := by
  obtain ⟨layout, flow, hassembly⟩ := assembly_of_assemble hfit h
  have hlength := hassembly.encodes.length_eq hfit
  have hplace : ∀ (target : Label) (place : Nat), m.labelOffsets[target]? = some place →
      ∃ b : Binding, layout.bindings[target]? = some b ∧ b.offset = place := by
    intro target place hget
    rw [hassembly.labelOffsets_eq, List.getElem?_map, Array.getElem?_toList] at hget
    exact Option.map_eq_some_iff.1 hget
  refine ⟨?_, hlength, ?_, ?_, ?_, ?_⟩
  · rw [disassemble?, disassembleFrom?_of_encodes hassembly.encodes hfit,
      hassembly.labelOffsets_eq]
  · rw [hlength]
    exact Layout.codeSize_le hassembly.layout_eq
  · rw [hassembly.labelOffsets_eq, List.length_map, Array.length_toList,
      Layout.size_bindings hassembly.layout_eq]
  · intro done op target todo hcode
    have hencodes := hassembly.encodes
    rw [hcode] at hencodes
    obtain ⟨b, field, hb, hfield⟩ := hencodes.branchField?
    rw [Nat.zero_add] at hfield
    have hget : m.labelOffsets[target]? = some b.offset := by
      rw [hassembly.labelOffsets_eq]
      exact getElem?_places hb
    refine ⟨(Instruction.jump op target).reading
      ((Instruction.jump op target).field m.labelOffsets (codeSize done)),
      (b.offset : Int) - codeSize done, b.offset, ?_, ?_, hget, by omega⟩
    · rw [hcode, operationsFrom_append, Nat.zero_add]
      exact List.mem_append_right _ List.mem_cons_self
    · rw [Instruction.reading, Operation.signed?_ofShort, toInt_field hget hfield]
  · intro target place hget
    obtain ⟨b, hb, rfl⟩ := hplace target place hget
    obtain ⟨done, todo, hcode, hlast, rfl⟩ := Layout.binding_spec hassembly.layout_eq hb
    refine ⟨done, todo, hcode, hlast, ?_⟩
    have hend : m.code.length = codeSize done + codeSize todo := by
      rw [hlength, hcode, codeSize_append, codeSize_cons]
      exact congrArg (codeSize done + ·) (Nat.zero_add _)
    rw [hend, head?_operationsFrom]

/-- Code is refused for its length where it is too long, and only there. -/
theorem assemble_eq_codeTooLarge_iff {body : SymbolicCode} {length : Nat} :
    body.assemble = .error (.codeTooLarge length) ↔
      65535 < codeSize body.instructions.toList ∧ length = codeSize body.instructions.toList := by
  constructor
  · intro h
    rcases assemble_eq_error h with hlayout | ⟨layout, hlayout, hcode | hflow⟩
    · rcases Layout.of_eq_error hlayout with ⟨hlong, heq⟩ | ⟨-, label, -, -, heq⟩
      · cases heq
        exact ⟨hlong, rfl⟩
      · cases heq
    · obtain ⟨done, op, target, todo, -, ⟨-, heq⟩ | ⟨b, -, -, heq⟩⟩ :=
        encodeBody_eq_error hlayout hcode
      · cases heq
      · cases heq
    · cases analyse_eq_error hflow
  · rintro ⟨hlong, rfl⟩
    have hlayout : Layout.of body = .error (.codeTooLarge (codeSize body.instructions.toList)) := by
      cases hlayout : Layout.of body with
      | ok layout => exact absurd (Layout.codeSize_le hlayout) (Nat.not_le.2 hlong)
      | error e =>
          rcases Layout.of_eq_error hlayout with ⟨-, rfl⟩ | ⟨hle, -⟩
          · rfl
          · exact absurd hle (Nat.not_le.2 hlong)
    unfold SymbolicCode.assemble
    rw [hlayout]
    rfl

/-- A distance is refused only where a jump is that far from its label. -/
theorem too_far_of_assemble {body : SymbolicCode} {distance : Int}
    (h : body.assemble = .error (.branchOutOfRange distance)) :
    ∃ done op target todo done' todo',
      body.instructions.toList = done ++ .jump op target :: todo ∧
        body.instructions.toList = done' ++ .bind target :: todo' ∧
        target ∉ boundLabels todo' ∧ distance = (codeSize done' : Int) - codeSize done ∧
        (distance < -32768 ∨ 32767 < distance) := by
  rcases assemble_eq_error h with hlayout | ⟨layout, hlayout, hcode | hflow⟩
  · rcases Layout.of_eq_error hlayout with ⟨-, heq⟩ | ⟨-, label, -, -, heq⟩
    · cases heq
    · cases heq
  · obtain ⟨done, op, target, todo, hsplit, ⟨-, heq⟩ | ⟨b, hb, hfield, heq⟩⟩ :=
      encodeBody_eq_error hlayout hcode
    · cases heq
    · cases heq
      obtain ⟨done', todo', hsplit', hlast, rfl⟩ := Layout.binding_spec hlayout hb
      refine ⟨done, op, target, todo, done', todo', hsplit, hsplit', hlast, rfl, ?_⟩
      unfold branchField? at hfield
      split at hfield
      · cases hfield
      · dsimp only at *
        omega
  · cases analyse_eq_error hflow

/-- Assembling is undone by disassembling. -/
theorem disassemble_assemble {body : SymbolicCode}
    (hfit : ∀ insn ∈ body.instructions.toList, insn.Fitting) :
    (∀ m, body.assemble = .ok m → Disassembled body m) ∧
      (∀ length, body.assemble = .error (.codeTooLarge length) ↔
        65535 < codeSize body.instructions.toList ∧
          length = codeSize body.instructions.toList) ∧
      ∀ distance, body.assemble = .error (.branchOutOfRange distance) →
        ∃ done op target todo done' todo',
          body.instructions.toList = done ++ .jump op target :: todo ∧
            body.instructions.toList = done' ++ .bind target :: todo' ∧
            target ∉ boundLabels todo' ∧ distance = (codeSize done' : Int) - codeSize done ∧
            (distance < -32768 ∨ 32767 < distance) :=
  ⟨fun _ h => disassembled_of_assemble hfit h, fun _ => assemble_eq_codeTooLarge_iff,
    fun _ h => too_far_of_assemble h⟩

/-- A loop that counts slot 300 down, with a label bound twice and one at the end. -/
def countdown : SymbolicCode :=
  ⟨#[.bind 0, .byte .bipush 9, .slot .istore 300, .bind 0, .plain .iload0, .slot .istore 3,
    .slot .iload 300, .byte .iload 3, .jump .ifIcmpeq 1, .jump .goto 0, .bind 1], 2⟩

/-- Its code is read back: short, ordinary and wide accesses, a jump forwards to the end of the
code, and one backwards to the later one of the bindings of its label. -/
theorem disassemble_countdown :
    ∃ m, countdown.assemble = .ok m ∧ disassemble? m.code =
      some [(0, .byte .bipush 9), (2, .slot .istore 300), (6, .slot .iload 0), (7, .slot .istore 3),
        (8, .slot .iload 300), (12, .slot .iload 3), (14, .branch .ifIcmpeq 6),
        (17, .branch .goto (-11))] := by
  obtain ⟨m, hm⟩ := exists_ok_of_toBool (by decide +kernel : countdown.assemble.toBool = true)
  have hplaces : countdown.assemble.toOption.map MethodCode.labelOffsets = some [6, 20] := by
    decide +kernel
  rw [hm] at hplaces
  have hlisting := ((disassemble_assemble (by decide)).1 m hm).listing
  rw [Option.some.inj hplaces] at hlisting
  exact ⟨m, hm, hlisting⟩

end StackCodegen.ClassFile
