import StackCodegen.Proofs.Except
import StackCodegen.Proofs.ClassFile.Slices

/-!
# Counted and written sizes

A body is laid out by the sizes that are counted for its instructions, and the distance of a jump is
written at the place that was counted for it. So the code of an assembled body is the bytes of its
instructions with the fields of its jumps written over them (`patch`, `fieldsFrom`), and both agree
as long as every instruction takes the bytes that were counted for it. An access to one of the first
four slots by an opcode without one-byte forms takes one byte more (`Instruction.undercounted`): the
code is longer by their number, and a jump behind them has its field too far in front.

Main statement: `written_of_assemble`.
-/

set_option autoImplicit false

namespace StackCodegen.ClassFile

/-! ## Fields of jumps -/

/-- The field of a jump that is counted at an offset, with the place it is written at. -/
def Instruction.fieldsAt (places : List Nat) (offset : Nat) :
    Instruction → List (Nat × UInt16)
  | .jump op target => [(offset + 1, (Instruction.jump op target).field places offset)]
  | _ => []

/-- The fields of the jumps of a row that is counted from an offset. -/
def fieldsFrom (places : List Nat) : Nat → List Instruction → List (Nat × UInt16)
  | _, [] => []
  | offset, insn :: code =>
    insn.fieldsAt places offset ++ fieldsFrom places (offset + insn.size) code

/-- Fields written over a row of bytes, one after the other. -/
def patch (code : Bytes) (fields : List (Nat × UInt16)) : Bytes :=
  fields.foldl (fun code entry => overwrite code entry.1 entry.2) code

/-- An instruction reaches the place of its label, if it has one. -/
def Instruction.Reaches (layout : Layout) (offset : Nat) : Instruction → Prop
  | .jump _ target => ∃ b field, layout.bindings[target]? = some b ∧
      branchField? ((b.offset : Int) - offset) = some field
  | _ => True

section Patches

variable {places : List Nat} {offset : Nat}

theorem patch_append (code : Bytes) (fields fields' : List (Nat × UInt16)) :
    patch code (fields ++ fields') = patch (patch code fields) fields' :=
  List.foldl_append

@[simp] theorem length_overwrite (code : Bytes) (field : UInt16) :
    (overwrite code offset field).length = code.length := by
  rw [overwrite, List.length_set, List.length_set]

@[simp] theorem length_patch (code : Bytes) (fields : List (Nat × UInt16)) :
    (patch code fields).length = code.length := by
  induction fields generalizing code with
  | nil => rfl
  | cons entry fields ih =>
      change (patch (overwrite code entry.1 entry.2) fields).length = _
      rw [ih, length_overwrite]

/-- The field of an instruction is written in the bytes up to the end of it, wherever these are
counted. -/
theorem patch_fieldsAt_append {insn : Instruction} {front : Bytes} (h : offset ≤ front.length)
    (rest : Bytes) :
    patch (front ++ insn.encode ++ rest) (insn.fieldsAt places offset) =
      patch (front ++ insn.encode) (insn.fieldsAt places offset) ++ rest := by
  cases insn with
  | jump op target =>
      -- the two bytes end no later than the jump
      apply overwrite_append_left
      rw [List.length_append]
      simp only [Instruction.encode, List.length_cons, List.length_nil]
      omega
  | _ => rfl

/-- A jump that is counted where it lies has its field behind its opcode. -/
theorem patch_fieldsAt (insn : Instruction) (front : Bytes) :
    patch (front ++ insn.encode) (insn.fieldsAt places front.length) =
      front ++ insn.bytesAt places front.length := by
  cases insn with
  | jump op target => exact overwrite_append_right front [op.byte, 0, 0] 1 _
  | _ => rfl

/-- Fields that are counted where their jumps lie make the bytes of a row. -/
theorem patch_fieldsFrom {code : List Instruction}
    (h : ∀ insn ∈ code, insn.undercounted = false) (front : Bytes) :
    patch (front ++ code.flatMap Instruction.encode) (fieldsFrom places front.length code) =
      front ++ bytesFrom places front.length code := by
  induction code generalizing front with
  | nil => rfl
  | cons insn code ih =>
      -- the first instruction, with its field, is put to what is in front
      have hsize : (front ++ insn.bytesAt places front.length).length =
          front.length + insn.size := by
        rw [List.length_append, length_bytesAt_eq, length_encode_eq, h insn List.mem_cons_self]
        rfl
      have hrest := ih (fun i hi => h i (List.mem_cons_of_mem _ hi))
        (front ++ insn.bytesAt places front.length)
      rw [hsize] at hrest
      rw [List.flatMap_cons, fieldsFrom, patch_append, ← List.append_assoc,
        patch_fieldsAt_append (Nat.le_refl _), patch_fieldsAt, hrest, bytesFrom,
        List.append_assoc]

/-- A jump has its field among those of its row. -/
theorem mem_fieldsFrom (done : List Instruction) (op : Opcode) (target : Label)
    (todo : List Instruction) :
    (offset + codeSize done + 1,
        (Instruction.jump op target).field places (offset + codeSize done)) ∈
      fieldsFrom places offset (done ++ .jump op target :: todo) := by
  induction done generalizing offset with
  | nil => exact List.mem_cons_self
  | cons insn done ih =>
      rw [List.cons_append, fieldsFrom, codeSize_cons, ← Nat.add_assoc]
      exact List.mem_append_right _ ih

end Patches

/-! ## Written bytes -/

/-- A row is longer than it was counted by the number of undercounted instructions. -/
theorem length_flatMap_encode (code : List Instruction) :
    (code.flatMap Instruction.encode).length =
      codeSize code + code.countP Instruction.undercounted := by
  induction code with
  | nil => rfl
  | cons insn code ih =>
      rw [List.flatMap_cons, List.length_append, ih, length_encode_eq, codeSize_cons,
        List.countP_cons]
      omega

/-- Nothing is undercounted in a row exactly where all of it is counted right. -/
theorem countP_undercounted_eq_zero {code : List Instruction} :
    code.countP Instruction.undercounted = 0 ↔ ∀ insn ∈ code, insn.undercounted = false := by
  simp [List.countP_eq_zero]

/-- No more instructions are undercounted than bytes are counted. -/
theorem countP_undercounted_le (code : List Instruction) :
    code.countP Instruction.undercounted ≤ codeSize code := by
  induction code with
  | nil => exact Nat.le_refl 0
  | cons insn code ih =>
      rw [List.countP_cons, codeSize_cons]
      split
      next h =>
          rw [size_of_undercounted h]
          omega
      next => omega

/-- One more instruction is written behind the others, and then its field. -/
theorem patched_of_appendInstruction {layout : Layout} {code code' : Array UInt8}
    {insn : Instruction} {offset : Nat}
    (h : appendInstruction layout code insn offset = .ok code') :
    insn.Reaches layout offset ∧ code'.toList = patch (code.toList ++ insn.encode)
      (insn.fieldsAt (layout.bindings.toList.map Binding.offset) offset) := by
  cases insn with
  | jump op target =>
      simp only [appendInstruction] at h
      split at h
      · cases h
      next b hb =>
        split at h
        · cases h
        next field hfield =>
          cases h
          refine ⟨⟨b, field, hb, hfield⟩, ?_⟩
          rw [toList_writeField, Array.toList_appendList, Instruction.fieldsAt,
            field_eq_of_branchField? (getElem?_places hb) hfield]
          rfl
  | _ =>
      cases h
      exact ⟨trivial, Array.toList_appendList⟩

/-- Instructions are written one after the other, and the fields of the jumps over them. -/
theorem patched_of_foldlM {layout : Layout} {insns : List Instruction} {offset : Nat}
    {code code' : Array UInt8} (hle : offset ≤ code.size)
    (h : (insns.zip (offsetsFrom offset insns)).foldlM
      (fun code (insn, offset) => appendInstruction layout code insn offset) code = .ok code') :
    (∀ done insn todo, insns = done ++ insn :: todo →
      insn.Reaches layout (offset + codeSize done)) ∧
    code'.toList = patch (code.toList ++ insns.flatMap Instruction.encode)
      (fieldsFrom (layout.bindings.toList.map Binding.offset) offset insns) := by
  induction insns generalizing code offset with
  | nil =>
      cases h
      refine ⟨fun done insn todo heq => ?_, ?_⟩
      · simp at heq
      · rw [List.flatMap_nil, List.append_nil]
        rfl
  | cons insn insns ih =>
      rw [offsetsFrom, List.zip_cons_cons, List.foldlM_cons] at h
      obtain ⟨mid, hstep, hfold⟩ := bind_eq_ok.1 h
      obtain ⟨hreaches, hmid⟩ := patched_of_appendInstruction hstep
      -- no less is written than counted, so that fields are written in what is there
      have hsize : offset + insn.size ≤ mid.size := by
        rw [← Array.length_toList, hmid, length_patch, List.length_append, length_encode_eq,
          Array.length_toList]
        omega
      obtain ⟨hlater, hcode⟩ := ih hsize hfold
      constructor
      · intro done i todo heq
        cases done with
        | nil =>
            obtain ⟨rfl, -⟩ := List.cons.inj heq
            exact hreaches
        | cons head done =>
            obtain ⟨rfl, htail⟩ := List.cons.inj heq
            rw [codeSize_cons, ← Nat.add_assoc]
            exact hlater done i todo htail
      · rw [hcode, hmid, List.flatMap_cons, fieldsFrom, patch_append, ← List.append_assoc,
          patch_fieldsAt_append (by rw [Array.length_toList]; exact hle)]

/-! ## Assembled bodies -/

section Assembled

variable {body : SymbolicCode} {m : MethodCode}

/-- The code of a body is the bytes of its instructions with the fields of its jumps written over
them, and every jump reaches its label. -/
theorem patched_of_assemble (h : body.assemble = .ok m) :
    ∃ layout, Layout.of body = .ok layout ∧
      m.labelOffsets = layout.bindings.toList.map Binding.offset ∧
      (∀ done insn todo, body.instructions.toList = done ++ insn :: todo →
        insn.Reaches layout (codeSize done)) ∧
      m.code = patch (body.instructions.toList.flatMap Instruction.encode)
        (fieldsFrom m.labelOffsets 0 body.instructions.toList) := by
  obtain ⟨layout, code, flow, hlayout, hcode, -, rfl⟩ := assemble_eq_ok h
  rw [encodeBody, ← Array.foldlM_toList, Array.toList_zip, Layout.offsets_eq hlayout] at hcode
  obtain ⟨hreaches, hpatched⟩ := patched_of_foldlM (Nat.le_refl 0) hcode
  have hplaces : (layout.bindings.map Binding.offset).toList =
      layout.bindings.toList.map Binding.offset := Array.toList_map
  refine ⟨layout, hlayout, hplaces, ?_, ?_⟩
  · intro done insn todo heq
    have hinsn := hreaches done insn todo heq
    rwa [Nat.zero_add] at hinsn
  · dsimp only
    rw [hpatched, hplaces]
    rfl

theorem length_of_assemble (h : body.assemble = .ok m) :
    m.code.length = codeSize body.instructions.toList +
      body.instructions.toList.countP Instruction.undercounted := by
  obtain ⟨layout, -, -, -, hcode⟩ := patched_of_assemble h
  rw [hcode, length_patch, length_flatMap_encode]

/-- Assembled code is at most twice as long as a method's code may be counted. -/
theorem length_le_of_assemble (h : body.assemble = .ok m) : m.code.length ≤ 131070 := by
  obtain ⟨layout, hlayout, -⟩ := patched_of_assemble h
  have hle : codeSize body.instructions.toList ≤ 65535 := Layout.codeSize_le hlayout
  have hcount := countP_undercounted_le body.instructions.toList
  rw [length_of_assemble h]
  omega

end Assembled

/-- How the bytes of an assembled body compare to those that were counted. -/
structure Written (body : SymbolicCode) (m : MethodCode) : Prop where
  /-- The code is the bytes of the instructions, with the fields of the jumps written over them. -/
  code_eq : m.code = patch (body.instructions.toList.flatMap Instruction.encode)
    (fieldsFrom m.labelOffsets 0 body.instructions.toList)
  /-- An instruction takes the bytes that were counted for it unless it is undercounted. -/
  size_iff : ∀ insn ∈ body.instructions.toList,
    insn.encode.length = insn.size ↔ insn.undercounted = false
  /-- The code is longer than counted by the number of undercounted instructions. -/
  length_eq : m.code.length = codeSize body.instructions.toList +
    body.instructions.toList.countP Instruction.undercounted
  /-- A jump has the distance of the counted places written behind the byte that was counted for its
  opcode. That is in the code, and in its own operand exactly where no instruction in front of it is
  undercounted. -/
  jump : ∀ done op target todo, body.instructions.toList = done ++ .jump op target :: todo →
    ∃ (place : Nat) (field : UInt16),
      (codeSize done + 1, field) ∈ fieldsFrom m.labelOffsets 0 body.instructions.toList ∧
        m.labelOffsets[target]? = some place ∧
        field.toInt16.toInt = (place : Int) - codeSize done ∧ codeSize done + 3 ≤ m.code.length ∧
        (codeSize done + 1 = (done.flatMap Instruction.encode).length + 1 ↔
          ∀ insn ∈ done, insn.undercounted = false)
  /-- Where no instruction is undercounted, the code is as long as counted, and a jump has the
  distance to its label behind its own opcode. -/
  counted : (∀ insn ∈ body.instructions.toList, insn.undercounted = false) →
    m.code.length = codeSize body.instructions.toList ∧
      m.code = bytesFrom m.labelOffsets 0 body.instructions.toList

/-- Counted and written sizes agree but for undercounted instructions, and each of these moves
what is written for the jumps behind it. -/
theorem written_of_assemble {body : SymbolicCode} {m : MethodCode} (h : body.assemble = .ok m) :
    Written body m := by
  obtain ⟨layout, -, hplaces, hreaches, hcode⟩ := patched_of_assemble h
  have hlength := length_of_assemble h
  constructor
  case code_eq => exact hcode
  case length_eq => exact hlength
  case size_iff =>
    intro insn _
    rw [length_encode_eq]
    cases insn.undercounted <;> simp
  case jump =>
    intro done op target todo hsplit
    -- the jump was accepted, so that its label has a place and its distance a field
    obtain ⟨b, field, hb, hfield⟩ := hreaches done _ todo hsplit
    have hplace : m.labelOffsets[target]? = some b.offset := by
      rw [hplaces]
      exact getElem?_places hb
    have hmem := @mem_fieldsFrom m.labelOffsets 0 done op target todo
    rw [Nat.zero_add, ← hsplit] at hmem
    refine ⟨b.offset, _, hmem, hplace, toInt_field hplace hfield, ?_, ?_⟩
    · -- a jump is counted with its field, and no less is written than counted
      rw [hlength, hsplit, codeSize_append, codeSize_cons]
      simp only [Instruction.size]
      omega
    · rw [← countP_undercounted_eq_zero, length_flatMap_encode]
      omega
  case counted =>
    intro hcounted
    have hnone := countP_undercounted_eq_zero.2 hcounted
    constructor
    · omega
    · rw [hcode]
      exact patch_fieldsFrom hcounted []

/-- A jump behind an access to slot 2 by an opcode without one-byte forms. -/
def displacedGoto : SymbolicCode :=
  ⟨#[.slot .bipush 2, .jump .goto 0, .bind 0, .plain .returnVoid], 1⟩

/-- Its code has one byte more than was counted. -/
theorem displacedGoto_written :
    ∃ m, displacedGoto.assemble = .ok m ∧ Written displacedGoto m ∧ m.code.length = 5 + 1 := by
  obtain ⟨m, hm⟩ := exists_ok_of_toBool
    (by decide +kernel : displacedGoto.assemble.toBool = true)
  have hwritten := written_of_assemble hm
  exact ⟨m, hm, hwritten, hwritten.length_eq⟩

/-- The distance of the jump is written one byte too far in front, over the opcode of the jump. -/
theorem displacedGoto_overwritten :
    ∃ m, displacedGoto.assemble = .ok m ∧ m.code = [0x10, 2, 0, 3, 0, 0xb1] ∧
      (Instruction.slot .bipush 2).encode.length = 2 ∧ (Instruction.slot .bipush 2).size = 1 ∧
      codeSize displacedGoto.instructions.toList = 5 ∧ m.code[2]? ≠ some Opcode.goto.byte := by
  obtain ⟨m, hm⟩ := exists_ok_of_toBool
    (by decide +kernel : displacedGoto.assemble.toBool = true)
  have hcode : displacedGoto.assemble.toOption.map MethodCode.code =
      some [0x10, 2, 0, 3, 0, 0xb1] := by decide +kernel
  rw [hm] at hcode
  have hbytes : m.code = [0x10, 2, 0, 3, 0, 0xb1] := Option.some.inj hcode
  refine ⟨m, hm, hbytes, rfl, rfl, rfl, ?_⟩
  rw [hbytes]
  decide

end StackCodegen.ClassFile
