import StackCodegen.Proofs.ClassFile.Building
import StackCodegen.Proofs.ClassFile.Disassembly

/-!
# Uses of constants

A class refers to its constants from its own names, from the names of its methods, from the rows of
variable tables, and from the code, where the operand of some opcodes is the index of a constant.
Each of these indices was asked for by a call on the pool while the class was made.

Main statements: assembled code is decoded to the uses of its instructions (`provides_of_assemble`);
what a method refers to stays in place while the class grows (`Method.Resolves.grown`).
-/

set_option autoImplicit false

namespace StackCodegen.ClassFile

/-! ## Constants in code -/

/-- Recogniser for the opcodes whose operand is the index of a constant. -/
def Opcode.takesConstant : Opcode → Bool
  | ldc | ldcW | new | getstatic | invokevirtual | invokespecial | invokestatic => true
  | _ => false

/-- The use of a constant: the opcode and the index. -/
def Operation.constantUse? : Operation → Option (Opcode × UInt16)
  | .byte op operand => if op.takesConstant then some (op, operand.toUInt16) else none
  | .short op operand => if op.takesConstant then some (op, operand) else none
  | _ => none

/-- The uses of constants in decoded code, in order. -/
def constantUses (listing : List (Nat × Operation)) : List (Opcode × UInt16) :=
  listing.filterMap fun entry => entry.2.constantUse?

/-- The use of a constant by an instruction that is not decoded yet. -/
def Instruction.constantUse? (insn : Instruction) : Option (Opcode × UInt16) :=
  (insn.reading 0).constantUse?

/-- The uses of constants by a row of instructions, in order. -/
def usesOf (code : List Instruction) : List (Opcode × UInt16) :=
  code.filterMap Instruction.constantUse?

theorem usesOf_append (code code' : List Instruction) :
    usesOf (code ++ code') = usesOf code ++ usesOf code' := List.filterMap_append

theorem constantUse?_plain (op : Opcode) : (Instruction.plain op).constantUse? = none := by
  rw [Instruction.constantUse?, Instruction.reading]
  split <;> rfl

/-- Jumps use no constant, whatever their field. -/
theorem constantUse?_reading {insn : Instruction} (hreg : insn.Regular) (field : UInt16) :
    (insn.reading field).constantUse? = insn.constantUse? := by
  cases insn with
  | jump op target =>
      have hkind : op.operandKind = .distance := hreg
      simp only [Instruction.constantUse?, Instruction.reading, Operation.ofShort, if_pos hkind]
      rfl
  | _ => rfl

/-- Decoded code uses the constants that its instructions use. -/
theorem constantUses_operationsFrom {places : List Nat} {offset : Nat} {code : List Instruction}
    (hreg : ∀ insn ∈ code, insn.Regular) :
    constantUses (operationsFrom places offset code) = usesOf code := by
  induction code generalizing offset with
  | nil => rfl
  | cons insn code ih =>
      obtain ⟨hinsn, hcode⟩ := List.forall_mem_cons.1 hreg
      have hrest : constantUses (operationsFrom places (offset + insn.size) code) = usesOf code :=
        ih hcode
      rw [operationsFrom, usesOf, List.filterMap_cons]
      split
      next hbind =>
          have hnone : insn.constantUse? = none := by
            cases insn <;> first | rfl | cases hbind
          rw [hnone]
          exact hrest
      next =>
          simp only [constantUses, usesOf, List.filterMap_cons, constantUse?_reading hinsn]
            at hrest ⊢
          rw [hrest]

namespace ConstantPool

/-! ## What the uses lead to -/

/-- The opcodes that go with what a call asks for. -/
def Call.suits (op : Opcode) : Call → Bool
  | integer _ => op == .ldc || op == .ldcW
  | classRef _ => op == .new
  | fieldRef .. => op == .getstatic
  | methodRef .. => op == .invokevirtual || op == .invokespecial || op == .invokestatic
  | _ => false

/-- The index of a use leads to what a call asks for, which goes with the opcode. -/
def Provides (pool : ConstantPool) (use : Opcode × UInt16) (call : Call) : Prop :=
  call.suits use.1 = true ∧ call.FoundAt pool use.2

theorem Provides.later {pool later : ConstantPool} {use : Opcode × UInt16} {call : Call}
    (h : pool.Provides use call) (hle : IsPrefix pool later) : later.Provides use call :=
  ⟨h.1, h.2.later hle⟩

/-- A row of uses and a row of calls, one for each other. -/
abbrev ProvidesAll (pool : ConstantPool) (uses : List (Opcode × UInt16)) (calls : List Call) :
    Prop := List.Forall₂ pool.Provides uses calls

theorem ProvidesAll.later {pool later : ConstantPool} {uses : List (Opcode × UInt16)}
    {calls : List Call} (h : pool.ProvidesAll uses calls) (hle : IsPrefix pool later) :
    later.ProvidesAll uses calls :=
  List.Forall₂.imp (fun _ _ hprovides => hprovides.later hle) h

/-- Assembled code is decoded to the uses of its instructions. -/
theorem provides_of_assemble {pool : ConstantPool} {body : SymbolicCode} {m : MethodCode}
    {calls : List Call} (hreg : ∀ insn ∈ body.instructions.toList, insn.Regular)
    (huses : pool.ProvidesAll (usesOf body.instructions.toList) calls)
    (h : body.assemble = .ok m) :
    ∃ listing, disassemble? m.code = some listing ∧
      pool.ProvidesAll (constantUses listing) calls := by
  have hread := disassembled_of_assemble (fun insn hinsn => (hreg insn hinsn).fitting) h
  refine ⟨_, hread.listing, ?_⟩
  rw [constantUses_operationsFrom hreg]
  exact huses

end ConstantPool

open ConstantPool

/-- The indices in a method lead to its name and descriptor, to the texts of its variable table if
there is one, and from its decoded code to what a row of calls asks for. -/
structure Method.Resolves (pool : ConstantPool) (tableName : Option UInt16)
    (name descriptor : String) (entries : List DebugEntry) (calls : List Call) (m : Method) : Prop
    extends m.Refers pool tableName name descriptor entries where
  code_found : ∃ listing, disassemble? m.code = some listing ∧
    pool.ProvidesAll (constantUses listing) calls

/-- What a method refers to stays in place. -/
theorem Method.Resolves.later {pool later : ConstantPool} {tableName : Option UInt16}
    {name descriptor : String} {entries : List DebugEntry} {calls : List Call} {m : Method}
    (h : m.Resolves pool tableName name descriptor entries calls) (hle : IsPrefix pool later) :
    m.Resolves later tableName name descriptor entries calls := by
  obtain ⟨listing, hlisting, hprovides⟩ := h.code_found
  exact ⟨h.toRefers.later hle, listing, hlisting, hprovides.later hle⟩

/-- A method keeps what it refers to while the class grows. -/
theorem Method.Resolves.grown {c later : ClassFile} {more : List Method} {name descriptor : String}
    {entries : List DebugEntry} {calls : List Call} {m : Method}
    (h : m.Resolves c.pool c.tableName name descriptor entries calls)
    (hgrown : c.Grown later more) :
    m.Resolves later.pool later.tableName name descriptor entries calls := by
  have hlater := h.later hgrown.leadsTo.isPrefix
  refine ⟨⟨hlater.name_found, hlater.descriptor_found, hlater.table_eq_none_iff,
    fun table htable => ?_⟩, hlater.code_found⟩
  obtain ⟨⟨index, hindex, hname⟩, hrows⟩ := hlater.table_found table htable
  exact ⟨⟨index, hgrown.tableName_eq index hindex, hname⟩, hrows⟩

end StackCodegen.ClassFile
