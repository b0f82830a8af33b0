import StackCodegen.Proofs.ClassFile.LabelHeights
import StackCodegen.Proofs.ClassFile.Refusals
import StackCodegen.Proofs.Managed.Blocks
import StackCodegen.Proofs.Managed.ClassConstants

/-!
# Why a routine is refused

A routine of statements that the target provides, with jumps inside the body or to its end, names no
unknown variable, label or target on the way to its class (`Provided.not_unlowered`). So it is
refused for want of room, or by the stack checks of its main method (`refused_of_compile`). Want of
room has four forms: there is none for the constants, which are known in advance (`classCalls`);
there are too many variables (`NoRoom`); the code of the main method is too long, or one of its jumps
is (`TooLarge`).
-/

set_option autoImplicit false

namespace StackCodegen

/-- Recogniser for the errors of programs that are too large for a class file. -/
def CodegenError.isLimit : CodegenError → Bool
  | branchOutOfRange _ | codeTooLarge _ | constantPoolOverflow | tooManyLocals _ => true
  | _ => false

namespace Managed

open ClassFile
open ClassFile.ConstantPool (Asks Call Interning IsPrefix)

/-- Statements that the target provides, with jumps inside the body or to its end. -/
structure Provided (body : Body) : Prop where
  statements : ∀ statement ∈ body.toList, isProvided statement = true
  targets : ∀ jump ∈ body.jumpTargets, jump.2.toNat ≤ body.size

/-! ## Lowering -/

/-- The statements of a provided body have jumps inside the body. -/
theorem Provided.target_le {body : Body} (h : Provided body) {statement : Statement}
    (hmem : statement ∈ body.toList) {target : UInt64}
    (htarget : statement.jumpTarget? = some target) : target.toNat ≤ body.size := by
  obtain ⟨index, hindex⟩ := List.getElem?_of_mem hmem
  rw [Array.getElem?_toList] at hindex
  exact h.targets (index, target) (Body.mem_jumpTargets.2 ⟨statement, hindex, htarget⟩)

/-- Every variable of a body has a slot. -/
theorem exists_slot {body : Body} {slots : List (String × UInt16)}
    (hslots : allocateSlots body = .ok slots) {statement : Statement}
    (hmem : statement ∈ body.toList) {name : String}
    (hname : statement.variableName? = some name) : ∃ slot, (name, slot) ∈ slots := by
  have hin : name ∈ slots.map Prod.fst := by
    rw [fst_of_allocateSlots hslots]
    exact body.mem_variableNames hmem hname
  obtain ⟨⟨_, slot⟩, hentry, rfl⟩ := List.mem_map.1 hin
  exact ⟨slot, hentry⟩

/-- A statement that is provided and jumps inside the body or to its end is lowered if there is room
for its constants. -/
theorem not_unlowered {body : Body} {slots : List (String × UInt16)}
    (hslots : allocateSlots body = .ok slots) {statement : Statement}
    (hmem : statement ∈ body.toList) (hprovided : isProvided statement = true)
    (htarget : ∀ target, statement.jumpTarget? = some target → target.toNat ≤ body.size)
    {index : Nat} {e : CodegenError} : ¬ Unlowered slots body.size index statement e := by
  intro h
  cases h with
  | unprovided hmissing =>
      rw [hprovided] at hmissing
      cases hmissing
  | unknown hname hfree =>
      obtain ⟨slot, hslot⟩ := exists_slot hslots hmem hname
      exact hfree slot hslot
  | outside hjumps hpast => exact absurd (htarget _ hjumps) (Nat.not_le.2 hpast)

/-- A provided body is lowered if there is room for its constants. -/
theorem Provided.not_unlowered {body : Body} {slots : List (String × UInt16)} (h : Provided body)
    (hslots : allocateSlots body = .ok slots) {e : CodegenError} :
    ¬ UnloweredFrom slots body.size 0 body.toList e := by
  rintro ⟨k, statement, hk, hunlowered⟩
  have hmem := List.mem_of_getElem? hk
  exact Managed.not_unlowered hslots hmem (h.statements statement hmem)
    (fun _ => h.target_le hmem) hunlowered

/-! ## Labels -/

section Labels

variable {pool : StoredPool} {slots : List (String × UInt16)} {length index next last : Nat}
  {statements : List Statement} {blocks : List (List Instruction)}

/-- The blocks bind the labels of their statements and those that they take. -/
theorem mem_boundLabels_emitsAll (h : EmitsAll pool slots length index statements next blocks last)
    {label : Nat}
    (hlabel : index ≤ label ∧ label < index + statements.length ∨ next ≤ label ∧ label < last) :
    label ∈ boundLabels blocks.flatten := by
  induction h with
  | nil =>
      rw [List.length_nil] at hlabel
      omega
  | @cons index statement statements next mid last block blocks head tail ih =>
      obtain ⟨hmid, hblock⟩ := boundLabels_emits head
      rw [List.length_cons] at hlabel
      rw [List.flatten_cons, List.cons_append, boundLabels_bind, boundLabels_append, hblock,
        List.mem_cons, List.mem_append, List.mem_range'_1]
      by_cases hrest : index + 1 ≤ label ∧ label < index + 1 + statements.length ∨
          mid ≤ label ∧ label < last
      · exact .inr (.inr (ih hrest))
      · omega

/-- A jump of a block leads into the body, or to a label of the block. -/
theorem target_of_emits {statement : Statement} {mid : Nat} {block : List Instruction}
    {op : Opcode} {target : Nat} (h : Emits pool slots length statement next block mid)
    (hmem : .jump op target ∈ block) : target ≤ length ∨ target < mid := by
  cases h with
  | push h =>
      rw [List.mem_singleton] at hmem
      subst hmem
      cases h
  | @comparison _ operator branch h =>
      simp only [comparison, List.mem_cons, Instruction.jump.injEq, reduceCtorEq, false_or,
        or_false,
        List.not_mem_nil] at hmem
      rcases hmem with ⟨-, rfl⟩ | ⟨-, rfl⟩
      · exact .inr (by omega)
      · exact .inr (by omega)
  | jump h =>
      simp only [List.mem_singleton, Instruction.jump.injEq] at hmem
      exact .inl (hmem.2 ▸ h)
  | jumpIfZero h =>
      simp only [List.mem_cons, List.not_mem_nil, Instruction.jump.injEq, reduceCtorEq, false_or,
        or_false] at hmem
      exact .inl (hmem.2 ▸ h)
  | _ => simp at hmem

theorem le_of_emitsAll (h : EmitsAll pool slots length index statements next blocks last) :
    next ≤ last := by
  induction h with
  | nil => exact le_refl _
  | cons head tail ih => exact le_trans (boundLabels_emits head).1 ih

theorem target_of_emitsAll (h : EmitsAll pool slots length index statements next blocks last)
    {op : Opcode} {target : Nat} (hmem : .jump op target ∈ blocks.flatten) :
    target ≤ length ∨ target < last := by
  induction h with
  | nil => cases hmem
  | @cons index statement statements next mid last block blocks head tail ih =>
      have hle := le_of_emitsAll tail
      rw [List.flatten_cons, List.mem_append] at hmem
      rcases hmem with hmem | hmem
      · rcases target_of_emits head (by simpa using hmem) with htarget | htarget
        · exact .inl htarget
        · exact .inr (Nat.lt_of_lt_of_le htarget hle)
      · exact ih hmem

end Labels

section Emitted

variable {pool : StoredPool} {slots : List (String × UInt16)} {body : Body}
  {opening : List Instruction} {blocks : List (List Instruction)} {code : SymbolicCode}

/-- Emitted code binds exactly the labels that it counts. -/
theorem Emitted.mem_boundLabels_iff (h : Emitted pool slots body opening blocks code)
    {label : Nat} :
    label ∈ boundLabels code.instructions.toList ↔ label < code.labelCount := by
  obtain ⟨hlast, -, hmem⟩ := boundLabels_emitsAll h.blocks_emitted (by simp) (Nat.lt_succ_self _)
  have hopening : boundLabels opening = [] := by
    cases h.opens
    rfl
  have hclosing : boundLabels [Instruction.bind body.size, .plain .returnVoid] = [body.size] := rfl
  rw [h.code_eq, boundLabels_append, boundLabels_append, boundLabels_append, hopening,
    boundLabels_zeroVariables, hclosing, List.nil_append, List.nil_append, List.mem_append,
    List.mem_singleton]
  have hlength : body.toList.length = body.size := Array.length_toList
  constructor
  · rintro (hlabel | rfl)
    · have := hmem label hlabel
      omega
    · omega
  · intro hlabel
    by_cases hsize : label = body.size
    · exact .inr hsize
    · exact .inl (mem_boundLabels_emitsAll h.blocks_emitted (by omega))

/-- Emitted code is well labelled. -/
theorem Emitted.labelled (h : Emitted pool slots body opening blocks code) : code.Labelled := by
  refine ⟨h.nodup_boundLabels, fun label => h.mem_boundLabels_iff.1, fun op target hmem => ?_⟩
  have hsize := h.size_lt_labelCount
  rw [h.code_eq] at hmem
  simp only [List.mem_append] at hmem
  rcases hmem with ((hmem | hmem) | hmem) | hmem
  · cases h.opens
    simp at hmem
  · obtain ⟨entry, -, hentry⟩ := List.mem_flatMap.1 hmem
    simp at hentry
  · rcases target_of_emitsAll h.blocks_emitted hmem with htarget | htarget
    · omega
    · exact htarget
  · simp at hmem

end Emitted

/-! ## Steps of a compilation -/

/-- The constructor is assembled, whatever index its member has. -/
theorem exists_assemble_constructor (init : UInt16) :
    ∃ m, (constructorCode init).assemble = .ok m := by
  have hsize : codeSize (constructorCode init).instructions.toList = 5 := rfl
  have hheights : Admits (fun _ => none) (some 0) (constructorCode init).instructions.toList := by
    rw [constructorCode, admits_cons, accepts_inner rfl, carry_inner rfl, Option.map_some,
      admits_cons, accepts_inner rfl, admits_cons]
    exact ⟨Nat.zero_le _, le_refl 1, accepts_return, trivial⟩
  cases h : (constructorCode init).assemble with
  | ok m => exact ⟨m, rfl⟩
  | error e =>
      rcases assemble_eq_error h with hlayout | ⟨layout, hlayout, hcode | hflow⟩
      · rcases Layout.of_eq_error hlayout with ⟨hlong, -⟩ | ⟨-, label, hlt, -⟩
        · rw [hsize] at hlong
          exact absurd hlong (by decide)
        · exact absurd hlt (Nat.not_lt_zero label)
      · obtain ⟨done, op, target, todo, hsplit, -⟩ := encodeBody_eq_error hlayout hcode
        have hmem : Instruction.jump op target ∈ done ++ .jump op target :: todo := by simp
        rw [← hsplit] at hmem
        simp [constructorCode] at hmem
      · obtain ⟨flow, hok⟩ := exists_analyse hlayout hheights
        rw [hok] at hflow
        cases hflow

/-- Want of room for a row of calls, or for the slots of the variables. -/
inductive NoRoom (calls : List Call) (body : Body) : CodegenError → Prop where
  | overflow (full : ¬ ConstantPool.empty.RoomFor calls) :
      NoRoom calls body .constantPoolOverflow
  | slots (many : 65535 < firstVariableSlot + body.variableNames.length) :
      NoRoom calls body (.tooManyLocals (firstVariableSlot + body.variableNames.length))

/-- Code that is too long, or has a jump that is. -/
inductive TooLarge (code : SymbolicCode) : CodegenError → Prop where
  | code (long : maxCodeLength < codeSize code.instructions.toList) :
      TooLarge code (.codeTooLarge (codeSize code.instructions.toList))
  | branch {layout : Layout} {done todo : List Instruction} {op : Opcode} {target : Label}
      {b : Binding} (hlayout : Layout.of code = .ok layout)
      (split : code.instructions.toList = done ++ .jump op target :: todo)
      (bound : layout.bindings[target]? = some b)
      (far : branchField? ((b.offset : Int) - codeSize done) = none) :
      TooLarge code (.branchOutOfRange ((b.offset : Int) - codeSize done))

/-- The texts of the variable table of a routine, behind its name. -/
def tableTexts (body : Body) : List Call :=
  (debugEntries (numbered body.variableNames)).flatMap entryCalls

/-- The calls on the pool for the names of the main method and of its variable table. -/
def methodTexts (options : Options) (body : Body) : List Call :=
  [.utf8 routineName, .utf8 mainDescriptor] ++
    if options.debugInfo then .utf8 "LocalVariableTable" :: tableTexts body else []

/-- The calls on the pool of the class of a routine, in order: for the names of the class and its
constructor, for the code of the main method, and for its names. -/
def classCalls (options : Options) (body : Body) : List Call :=
  prepareCalls options.className ++ mainConstants body ++ methodTexts options body

section Compile

variable {c : ClassFile} {e : CodegenError} {className : String} {body : Body}
  {calls calls' : List Call}

theorem NoRoom.isLimit (h : NoRoom calls body e) : e.isLimit = true := by
  cases h <;> rfl

theorem TooLarge.isLimit {code : SymbolicCode} (h : TooLarge code e) : e.isLimit = true := by
  cases h <;> rfl

/-- Where there is no room for the first calls, there is none for all. -/
theorem NoRoom.append (h : NoRoom calls body e) (calls' : List Call) :
    NoRoom (calls ++ calls') body e := by
  cases h with
  | overflow full => exact .overflow fun hroom => full (ConstantPool.roomFor_append.1 hroom).1
  | slots many => exact .slots many

/-- Want of room in a pool that went through some calls. -/
theorem NoRoom.of_after (h : e = .constantPoolOverflow ∧
    ¬ (ConstantPool.empty.after calls).RoomFor calls') : NoRoom (calls ++ calls') body e := by
  rw [h.1]
  exact .overflow fun hroom => h.2 (ConstantPool.roomFor_append.1 hroom).2

/-- A class is prepared if there is room. -/
theorem noRoom_of_prepare (h : prepare className body = .error e) :
    NoRoom (prepareCalls className) body e := by
  unfold prepare at h
  rcases bind_eq_error.1 h with h | ⟨created, hcreate, h⟩
  · obtain ⟨rfl, hfull⟩ := full_of_create h
    exact NoRoom.append (.append (.overflow hfull) _) _
  have hcreated := created_of_create hcreate
  have hasks : Asks _ (fun _ => False) _ _ := asks_lowerConstructor
  rcases bind_eq_error.1 h with h | ⟨⟨constructor, named⟩, hconstructor, h⟩
  · have hcause := (cause_of_interned hasks h).resolve_left id
    rw [hcreated.pool_eq] at hcause
    exact (NoRoom.of_after hcause).append _
  obtain ⟨-, -, hafter, hcode⟩ := grown_of_interned hasks hconstructor
  rcases bind_eq_error.1 h with h | ⟨code, -, h⟩
  · -- the constructor is the same in every class, up to the index of its member
    obtain ⟨⟨init, rfl⟩, -⟩ := hcode _ (IsPrefix.refl _)
    obtain ⟨m, hm⟩ := exists_assemble_constructor init
    rw [hm] at h
    cases h
  rcases bind_eq_error.1 h with h | ⟨built, -, h⟩
  · -- it has no variable table, so only the pool can refuse it
    rcases cause_of_withMethod h with htable | hcause
    · cases htable with
      | tooLong htabulated => exact absurd rfl htabulated
    · have hnone : named.tableName = none := by
        rw [eq_of_interned hconstructor, hcreated.tableName_eq]
      rw [hafter, hcreated.pool_eq, ← ConstantPool.after_append, hnone] at hcause
      exact NoRoom.of_after hcause
  rcases bind_eq_error.1 h with h | ⟨slots, -, h⟩
  · obtain ⟨hmany, rfl⟩ := allocateSlots_eq_error_iff.1 h
    exact .slots hmany
  · cases h

/-- A provided routine is lowered to a class if there is room. -/
theorem noRoom_of_lowerClass (hprovided : Provided body)
    (h : lowerClass className body = .error e) :
    NoRoom (prepareCalls className ++ mainConstants body) body e := by
  rw [lowerClass_eq] at h
  rcases bind_eq_error.1 h with h | ⟨⟨prepared, slots⟩, hprepare, h⟩
  · exact (noRoom_of_prepare h).append _
  obtain ⟨constructor, hprepared⟩ := prepared_of_prepare hprepare
  have hlaid := laid_of_allocateSlots hprepared.slots_eq
  rcases bind_eq_error.1 h with h | ⟨main, -, h⟩
  · have hcause := (cause_of_interned (asks_lowerMain hlaid body) h).resolve_left
      (hprovided.not_unlowered hprepared.slots_eq)
    rw [hprepared.pool_eq] at hcause
    exact .of_after hcause
  · cases h

/-- The main method is refused for its size, or by the stack checks. -/
theorem refused_of_assemble {lowered : Lowered} (hlowered : lowerClass className body = .ok lowered)
    (h : lowered.main.assemble = .error e) :
    TooLarge lowered.main e ∨ ∃ layout, Layout.of lowered.main = .ok layout ∧
      analyse lowered.main.instructions layout = .error e := by
  obtain ⟨constructor, hsettled⟩ := settled_of_lowerClass hlowered
  obtain ⟨⟨opening, blocks, hemitted⟩, -⟩ := hsettled.emitted _ (IsPrefix.refl _)
  rcases assemble_eq_error h with hlayout | ⟨layout, hlayout, hcode | hflow⟩
  · rcases Layout.of_eq_error hlayout with ⟨hlong, rfl⟩ | ⟨-, label, hlt, hfree, -⟩
    · exact .inl (.code hlong)
    · exact absurd (hemitted.mem_boundLabels_iff.2 hlt) hfree
  · obtain ⟨done, op, target, todo, hsplit, ⟨hnone, -⟩ | ⟨b, hbound, hfar, rfl⟩⟩ :=
      encodeBody_eq_error hlayout hcode
    · have htarget := hemitted.labelled.target_lt op target (by rw [hsplit]; simp)
      rw [← Layout.size_bindings hlayout] at htarget
      rw [Array.getElem?_eq_getElem htarget] at hnone
      cases hnone
    · exact .inl (.branch hlayout hsplit hbound hfar)
  · exact .inr ⟨layout, hlayout, hflow⟩

/-- The texts of a variable table are those of the names alone. -/
theorem methodCalls_main {options : Options} {slots : List (String × UInt16)}
    (h : allocateSlots body = .ok slots) :
    methodCalls none routineName mainDescriptor
      (if options.debugInfo then debugEntries slots else []) = methodTexts options body := by
  rw [(allocateSlots_eq_ok_iff.1 h).2, methodCalls, methodTexts]
  cases options.debugInfo <;> rfl

/-- A provided routine is refused for want of room, or by the stack checks. -/
theorem refused_of_compile {options : Options} (hprovided : Provided body)
    (h : compile options body = .error e) :
    NoRoom (classCalls options body) body e ∨
      ∃ lowered, lowerClass options.className body = .ok lowered ∧
        (TooLarge lowered.main e ∨ ∃ layout, Layout.of lowered.main = .ok layout ∧
          analyse lowered.main.instructions layout = .error e) := by
  have hclass : compileClass options body = .error e := map_eq_error.1 h
  unfold compileClass assembleMain at hclass
  rcases bind_eq_error.1 hclass with hassemble | ⟨assembled, hassembled, hfinish⟩
  · rcases bind_eq_error.1 hassemble with hlower | ⟨lowered, hlowered, hassemble⟩
    · exact .inl ((noRoom_of_lowerClass hprovided hlower).append _)
    · rcases bind_eq_error.1 hassemble with hmain | ⟨m, -, hdone⟩
      · exact .inr ⟨lowered, hlowered, refused_of_assemble hlowered hmain⟩
      · cases hdone
  · obtain ⟨lowered, hlowered, hassembled⟩ := bind_eq_ok.1 hassembled
    obtain ⟨m, hm, hassembled⟩ := bind_eq_ok.1 hassembled
    cases hassembled
    obtain ⟨constructor, hsettled⟩ := settled_of_lowerClass hlowered
    obtain ⟨⟨opening, blocks, hemitted⟩, -⟩ := hsettled.emitted _ (IsPrefix.refl _)
    have hregular := regular_of_emitted hsettled.laid hemitted
    rcases cause_of_withMethod hfinish with htable | hcause
    · -- assembled code is never too long for a table
      have hlength := code_length_le (fun insn hinsn => (hregular insn hinsn).fitting) hm
      cases htable with
      | tooLong _ hlong => exact absurd hlength (Nat.not_le.2 hlong)
    · rw [hsettled.tableName_eq, hsettled.pool_eq, methodCalls_main hsettled.slots_eq] at hcause
      exact .inl (.of_after hcause)

end Compile

end Managed

end StackCodegen
