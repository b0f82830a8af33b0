import StackCodegen.Proofs.Except
import StackCodegen.Proofs.Managed.TypedCode

/-!
# Compiled classes

A compiled class is read back from its bytes, and the method that programs start in is the assembled
main method of the routine. Main statement: the bytes hold an executable whose code was emitted for
the routine, typed and assembled (`compiled_of_compileClass`).
-/

set_option autoImplicit false

namespace StackCodegen.Managed

open ClassFile
open ClassFile.ConstantPool (Asks Call Interning IsPrefix LeadsTo ProvidesAll)

/-- The method that the bytes of a class start in, ready to run. -/
def loaded? (bytes : Bytes) : Option Executable := (read? bytes).bind StoredClass.executable?

section Interned

variable {α β : Type} {c : ClassFile}

/-- Constants are added one computation after the other. -/
theorem interned_bind (x : Interning α) (k : α → Interning β) :
    interned c (x >>= k) = interned c x >>= fun (a, c) => interned c (k a) := by
  obtain ⟨pool, accessFlags, thisClass, superClass, codeName, methods⟩ := c
  simp only [interned, intern, ConstantPool.run_bind]
  cases x.run pool with
  | mk result mid => cases result <;> rfl

theorem interned_throw (e : CodegenError) : interned c (throw e : Interning α) = .error e := by
  obtain ⟨pool, accessFlags, thisClass, superClass, codeName, methods⟩ := c
  rfl

end Interned

section Steps

variable {α : Type} {c later : ClassFile} {calls : List Call} {causes : CodegenError → Prop}
  {Q : ConstantPool → α → Prop} {x : Interning α}

/-- Interning changes the pool of a class and nothing else. -/
theorem eq_of_interned {a : α} (h : interned c x = .ok (a, later)) :
    later = { c with pool := later.pool } := by
  unfold interned at h
  split at h
  next a' later' hintern =>
      cases h
      rw [intern_eq] at hintern
      rw [← (Prod.mk.inj hintern).2]
  next => cases h

/-- Constants that were added to a class are those that were asked for. -/
theorem grown_of_interned (hx : Asks calls causes Q x) {a : α}
    (h : interned c x = .ok (a, later)) :
    c.Grown later [] ∧ c.pool.RoomFor calls ∧ later.pool = c.pool.after calls ∧
      ∀ pool, IsPrefix later.pool pool → Q pool a := by
  unfold interned at h
  have hbuilds := builds_intern (c := c) hx
  split at h
  next a' later' hintern =>
      cases h
      rw [hintern] at hbuilds
      obtain ⟨hroom, hafter, -, hQ⟩ := hbuilds.succeeds a rfl
      exact ⟨hbuilds.grown, hroom, hafter, hQ⟩
  next => cases h

theorem cause_of_interned (hx : Asks calls causes Q x) {e : CodegenError}
    (h : interned c x = .error e) :
    causes e ∨ e = .constantPoolOverflow ∧ ¬ c.pool.RoomFor calls := by
  unfold interned at h
  have hbuilds := builds_intern (c := c) hx
  split at h
  next => cases h
  next e' later' hintern =>
      cases h
      rw [hintern] at hbuilds
      exact hbuilds.fails e rfl

variable {accessFlags : UInt16} {name descriptor : String} {code : MethodCode} {maxLocals : UInt16}
  {entries : List DebugEntry}

theorem added_of_withMethod
    (h : withMethod c accessFlags name descriptor code maxLocals entries = .ok later) :
    ∃ m, Added c later ⟨accessFlags, name, descriptor, code, maxLocals, entries⟩ m := by
  unfold withMethod at h
  split at h
  next later' hadd =>
      cases h
      exact added_of_add hadd
  next => cases h

theorem cause_of_withMethod {e : CodegenError}
    (h : withMethod c accessFlags name descriptor code maxLocals entries = .error e) :
    TableRefusal code.code.length entries e ∨ e = .constantPoolOverflow ∧
      ¬ c.pool.RoomFor (methodCalls c.tableName name descriptor entries) := by
  unfold withMethod at h
  split at h
  next => cases h
  next e' later' hadd =>
      cases h
      have hrefused : Refused c later' ⟨accessFlags, name, descriptor, code, maxLocals, entries⟩ e :=
        refused_of_add hadd
      exact hrefused.cause

end Steps

/-- Assembled code fits a method. -/
theorem code_length_le {body : SymbolicCode} {m : MethodCode}
    (hfit : ∀ insn ∈ body.instructions.toList, insn.Fitting) (h : body.assemble = .ok m) :
    m.code.length ≤ 65535 := by
  obtain ⟨layout, flow, hassembly⟩ := assembly_of_assemble hfit h
  rw [hassembly.encodes.length_eq hfit]
  exact Layout.codeSize_le hassembly.layout_eq

theorem regular_constructorCode (init : UInt16) :
    ∀ insn ∈ (constructorCode init).instructions.toList, insn.Regular := by
  intro insn hinsn
  simp only [constructorCode, List.mem_cons, List.not_mem_nil, or_false] at hinsn
  rcases hinsn with rfl | rfl | rfl
  · rfl
  · rfl
  · decide

/-- Emitted code is regular. -/
theorem regular_of_emitted {pool : StoredPool} {slots : List (String × UInt16)}
    (hslots : Laid slots) {body : Body} {opening : List Instruction}
    {blocks : List (List Instruction)} {code : SymbolicCode}
    (h : Emitted pool slots body opening blocks code) :
    ∀ insn ∈ code.instructions.toList, insn.Regular := by
  obtain ⟨types, -, htypes⟩ := (typed_of_emitted hslots h).types
  intro insn hinsn
  obtain ⟨done, todo, hcode⟩ := List.append_of_mem hinsn
  exact (htypes done insn todo hcode).2.regular

/-! ## The steps of a compilation -/

/-- The class with its constructor, and the slots of the variables: what there is before the main
method is lowered. -/
def prepare (className : String) (body : Body) :
    Except CodegenError (ClassFile × List (String × UInt16)) := do
  let c ← ClassFile.create className objectClass
  let (constructor, c) ← interned c lowerConstructor
  let c ← withMethod c accPublic "<init>" "()V" (← constructor.assemble) 1 []
  let slots ← allocateSlots body
  return (c, slots)

theorem lowerClass_eq (className : String) (body : Body) :
    lowerClass className body = do
      let (c, slots) ← prepare className body
      let (main, c) ← interned c (lowerMain slots body)
      return ⟨c, slots, main⟩ := by
  simp only [lowerClass, prepare, bind_assoc, pure_bind]

/-- The steps of a class that was prepared. -/
theorem prepare_eq_ok {className : String} {body : Body} {c : ClassFile}
    {slots : List (String × UInt16)} (h : prepare className body = .ok (c, slots)) :
    ∃ created code named assembled, ClassFile.create className objectClass = .ok created ∧
      interned created lowerConstructor = .ok (code, named) ∧
      code.assemble = .ok assembled ∧
      withMethod named accPublic "<init>" "()V" assembled 1 [] = .ok c ∧
      allocateSlots body = .ok slots := by
  unfold prepare at h
  obtain ⟨created, hcreate, h⟩ := bind_eq_ok.1 h
  obtain ⟨⟨code, named⟩, hnamed, h⟩ := bind_eq_ok.1 h
  obtain ⟨assembled, hassembled, h⟩ := bind_eq_ok.1 h
  obtain ⟨built, hbuilt, h⟩ := bind_eq_ok.1 h
  obtain ⟨slots', hslots, h⟩ := bind_eq_ok.1 h
  cases h
  exact ⟨created, code, named, assembled, hcreate, hnamed, hassembled, hbuilt, hslots⟩

theorem slots_of_prepare {className : String} {body : Body} {c : ClassFile}
    {slots : List (String × UInt16)} (h : prepare className body = .ok (c, slots)) :
    allocateSlots body = .ok slots := by
  obtain ⟨_, _, _, _, -, -, -, -, hslots⟩ := prepare_eq_ok h
  exact hslots

/-- The steps of a class that was lowered. -/
theorem lowerClass_eq_ok {className : String} {body : Body} {lowered : Lowered}
    (h : lowerClass className body = .ok lowered) :
    ∃ c, prepare className body = .ok (c, lowered.slots) ∧
      interned c (lowerMain lowered.slots body) = .ok (lowered.main, lowered.classFile) := by
  rw [lowerClass_eq] at h
  obtain ⟨⟨c, slots⟩, hprepared, h⟩ := bind_eq_ok.1 h
  obtain ⟨⟨main, final⟩, hmain, h⟩ := bind_eq_ok.1 h
  cases h
  exact ⟨c, hprepared, hmain⟩

/-- The calls on the pool up to the main method: for the names of the class, and for its
constructor. -/
def prepareCalls (className : String) : List Call :=
  createCalls className objectClass ++ constructorConstants ++ methodCalls none "<init>" "()V" []

/-- A class with its constructor, and the slots of the variables. -/
structure Prepared (className : String) (body : Body) (c : ClassFile)
    (slots : List (String × UInt16)) (constructor : Method) : Prop where
  slots_eq : allocateSlots body = .ok slots
  leadsTo : LeadsTo .empty c.pool
  roomFor : ConstantPool.empty.RoomFor (prepareCalls className)
  pool_eq : c.pool = ConstantPool.empty.after (prepareCalls className)
  intact : c.Intact
  titled : c.Titled c.pool className objectClass
  accessFlags_eq : c.accessFlags = accPublic ||| accSuper
  tableName_eq : c.tableName = none
  methods_eq : c.methods = [constructor]
  constructorFlags_eq : constructor.accessFlags = accPublic
  resolves : constructor.Resolves c.pool c.tableName "<init>" "()V" [] constructorConstants

/-- What a class that was prepared consists of. -/
theorem prepared_of_prepare {className : String} {body : Body} {c : ClassFile}
    {slots : List (String × UInt16)} (h : prepare className body = .ok (c, slots)) :
    ∃ constructor, Prepared className body c slots constructor := by
  obtain ⟨created, code, named, assembled, hcreate, hnamed, hassembled, hbuilt, hslots⟩ :=
    prepare_eq_ok h
  have hcreated := created_of_create hcreate
  have hasks : Asks _ (fun _ => False) _ _ := asks_lowerConstructor
  obtain ⟨hgrown, hroom, hafter, hcode⟩ := grown_of_interned hasks hnamed
  obtain ⟨⟨init, rfl⟩, huses⟩ := hcode _ (IsPrefix.refl _)
  have hregular := regular_constructorCode init
  obtain ⟨m, hadded⟩ := added_of_withMethod hbuilt
  obtain ⟨listing, hlisting, hprovides⟩ :=
    ConstantPool.provides_of_assemble hregular huses hassembled
  have hlength := code_length_le (fun insn hinsn => (hregular insn hinsn).fitting) hassembled
  have hnamedIntact := hcreated.intact.grown hgrown fun _ hm => absurd hm List.not_mem_nil
  have hintact := hadded.intact hnamedIntact (hlength.trans (by decide)) (Nat.zero_le _)
  -- neither the constants nor a constructor without a table put the name of tables to the class
  have hnone : named.tableName = none := by rw [eq_of_interned hnamed, hcreated.tableName_eq]
  have hyields := hadded.yields _ (IsPrefix.refl _)
  have hall := hgrown.trans hadded.grown
  refine ⟨m, hslots, hcreated.leadsTo.trans hall.leadsTo, ?_, ?_, hintact, hcreated.titled.grown hall,
    hall.accessFlags_eq.trans hcreated.accessFlags_eq, ?_, ?_, hyields.accessFlags_eq, ?_⟩
  · rw [prepareCalls, ConstantPool.roomFor_append, ConstantPool.roomFor_append,
      ConstantPool.after_append, ← hcreated.pool_eq, ← hafter, ← hnone]
    exact ⟨⟨hcreated.roomFor, hroom⟩, hadded.roomFor⟩
  · rw [prepareCalls, ConstantPool.after_append, ConstantPool.after_append, ← hcreated.pool_eq,
      ← hafter, ← hnone]
    exact hadded.pool_eq
  · rw [hadded.tableName_eq rfl, hnone]
  · rw [hall.methods_eq, hcreated.methods_eq]
    rfl
  · refine ⟨hadded.refers hintact.tableNamed _ (IsPrefix.refl _), listing, ?_, ?_⟩
    · rw [hyields.code_eq]
      exact hlisting
    · exact hprovides.later hadded.grown.leadsTo.isPrefix

/-- What is settled when the main method is lowered: a class with one method, which programs do not
start in, and the emitted code, which uses the constants of the routine. -/
structure Settled (className : String) (body : Body) (lowered : Lowered) (constructor : Method) :
    Prop where
  slots_eq : allocateSlots body = .ok lowered.slots
  leadsTo : LeadsTo .empty lowered.classFile.pool
  intact : lowered.classFile.Intact
  titled : lowered.classFile.Titled lowered.classFile.pool className objectClass
  methods_eq : lowered.classFile.methods = [constructor]
  constructorFlags_eq : constructor.accessFlags = accPublic
  resolves : constructor.Resolves lowered.classFile.pool lowered.classFile.tableName "<init>" "()V"
    [] constructorConstants
  laid : Laid lowered.slots
  roomFor : ConstantPool.empty.RoomFor (prepareCalls className ++ mainConstants body)
  pool_eq : lowered.classFile.pool =
    ConstantPool.empty.after (prepareCalls className ++ mainConstants body)
  tableName_eq : lowered.classFile.tableName = none
  emitted : ∀ pool, IsPrefix lowered.classFile.pool pool →
    (∃ opening blocks, Emitted pool.stored lowered.slots body opening blocks lowered.main) ∧
      pool.ProvidesAll (usesOf lowered.main.instructions.toList) (mainConstants body)

/-- A class that was lowered holds its constructor and the constants of the routine. -/
theorem settled_of_lowerClass {className : String} {body : Body} {lowered : Lowered}
    (h : lowerClass className body = .ok lowered) :
    ∃ constructor, Settled className body lowered constructor := by
  obtain ⟨c, hprepare, hmain⟩ := lowerClass_eq_ok h
  obtain ⟨constructor, hprepared⟩ := prepared_of_prepare hprepare
  have hlaid := laid_of_allocateSlots hprepared.slots_eq
  obtain ⟨hgrown, hroom, hafter, hemitted⟩ := grown_of_interned (asks_lowerMain hlaid body) hmain
  have hmethods := hgrown.methods_eq
  rw [List.append_nil] at hmethods
  refine ⟨constructor, hprepared.slots_eq, hprepared.leadsTo.trans hgrown.leadsTo,
    hprepared.intact.grown hgrown fun _ hm => absurd hm List.not_mem_nil,
    hprepared.titled.grown hgrown, hmethods.trans hprepared.methods_eq,
    hprepared.constructorFlags_eq, hprepared.resolves.grown hgrown, hlaid, ?_, ?_, ?_, hemitted⟩
  · rw [ConstantPool.roomFor_append, ← hprepared.pool_eq]
    exact ⟨hprepared.roomFor, hroom⟩
  · rw [ConstantPool.after_append, ← hprepared.pool_eq]
    exact hafter
  · rw [eq_of_interned hmain]
    exact hprepared.tableName_eq

/-- A routine's class, with all that was settled on the way. -/
structure Compiled (options : Options) (body : Body) (c : ClassFile) (lowered : Lowered)
    (m : MethodCode) (e : Executable) (layout : Layout) (flow : Flow) (types : Nat → FrameType)
    (opening : List Instruction) (blocks : List (List Instruction)) : Prop where
  lowered_eq : lowerClass options.className body = .ok lowered
  assembled_eq : lowered.main.assemble = .ok m
  laid : Laid lowered.slots
  emitted : Emitted c.pool.stored lowered.slots body opening blocks lowered.main
  loaded_eq : loaded? c.bytes = some e
  checked : Checked e (mainContext c.pool.stored lowered.slots.length) lowered.main m layout flow
    types

/-- The number of variable-table entries fits its field. -/
theorem length_debugEntries_le {slots : List (String × UInt16)} (hslots : Laid slots) :
    (debugEntries slots).length ≤ 65535 := by
  have hle := hslots.length_le
  unfold firstVariableSlot at hle
  have hfilter := List.length_filter_le
    (fun entry : String × UInt16 =>
      isUnqualifiedName entry.1 && entry.1 != "args" && entry.1 != "input") slots
  simp only [debugEntries, List.length_cons, List.length_map]
  exact le_trans (Nat.add_le_add_right (Nat.add_le_add_right hfilter 1) 1) (by omega)

/-- The bytes of a compiled class hold the typed and assembled code of the routine. -/
theorem compiled_of_compileClass {options : Options} {body : Body} {c : ClassFile}
    (h : compileClass options body = .ok c) :
    ∃ lowered m e layout flow types opening blocks,
      Compiled options body c lowered m e layout flow types opening blocks := by
  unfold compileClass assembleMain at h
  obtain ⟨assembled, hassembled, h⟩ := bind_eq_ok.1 h
  obtain ⟨lowered, hlowered, hassembled⟩ := bind_eq_ok.1 hassembled
  obtain ⟨m, hm, hassembled⟩ := bind_eq_ok.1 hassembled
  cases hassembled
  unfold Assembled.finish at h
  obtain ⟨constructor, hsettled⟩ := settled_of_lowerClass hlowered
  have hlaid := hsettled.laid
  have hentries :
      (if options.debugInfo then debugEntries lowered.slots else []).length ≤ 65535 := by
    split
    · exact length_debugEntries_le hlaid
    · exact Nat.zero_le _
  -- the code is typed in any later pool; the pool it was lowered in is the first of them
  obtain ⟨⟨opening₀, blocks₀, hemitted₀⟩, -⟩ := hsettled.emitted _ (IsPrefix.refl _)
  have hregular := regular_of_emitted hlaid hemitted₀
  obtain ⟨main, hadded⟩ := added_of_withMethod h
  have hlength := code_length_le (fun insn hinsn => (hregular insn hinsn).fitting) hm
  have hfinal := hadded.intact hsettled.intact (hlength.trans (by decide)) hentries
  have hgrown := hadded.grown
  obtain ⟨⟨opening, blocks, hemitted⟩, -⟩ := hsettled.emitted _ hgrown.leadsTo.isPrefix
  have hreturns : ∃ front, lowered.main.instructions.toList = front ++ [.plain .returnVoid] :=
    ⟨opening ++ zeroVariables lowered.slots ++ blocks.flatten ++ [.bind body.size], by
      rw [hemitted.code_eq]
      simp⟩
  obtain ⟨layout, flow, types, hchecked⟩ :=
    checked_of_typed (typed_of_emitted hlaid hemitted) hreturns hm
  have hread : read? c.bytes = some c.stored := by
    refine read?_bytes (hfinal.storable ?_)
    rw [hgrown.methods_eq, hsettled.methods_eq]
    exact (by decide : 2 ≤ 65535)
  have hyields := hadded.yields _ (IsPrefix.refl _)
  have hrefers := hadded.refers hfinal.tableNamed _ (IsPrefix.refl _)
  have hmainIs : c.stored.main? = some main := by
    have hfirst : (accPublic == accPublic ||| accStatic) = false := by decide
    rw [StoredClass.main?, stored, hgrown.methods_eq, hsettled.methods_eq, List.singleton_append,
      List.find?_cons, hsettled.constructorFlags_eq, hfirst, List.find?_cons,
      hyields.accessFlags_eq]
    have hname : c.pool.stored.isText "main" main.nameIndex = true :=
      ConstantPool.isText_of_get? hrefers.name_found
    have hdescriptor : c.pool.stored.isText "([Ljava/lang/String;)V" main.descriptorIndex = true :=
      ConstantPool.isText_of_get? hrefers.descriptor_found
    simp only [ConstantPool.stored] at hname hdescriptor
    simp [hname, hdescriptor]
  refine ⟨lowered, m, _, layout, flow, types, opening, blocks, hlowered, hm, hlaid, hemitted, ?_,
    hchecked⟩
  rw [loaded?, hread, Option.bind_some, StoredClass.executable?, hmainIs, Option.map_some,
    hyields.maxStack_eq, hyields.maxLocals_eq, hyields.code_eq]
  rfl

end StackCodegen.Managed
