import StackCodegen.Proofs.Managed.CompiledClass

/-!
# Constants of compiled classes

The code of a routine uses constants in three places: the opening of the reader, the reading and
printing of integers, and the pushing of integers that fit no operand of two bytes. Their indices
are taken statement by statement while the pool grows, and written into the code as one byte or two.

Main statement: in a compiled class, and in any pool that later calls make of its pool, every index
leads to what the lowering asked for at that place (`class_constants_resolve`).
-/

set_option autoImplicit false

namespace StackCodegen.Managed

open ClassFile
open ClassFile.ConstantPool (Call IsPrefix LeadsTo)

/-- The parts of a compiled class: the class with its constructor, the assembled main method, and
that method put to the class. -/
theorem finished_of_compileClass {options : Options} {body : Body} {c : ClassFile}
    (h : compileClass options body = .ok c) :
    ∃ lowered m constructor main, lowerClass options.className body = .ok lowered ∧
      lowered.main.assemble = .ok m ∧ Settled options.className body lowered constructor ∧
      Added lowered.classFile c ⟨accPublic ||| accStatic, routineName, mainDescriptor, m,
        .ofNat (firstVariableSlot + lowered.slots.length),
        if options.debugInfo then debugEntries lowered.slots else []⟩ main := by
  unfold compileClass assembleMain at h
  obtain ⟨assembled, hassembled, h⟩ := bind_eq_ok.1 h
  obtain ⟨lowered, hlowered, hassembled⟩ := bind_eq_ok.1 hassembled
  obtain ⟨m, hm, hassembled⟩ := bind_eq_ok.1 hassembled
  cases hassembled
  obtain ⟨constructor, hsettled⟩ := settled_of_lowerClass hlowered
  obtain ⟨main, hadded⟩ := added_of_withMethod h
  exact ⟨lowered, m, constructor, main, hlowered, hm, hsettled, hadded⟩

/-- No index in a compiled class dangles or leads to a constant of another kind. The constants
refer to earlier ones of the right kinds. In the pool of the class, and in what any further calls
make of it, the class's own names, the names, descriptors and variable tables of both methods, and
the operands in their decoded code lead to what was asked for: the class and its superclass, the
texts of the methods and of the debug entries, and, one for each use in the code, the integer, the
class, or the owner, name and descriptor that the lowering named there. -/
theorem class_constants_resolve {options : Options} {body : Body} {c : ClassFile}
    (h : compileClass options body = .ok c) :
    c.pool.Grounded ∧ ∃ slots constructor main,
      allocateSlots body = .ok slots ∧ c.methods = [constructor, main] ∧
      ∀ later : List Call,
        c.Titled (c.pool.after later) options.className objectClass ∧
        constructor.Resolves (c.pool.after later) c.tableName "<init>" "()V" []
          constructorConstants ∧
        main.Resolves (c.pool.after later) c.tableName routineName mainDescriptor
          (if options.debugInfo then debugEntries slots else []) (mainConstants body) := by
  obtain ⟨lowered, m, constructor, main, hlowered, hm, hsettled, hadded⟩ :=
    finished_of_compileClass h
  obtain ⟨⟨opening, blocks, hemitted⟩, huses⟩ := hsettled.emitted _ (IsPrefix.refl _)
  obtain ⟨listing, hlisting, hprovides⟩ :=
    ConstantPool.provides_of_assemble (regular_of_emitted hsettled.laid hemitted) huses hm
  have hgrown := hadded.grown
  refine ⟨(hsettled.leadsTo.trans hgrown.leadsTo).grounded ConstantPool.grounded_empty,
    lowered.slots, constructor, main, hsettled.slots_eq, ?_, fun later => ?_⟩
  · rw [hgrown.methods_eq, hsettled.methods_eq]
    rfl
  · have hlater := ConstantPool.isPrefix_after c.pool later
    refine ⟨(hsettled.titled.grown hgrown).later hlater, (hsettled.resolves.grown hgrown).later hlater,
      hadded.refers (hgrown.tableNamed hsettled.intact.tableNamed) _ hlater, listing, ?_, ?_⟩
    · rw [(hadded.yields _ (IsPrefix.refl _)).code_eq]
      exact hlisting
    · exact hprovides.later (hgrown.leadsTo.isPrefix.trans hlater)

/-- A routine that reads an integer and prints it with 65536 added. Its variable has the name of a
method of the library. -/
def shiftRoutine : Body :=
  #[.call (.intrinsic .read), .push 65536, .binary .add, .store "println", .load "println",
    .call (.intrinsic .write)]

/-- In a class that is called `Code`, as the attribute of its methods is, the names do not get in
each other's way: the class's own name, the table's entry of the variable, and the uses of the code
are found, also after another class of the variable's name is asked for. -/
theorem shift_constants_resolve :
    ∃ c slots constructor main,
      compileClass ⟨"Code", true⟩ shiftRoutine = .ok c ∧ c.pool.Grounded ∧
        allocateSlots shiftRoutine = .ok slots ∧ c.methods = [constructor, main] ∧
        (c.pool.after [.classRef "println"]).HoldsClass c.thisClass "Code" ∧
        main.Resolves (c.pool.after [.classRef "println"]) c.tableName "main"
          "([Ljava/lang/String;)V" (debugEntries slots)
          (openingConstants ++
            [.methodRef "java/io/BufferedReader" "readLine" "()Ljava/lang/String;",
              .methodRef "java/lang/Integer" "parseInt" "(Ljava/lang/String;)I", .integer 65536,
              .fieldRef "java/lang/System" "out" "Ljava/io/PrintStream;",
              .methodRef "java/io/PrintStream" "println" "(I)V"]) := by
  have hok : (compileClass ⟨"Code", true⟩ shiftRoutine).toBool = true := by
    unfold compileClass Assembled.finish debugEntries isUnqualifiedName
    -- the search through a string is one through its characters, which evaluates
    simp only [String.any, String.contains_bool_eq]
    decide +kernel
  obtain ⟨c, hc⟩ := exists_ok_of_toBool hok
  obtain ⟨hgrounded, slots, constructor, main, hslots, hmethods, hresolve⟩ :=
    class_constants_resolve hc
  obtain ⟨htitled, -, hmain⟩ := hresolve [.classRef "println"]
  exact ⟨c, slots, constructor, main, hc, hgrounded, hslots, hmethods, htitled.thisClass_found,
    hmain⟩

end StackCodegen.Managed
