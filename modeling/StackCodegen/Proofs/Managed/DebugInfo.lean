import StackCodegen.Proofs.ClassFile.ModifiedUtf8
import StackCodegen.Proofs.Managed.Refusals

/-!
# Debug information is inert

The names of the variable table are interned last, when the code is assembled and the method has its
own names (`withMethod_eq`). So a class with a table is the class without one, a table put to its
main method, and constants put behind the others (`Annotates`). A class that is refused without a
table is refused with it, and the table by itself is refused for a full pool only.

The table tells of the argument, of the reader, and of each variable whose name is unqualified and
not taken (`Lists`). Names in the pool are encoded texts, and different texts are encoded
differently (`ModifiedUtf8.encode_injective`).

Main statement: debug information changes nothing but the table and its constants, and the table
holds what it should (`debug_information_inert`).
-/

set_option autoImplicit false

namespace StackCodegen

namespace ClassFile

/-- Names of the rows of a variable table, as the pool spells them. -/
def LocalVariableTable.names (pool : StoredPool) (table : LocalVariableTable) :
    List (Option Bytes) :=
  table.rows.map fun row => pool.text? row.nameIndex

/-- Rows are named as the entries that they tell of. -/
theorem names_of_describes {pool : StoredPool} {codeLength : Nat} {entries : List DebugEntry}
    {table : LocalVariableTable}
    (h : List.Forall₂ (LocalVariable.Describes pool codeLength) entries table.rows) :
    table.names pool = entries.map fun entry => some (ModifiedUtf8.encode entry.name) := by
  rw [LocalVariableTable.names]
  generalize table.rows = rows at h
  induction h with
  | nil => rfl
  | cons head tail ih => rw [List.map_cons, List.map_cons, head.name_eq, ih]

/-- A class of two methods, and the same class with a variable table for the second method, whose
constants, the name of variable tables among them, lie behind the others. -/
structure Annotates (constructor main : Method) (table : LocalVariableTable)
    (bare annotated : ClassFile) : Prop where
  methods_eq : bare.methods = [constructor, main]
  localVariables_eq : main.localVariables = none
  annotated_methods_eq :
    annotated.methods = [constructor, { main with localVariables := some table }]
  pool_prefix : bare.pool.entries.toList <+: annotated.pool.entries.toList
  bare_tableName_eq : bare.tableName = none
  tableName_found : ∃ index, annotated.tableName = some index ∧
    annotated.pool.get? index = some (.utf8 "LocalVariableTable")
  rest_eq : annotated = { bare with
    pool := annotated.pool, tableName := annotated.tableName, methods := annotated.methods }

end ClassFile

namespace Managed

open ClassFile
open ClassFile.ConstantPool (Asks IsPrefix)

/-! ## Classes with and without a table -/

/-- The variable table of a method, and the class with its names. -/
def tabled (c : ClassFile) (codeLength : Nat) (entries : List DebugEntry) :
    Except CodegenError (Option LocalVariableTable × ClassFile) :=
  match c.tabulate codeLength entries with
  | (.ok table, c) => .ok (table, c)
  | (.error e, _) => .error e

section Classes

variable {c : ClassFile} {accessFlags : UInt16} {name descriptor : String} {code : MethodCode}
  {maxLocals : UInt16} {entries : List DebugEntry}

/-- A method gets its name and its descriptor, and then its table. -/
theorem withMethod_eq (entries : List DebugEntry) :
    withMethod c accessFlags name descriptor code maxLocals entries = do
      let (indices, c) ← interned c (internSignature name descriptor)
      let (table, c) ← tabled c code.code.length entries
      return { c with methods := c.methods ++ [⟨accessFlags, indices.1, indices.2, code.maxStack,
        maxLocals, code.code, table⟩] } := by
  unfold withMethod addMethod interned tabled
  rcases c.intern (internSignature name descriptor) with ⟨e | ⟨nameIndex, descriptorIndex⟩, mid⟩
  · rfl
  · dsimp only [bind, Except.bind]
    rcases mid.tabulate code.code.length entries with ⟨e | table, last⟩ <;> rfl

/-- What a table adds to a class. -/
theorem tabulated_of_tabled {codeLength : Nat} {later : ClassFile}
    {table : Option LocalVariableTable} (h : tabled c codeLength entries = .ok (table, later)) :
    c.Grown later [] ∧ Tabulated codeLength entries later table := by
  unfold tabled at h
  have hbuilds : c.Builds (tableCalls c.tableName entries) (TableRefusal codeLength entries)
      (Tabulated codeLength entries) (c.tabulate codeLength entries) := builds_tabulate
  split at h
  next table' later' htable =>
      cases h
      rw [htable] at hbuilds
      obtain ⟨-, -, htabulated⟩ := hbuilds.succeeds table rfl
      exact ⟨hbuilds.grown, htabulated⟩
  next => cases h

/-- A method that is added without a table. -/
theorem withMethod_eq_ok {bare : ClassFile}
    (h : withMethod c accessFlags name descriptor code maxLocals [] = .ok bare) :
    ∃ indices named, interned c (internSignature name descriptor) = .ok (indices, named) ∧
      bare = { named with methods := named.methods ++ [⟨accessFlags, indices.1, indices.2,
        code.maxStack, maxLocals, code.code, none⟩] } := by
  rw [withMethod_eq] at h
  obtain ⟨⟨indices, named⟩, hnamed, h⟩ := bind_eq_ok.1 h
  cases h
  exact ⟨indices, named, hnamed, rfl⟩

/-- What keeps a method from being added without a table keeps it with one. -/
theorem withMethod_eq_error {e : CodegenError} (entries : List DebugEntry)
    (h : withMethod c accessFlags name descriptor code maxLocals [] = .error e) :
    withMethod c accessFlags name descriptor code maxLocals entries = .error e := by
  rw [withMethod_eq] at h ⊢
  rcases bind_eq_error.1 h with h | ⟨_, -, hdone⟩
  · exact bind_eq_error.2 (.inl h)
  · cases hdone

/-- A class that got constants, and at most the name of variable tables, is otherwise the same. -/
theorem eq_of_grown {later : ClassFile} (h : c.Grown later []) :
    later = { c with pool := later.pool, tableName := later.tableName } := by
  obtain ⟨pool, flags, thisClass, superClass, codeName, tableName, methods⟩ := later
  have hmethods := h.methods_eq
  rw [List.append_nil] at hmethods
  cases h.accessFlags_eq
  cases h.thisClass_eq
  cases h.superClass_eq
  cases h.codeName_eq
  cases hmethods
  rfl

/-- A table is put to a method that is there without it. -/
theorem annotates_of_withMethod {constructor : Method} (hmethods : c.methods = [constructor])
    (hnone : c.tableName = none) {bare annotated : ClassFile} (hentries : entries ≠ [])
    (hbare : withMethod c accessFlags name descriptor code maxLocals [] = .ok bare)
    (h : withMethod c accessFlags name descriptor code maxLocals entries = .ok annotated) :
    ∃ main table, Annotates constructor main table bare annotated ∧
      List.Forall₂ (LocalVariable.Describes annotated.pool.stored main.code.length) entries
        table.rows := by
  obtain ⟨indices, named, hnamed, rfl⟩ := withMethod_eq_ok hbare
  -- the names are interned first in both classes, so the second one goes on from the first
  rw [withMethod_eq, hnamed] at h
  obtain ⟨_, hsame, h⟩ := bind_eq_ok.1 h
  cases hsame
  obtain ⟨⟨table, final⟩, hfinal, h⟩ := bind_eq_ok.1 h
  cases h
  obtain ⟨hgrown, htabulated⟩ := tabulated_of_tabled hfinal
  have hpool := eq_of_interned hnamed
  have hone : named.methods = [constructor] := by rw [hpool, hmethods]
  have hnamedNone : named.tableName = none := by rw [hpool, hnone]
  have htableNamed : named.TableNamed := by
    intro index hindex
    rw [hnamedNone] at hindex
    cases hindex
  cases table with
  | none => exact absurd (htabulated.eq_none_iff.1 rfl) hentries
  | some table =>
      have hmethods' := hgrown.methods_eq
      rw [List.append_nil, hone] at hmethods'
      obtain ⟨index, hindex⟩ := htabulated.named rfl
      refine ⟨⟨accessFlags, indices.1, indices.2, code.maxStack, maxLocals, code.code, none⟩, table,
        ⟨?_, rfl, ?_, hgrown.leadsTo.isPrefix, hnamedNone, ⟨index, hindex, ?_⟩, ?_⟩, ?_⟩
      · rw [hone, List.singleton_append]
      · rw [hmethods', List.singleton_append]
      · exact hgrown.tableNamed htableNamed index hindex
      · rw [eq_of_grown hgrown]
      · exact (htabulated.rows table rfl _ (IsPrefix.refl _)).1

end Classes

/-! ## Entries of the table -/

/-- The names under which variables are listed: unqualified ones that are not taken. -/
structure Listable (name : String) : Prop where
  nonempty : name ≠ ""
  unqualified : ∀ c ∈ name.toList, c ∉ ['.', ';', '[', '/']
  free : name ∉ ["args", "input"]

/-- Entries for the argument, the reader, and the listable variables among those with a slot, in
the order of their slots. -/
inductive Lists (slots : List (String × UInt16)) : List DebugEntry → Prop where
  | entries (listed : List (String × UInt16))
      (mem_iff : ∀ name slot, (name, slot) ∈ listed ↔ (name, slot) ∈ slots ∧ Listable name)
      (ordered : listed.Pairwise fun a b => a.2 < b.2) :
      Lists slots (⟨"args", "[Ljava/lang/String;", 0⟩ ::
        ⟨"input", "Ljava/io/BufferedReader;", 1⟩ ::
        listed.map fun (name, slot) => ⟨name, "I", slot⟩)

/-- A name is searched character by character. -/
theorem isUnqualifiedName_eq (name : String) :
    isUnqualifiedName name = (!name.isEmpty &&
      !name.toList.any fun c => c == '.' || c == ';' || c == '[' || c == '/') := by
  have hany : (name.any fun c => c == '.' || c == ';' || c == '[' || c == '/') =
      name.toList.any fun c => c == '.' || c == ';' || c == '[' || c == '/' :=
    String.contains_bool_eq
  rw [isUnqualifiedName, hany]

theorem isUnqualifiedName_iff {name : String} :
    isUnqualifiedName name = true ↔ name ≠ "" ∧ ∀ c ∈ name.toList, c ∉ ['.', ';', '[', '/'] := by
  rw [isUnqualifiedName_eq]
  simp [and_assoc]

/-- Recogniser for listable names. -/
theorem listable_iff {name : String} :
    (isUnqualifiedName name && name != "args" && name != "input") = true ↔ Listable name := by
  rw [Bool.and_eq_true, Bool.and_eq_true, isUnqualifiedName_iff]
  constructor
  · rintro ⟨⟨⟨hne, hplain⟩, hargs⟩, hinput⟩
    exact ⟨hne, hplain, by simpa using ⟨bne_iff_ne.1 hargs, bne_iff_ne.1 hinput⟩⟩
  · rintro ⟨hne, hplain, hfree⟩
    simp only [List.mem_cons, List.not_mem_nil, or_false, not_or] at hfree
    exact ⟨⟨⟨hne, hplain⟩, bne_iff_ne.2 hfree.1⟩, bne_iff_ne.2 hfree.2⟩

/-- Slots are laid out in increasing order. -/
theorem Laid.increasing {slots : List (String × UInt16)} (h : Laid slots) :
    slots.Pairwise fun a b => a.2 < b.2 := by
  rw [List.pairwise_iff_getElem]
  intro i j hi hj hlt
  have h1 := h.slot_eq i _ (List.getElem?_eq_getElem hi)
  have h2 := h.slot_eq j _ (List.getElem?_eq_getElem hj)
  rw [UInt16.lt_iff_toNat_lt]
  omega

/-- The entries of the table are those that it should have. -/
theorem lists_debugEntries {slots : List (String × UInt16)} (h : Laid slots) :
    Lists slots (debugEntries slots) := by
  refine .entries _ (fun name slot => ?_) (h.increasing.sublist List.filter_sublist)
  rw [List.mem_filter, listable_iff]

/-- Entries are of different names. -/
theorem Lists.nodup_names {slots : List (String × UInt16)} (h : Laid slots)
    {entries : List DebugEntry} (hlists : Lists slots entries) :
    (entries.map DebugEntry.name).Nodup := by
  cases hlists with
  | entries listed hmem hordered =>
      have hlistable : ∀ name ∈ listed.map Prod.fst, Listable name := by
        intro name hname
        obtain ⟨⟨_, slot⟩, hentry, rfl⟩ := List.mem_map.1 hname
        exact ((hmem _ _).1 hentry).2
      have hnames : listed.map Prod.fst = (listed.map fun (name, slot) =>
          (⟨name, "I", slot⟩ : DebugEntry)).map DebugEntry.name := by
        rw [List.map_map]
        rfl
      rw [List.map_cons, List.map_cons, ← hnames, List.nodup_cons, List.nodup_cons, List.mem_cons,
        not_or]
      refine ⟨⟨by decide, fun hargs => (hlistable _ hargs).free (by simp)⟩,
        fun hinput => (hlistable _ hinput).free (by simp), ?_⟩
      have hnodup : listed.Nodup := hordered.imp fun hlt heq => by simp [heq] at hlt
      refine hnodup.map_on ?_
      rintro ⟨name, slot⟩ hentry ⟨_, slot'⟩ hentry' rfl
      rw [h.slot_unique ((hmem _ _).1 hentry).1 ((hmem _ _).1 hentry').1]

/-- A variable table of a routine: its rows tell of the entries that it should have, and no two of
them are named alike. -/
structure TellsOf (body : Body) (pool : StoredPool) (codeLength : Nat)
    (table : LocalVariableTable) : Prop where
  rows : ∃ slots entries, allocateSlots body = .ok slots ∧ Lists slots entries ∧
    List.Forall₂ (LocalVariable.Describes pool codeLength) entries table.rows
  nodup_names : (table.names pool).Nodup

theorem tellsOf_of_describes {body : Body} {slots : List (String × UInt16)}
    (hslots : allocateSlots body = .ok slots) {pool : StoredPool} {codeLength : Nat}
    {table : LocalVariableTable}
    (h : List.Forall₂ (LocalVariable.Describes pool codeLength) (debugEntries slots) table.rows) :
    TellsOf body pool codeLength table := by
  have hlaid := laid_of_allocateSlots hslots
  have hlists := lists_debugEntries hlaid
  refine ⟨⟨slots, _, hslots, hlists, h⟩, ?_⟩
  have hencoded : table.names pool = ((debugEntries slots).map DebugEntry.name).map fun name =>
      some (ModifiedUtf8.encode name) := by
    rw [names_of_describes h, List.map_map]
    rfl
  rw [hencoded]
  exact (hlists.nodup_names hlaid).map fun _ _ heq =>
    ModifiedUtf8.encode_injective (Option.some.inj heq)

/-! ## Compilations with and without a table -/

section Compile

variable {className : String} {body : Body}

/-- What is settled when the main method is assembled. -/
theorem assembled_of_assembleMain {assembled : Assembled}
    (h : assembleMain className body = .ok assembled) :
    (∃ constructor, assembled.classFile.methods = [constructor]) ∧
      assembled.classFile.tableName = none ∧ allocateSlots body = .ok assembled.slots ∧ assembled.main.code.length ≤ maxCodeLength := by
  obtain ⟨lowered, hlowered, h⟩ := bind_eq_ok.1 h
  obtain ⟨m, hm, h⟩ := bind_eq_ok.1 h
  cases h
  obtain ⟨constructor, hsettled⟩ := settled_of_lowerClass hlowered
  obtain ⟨⟨opening, blocks, hemitted⟩, -⟩ := hsettled.emitted _ (IsPrefix.refl _)
  have hregular := regular_of_emitted hsettled.laid hemitted
  exact ⟨⟨constructor, hsettled.methods_eq⟩, hsettled.tableName_eq, hsettled.slots_eq,
    code_length_le (fun insn hinsn => (hregular insn hinsn).fitting) hm⟩

/-- A class that is refused without a table is refused with one, for the same reason. -/
theorem compileClass_eq_error {e : CodegenError}
    (h : compileClass ⟨className, false⟩ body = .error e) :
    compileClass ⟨className, true⟩ body = .error e := by
  rcases bind_eq_error.1 h with h | ⟨assembled, hassembled, h⟩
  · exact bind_eq_error.2 (.inl h)
  · exact bind_eq_error.2 (.inr ⟨assembled, hassembled, withMethod_eq_error _ h⟩)

/-- A table by itself is refused for a full pool only. -/
theorem overflow_of_table {bare : ClassFile} {e : CodegenError}
    (hbare : compileClass ⟨className, false⟩ body = .ok bare)
    (h : compileClass ⟨className, true⟩ body = .error e) : e = .constantPoolOverflow := by
  obtain ⟨assembled, hassembled, -⟩ := bind_eq_ok.1 hbare
  rcases bind_eq_error.1 h with h | ⟨assembled', hassembled', h⟩
  · exact absurd (hassembled.symm.trans h) (by simp)
  · obtain ⟨-, -, -, hlength⟩ := assembled_of_assembleMain hassembled'
    rcases cause_of_withMethod h with htable | ⟨hfull, -⟩
    · -- a table refuses long code, but assembled code is never too long for it
      cases htable with
      | tooLong htabulated hlong => exact absurd hlength (Nat.not_le.2 hlong)
    · exact hfull

/-- Debug information is inert. A class that is compiled with it is compiled without it. The two
classes have the same constructor and the same main method, but for the table of its variables; the
constants of the one are the first of the other, and all else is the same. The table has a row for
the argument and one for the reader, and then one for each variable whose name is unqualified and
not taken, with its slot and in the order of slots; its names are pairwise different. A class that
is refused without debug information is refused with it, and one that is refused only with it is so
because its pool is full. -/
theorem debug_information_inert (className : String) (body : Body) :
    (∀ annotated, compileClass ⟨className, true⟩ body = .ok annotated →
      ∃ bare constructor main table, compileClass ⟨className, false⟩ body = .ok bare ∧
        Annotates constructor main table bare annotated ∧
        TellsOf body annotated.pool.stored main.code.length table) ∧
    (∀ e, compileClass ⟨className, false⟩ body = .error e →
      compileClass ⟨className, true⟩ body = .error e) ∧
    ∀ bare e, compileClass ⟨className, false⟩ body = .ok bare →
      compileClass ⟨className, true⟩ body = .error e → e = .constantPoolOverflow := by
  refine ⟨fun annotated h => ?_, fun e => compileClass_eq_error, fun bare e => overflow_of_table⟩
  cases hbare : compileClass ⟨className, false⟩ body with
  | error e => exact absurd (h.symm.trans (compileClass_eq_error hbare)) (by simp)
  | ok bare =>
      obtain ⟨assembled, hassembled, hfinish⟩ := bind_eq_ok.1 h
      obtain ⟨_, hsame, hfinish'⟩ := bind_eq_ok.1 hbare
      -- both classes are finished from the same assembled parts
      cases hassembled.symm.trans hsame
      obtain ⟨⟨constructor, hmethods⟩, hnone, hslots, -⟩ := assembled_of_assembleMain hassembled
      obtain ⟨main, table, hannotates, hrows⟩ :=
        annotates_of_withMethod hmethods hnone (List.cons_ne_nil _ _) hfinish' hfinish
      exact ⟨bare, constructor, main, table, rfl, hannotates, tellsOf_of_describes hslots hrows⟩

/-- A routine of three variables, of which the first has a name that is taken and the second one a
name that is not unqualified. -/
def oddlyNamed : Body :=
  #[.push 1, .store "args", .push 2, .store "a.b", .push 3, .store "n", .load "n",
    .call (.intrinsic .write)]

/-- The third variable alone is listed, behind the argument and the reader. -/
theorem oddlyNamed_debug_information :
    ∃ annotated bare constructor main table,
      compileClass ⟨"Program", true⟩ oddlyNamed = .ok annotated ∧
      compileClass ⟨"Program", false⟩ oddlyNamed = .ok bare ∧
      Annotates constructor main table bare annotated ∧
      TellsOf oddlyNamed annotated.pool.stored main.code.length table ∧
      table.rows.map LocalVariable.slot = [0, 1, 4] := by
  have hslots : (compileClass ⟨"Program", true⟩ oddlyNamed).toOption.bind (fun c =>
      (c.methods.getLast?.bind Method.localVariables).map fun table =>
        table.rows.map LocalVariable.slot) = some [0, 1, 4] := by
    simp only [compileClass, Assembled.finish, debugEntries, isUnqualifiedName_eq]
    decide +kernel
  cases hannotated : compileClass ⟨"Program", true⟩ oddlyNamed with
  | error e =>
      rw [hannotated] at hslots
      cases hslots
  | ok annotated =>
      obtain ⟨bare, constructor, main, table, hbare, hannotates, htells⟩ :=
        (debug_information_inert "Program" oddlyNamed).1 annotated hannotated
      refine ⟨annotated, bare, constructor, main, table, rfl, hbare, hannotates, htells, ?_⟩
      rw [hannotated, Except.toOption, Option.bind_some, hannotates.annotated_methods_eq] at hslots
      exact Option.some.inj hslots

end Compile

end Managed

end StackCodegen
