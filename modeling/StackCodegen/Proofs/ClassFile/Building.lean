import StackCodegen.Proofs.ClassFile.Interning

/-!
# Building classes

A class is built by steps that put constants to its pool, methods to the others, and at most the
name of variable tables where it has none (`Grown`). `Builds` says of a step what `Asks` says of a
computation on the pool: the calls that it makes where it succeeds, and what may keep it from
succeeding. Failing or not, a step leaves a class with all that it had.

Main statements: a method is added as it was asked for (`added_of_add`), or nothing but constants and
the name of tables is (`refused_of_add`); a new class has its names (`created_of_create`); and a class
that is `Intact` stays so while it grows, and can be stored (`Intact.grown`, `Intact.storable`).
-/

set_option autoImplicit false

namespace StackCodegen.ClassFile

open ConstantPool

/-! ## Methods -/

/-- A row that tells of a debug entry, over the whole of a code. -/
structure LocalVariable.Describes (pool : StoredPool) (codeLength : Nat) (entry : DebugEntry)
    (row : LocalVariable) : Prop where
  startPc_eq : row.startPc = 0
  length_eq : row.length.toNat = codeLength
  name_eq : pool.text? row.nameIndex = some (ModifiedUtf8.encode entry.name)
  descriptor_eq : pool.text? row.descriptorIndex = some (ModifiedUtf8.encode entry.descriptor)
  slot_eq : row.slot = entry.slot

/-- There is a variable table if there are debug entries, with a row for each of them. -/
structure Tabulates (pool : StoredPool) (codeLength : Nat) (entries : List DebugEntry)
    (table : Option LocalVariableTable) : Prop where
  eq_none_iff : table = none ↔ entries = []
  rows : ∀ t, table = some t →
    List.Forall₂ (LocalVariable.Describes pool codeLength) entries t.rows

/-- What a method is made of. -/
structure MethodRequest where
  accessFlags : UInt16
  name : String
  descriptor : String
  body : MethodCode
  maxLocals : UInt16
  entries : List DebugEntry
  deriving DecidableEq

/-- The result of adding a method, and the class with it. -/
def add (c : ClassFile) (r : MethodRequest) : Except CodegenError Unit × ClassFile :=
  c.addMethod r.accessFlags r.name r.descriptor r.body r.maxLocals r.entries

/-- A method that is as it was asked for. -/
structure MethodRequest.Yields (pool : StoredPool) (r : MethodRequest) (m : Method) : Prop where
  accessFlags_eq : m.accessFlags = r.accessFlags
  name_eq : pool.text? m.nameIndex = some (ModifiedUtf8.encode r.name)
  descriptor_eq : pool.text? m.descriptorIndex = some (ModifiedUtf8.encode r.descriptor)
  maxStack_eq : m.maxStack = r.body.maxStack
  maxLocals_eq : m.maxLocals = r.maxLocals
  code_eq : m.code = r.body.code
  tabulates : Tabulates pool r.body.code.length r.entries m.localVariables

/-- A row of a variable table refers to the name and the descriptor of a debug entry. -/
def LocalVariable.Resolves (pool : ConstantPool) (entry : DebugEntry) (row : LocalVariable) :
    Prop :=
  pool.get? row.nameIndex = some (.utf8 entry.name) ∧
    pool.get? row.descriptorIndex = some (.utf8 entry.descriptor)

/-- A variable table of a class that knows the name of tables refers, row by row, to the texts of
debug entries. -/
structure LocalVariableTable.Resolves (pool : ConstantPool) (tableName : Option UInt16)
    (entries : List DebugEntry) (table : LocalVariableTable) : Prop where
  attributeName_found : ∃ index, tableName = some index ∧
    pool.get? index = some (.utf8 "LocalVariableTable")
  rows_found : List.Forall₂ (LocalVariable.Resolves pool) entries table.rows

/-- A method refers to its name and descriptor, and to the texts of its variable table. -/
structure Method.Refers (pool : ConstantPool) (tableName : Option UInt16)
    (name descriptor : String) (entries : List DebugEntry) (m : Method) : Prop where
  name_found : pool.get? m.nameIndex = some (.utf8 name)
  descriptor_found : pool.get? m.descriptorIndex = some (.utf8 descriptor)
  table_eq_none_iff : m.localVariables = none ↔ entries = []
  table_found : ∀ table, m.localVariables = some table → table.Resolves pool tableName entries

theorem LocalVariableTable.Resolves.later {pool later : ConstantPool} {tableName : Option UInt16}
    {entries : List DebugEntry} {table : LocalVariableTable}
    (h : table.Resolves pool tableName entries) (hle : IsPrefix pool later) :
    table.Resolves later tableName entries where
  attributeName_found := by
    obtain ⟨index, hindex, hget⟩ := h.attributeName_found
    exact ⟨index, hindex, hle.get? hget⟩
  rows_found := List.Forall₂.imp (fun _ _ hrow => ⟨hle.get? hrow.1, hle.get? hrow.2⟩) h.rows_found

/-- What a method refers to stays in place. -/
theorem Method.Refers.later {pool later : ConstantPool} {tableName : Option UInt16}
    {name descriptor : String} {entries : List DebugEntry} {m : Method}
    (h : m.Refers pool tableName name descriptor entries) (hle : IsPrefix pool later) :
    m.Refers later tableName name descriptor entries where
  name_found := hle.get? h.name_found
  descriptor_found := hle.get? h.descriptor_found
  table_eq_none_iff := h.table_eq_none_iff
  table_found := fun table htable => (h.table_found table htable).later hle

/-- The texts of a debug entry. -/
def entryCalls (entry : DebugEntry) : List Call := [.utf8 entry.name, .utf8 entry.descriptor]

section Rows

variable {causes : CodegenError → Prop} {codeLength : Nat}

theorem asks_internSignature (name descriptor : String) :
    Asks [.utf8 name, .utf8 descriptor] causes
      (fun pool indices => pool.get? indices.1 = some (.utf8 name) ∧
        pool.get? indices.2 = some (.utf8 descriptor)) (internSignature name descriptor) :=
  (asks_utf8 name).bind fun _ => (asks_utf8 descriptor).map fun _ _ hdescriptor hname =>
    ⟨hname, hdescriptor⟩

theorem asks_internDebugEntry (hlength : codeLength ≤ 65535) (entry : DebugEntry) :
    Asks (entryCalls entry) causes
      (fun pool row => row.Describes pool.stored codeLength entry ∧ row.Resolves pool entry)
      (internDebugEntry (.ofNat codeLength) entry) := by
  refine (asks_utf8 entry.name).bind fun nameIndex => ?_
  refine (asks_utf8 entry.descriptor).map fun pool descriptorIndex hdescriptor hname => ?_
  exact ⟨⟨rfl, UInt16.toNat_ofNat_of_lt' (Nat.lt_succ_of_le hlength), text?_of_get? hname,
    text?_of_get? hdescriptor, rfl⟩, hname, hdescriptor⟩

/-- What keeps a variable table from being made, other than want of room: code that is too long for
the field that holds its length. -/
inductive TableRefusal (codeLength : Nat) (entries : List DebugEntry) : CodegenError → Prop where
  | tooLong (tabulated : entries ≠ []) (long : maxCodeLength < codeLength) :
      TableRefusal codeLength entries (.codeTooLarge codeLength)

/-- Rows are one for each entry. -/
theorem asks_internDebugEntries {entries : List DebugEntry} (hne : entries ≠ []) :
    Asks (entries.flatMap entryCalls) (TableRefusal codeLength entries)
      (fun pool table =>
        List.Forall₂ (LocalVariable.Describes pool.stored codeLength) entries table.rows ∧
          List.Forall₂ (LocalVariable.Resolves pool) entries table.rows)
      (internDebugEntries codeLength entries) := by
  unfold internDebugEntries
  -- the length is checked in front of the rows
  dsimp only
  split
  next hlong =>
      rw [throw_bind]
      exact Asks.throw (.tooLong hne hlong)
  next hlength =>
      have hle : codeLength ≤ 65535 := Nat.le_of_not_lt hlength
      refine Asks.map (Asks.mapM (asks_internDebugEntry hle) entries) fun pool rows hboth => ⟨?_, ?_⟩
      · exact List.Forall₂.imp (fun _ _ hrow => hrow.1) hboth
      · exact List.Forall₂.imp (fun _ _ hrow => hrow.2) hboth

end Rows

/-! ## Classes that grow -/

/-- The name of variable tables is found, if the class has one. -/
def TableNamed (c : ClassFile) : Prop :=
  ∀ index, c.tableName = some index → c.pool.get? index = some (.utf8 "LocalVariableTable")

/-- A class and the same class with more constants and more methods, and at most the name of
variable tables put to it. -/
structure Grown (c later : ClassFile) (more : List Method) : Prop where
  leadsTo : LeadsTo c.pool later.pool
  accessFlags_eq : later.accessFlags = c.accessFlags
  thisClass_eq : later.thisClass = c.thisClass
  superClass_eq : later.superClass = c.superClass
  codeName_eq : later.codeName = c.codeName
  tableName_eq : ∀ index, c.tableName = some index → later.tableName = some index
  tableNamed : c.TableNamed → later.TableNamed
  methods_eq : later.methods = c.methods ++ more

theorem Grown.refl (c : ClassFile) : c.Grown c [] :=
  ⟨LeadsTo.refl _, rfl, rfl, rfl, rfl, fun _ => id, id, (List.append_nil _).symm⟩

theorem Grown.trans {c mid later : ClassFile} {more more' : List Method} (h : c.Grown mid more)
    (h' : mid.Grown later more') : c.Grown later (more ++ more') where
  leadsTo := h.leadsTo.trans h'.leadsTo
  accessFlags_eq := h'.accessFlags_eq.trans h.accessFlags_eq
  thisClass_eq := h'.thisClass_eq.trans h.thisClass_eq
  superClass_eq := h'.superClass_eq.trans h.superClass_eq
  codeName_eq := h'.codeName_eq.trans h.codeName_eq
  tableName_eq := fun index hindex => h'.tableName_eq index (h.tableName_eq index hindex)
  tableNamed := fun hnamed => h'.tableNamed (h.tableNamed hnamed)
  methods_eq := by rw [h'.methods_eq, h.methods_eq, List.append_assoc]

/-- A class that gets constants alone. -/
theorem Grown.of_pool {c : ClassFile} {pool : ConstantPool} (h : LeadsTo c.pool pool) :
    c.Grown { c with pool := pool } [] :=
  ⟨h, rfl, rfl, rfl, rfl, fun _ => id, fun hnamed index hindex => h.isPrefix.get? (hnamed index hindex),
    (List.append_nil _).symm⟩

/-- The names of a class lie at their indices. -/
structure Titled (pool : ConstantPool) (name superName : String) (c : ClassFile) : Prop where
  thisClass_found : pool.HoldsClass c.thisClass name
  superClass_found : pool.HoldsClass c.superClass superName
  codeName_found : pool.get? c.codeName = some (.utf8 "Code")

theorem Titled.later {pool later : ConstantPool} {name superName : String} {c : ClassFile}
    (h : c.Titled pool name superName) (hle : IsPrefix pool later) :
    c.Titled later name superName where
  thisClass_found := h.thisClass_found.later hle
  superClass_found := h.superClass_found.later hle
  codeName_found := hle.get? h.codeName_found

/-- A class keeps its names while it grows. -/
theorem Titled.grown {name superName : String} {c later : ClassFile} {more : List Method}
    (h : c.Titled c.pool name superName) (hgrown : c.Grown later more) :
    later.Titled later.pool name superName := by
  obtain ⟨hthis, hsuper, hcode⟩ := h.later hgrown.leadsTo.isPrefix
  rw [← hgrown.thisClass_eq] at hthis
  rw [← hgrown.superClass_eq] at hsuper
  rw [← hgrown.codeName_eq] at hcode
  exact ⟨hthis, hsuper, hcode⟩

/-- A public class with its own name and that of its superclass. -/
structure Named (name superName : String) (c : ClassFile) : Prop where
  accessFlags_eq : c.accessFlags = accPublic ||| accSuper
  thisClass_eq : c.pool.stored.className? c.thisClass = some (ModifiedUtf8.encode name)
  superClass_eq : c.pool.stored.className? c.superClass = some (ModifiedUtf8.encode superName)

theorem Titled.named {name superName : String} {c : ClassFile}
    (h : c.Titled c.pool name superName) (hflags : c.accessFlags = accPublic ||| accSuper) :
    c.Named name superName :=
  ⟨hflags, className?_of_holdsClass h.thisClass_found, className?_of_holdsClass h.superClass_found⟩

/-- A method whose code and table fit their fields, in a class that knows the name of its table. -/
structure Method.Fits (tableName : Option UInt16) (m : Method) : Prop where
  code_length : m.code.length ≤ 131070
  rows_length : ∀ table, m.localVariables = some table → table.rows.length ≤ 65535
  named : m.localVariables.isSome = true → ∃ index, tableName = some index

/-- A class whose constants fit their fields, whose attribute names are where it says, and whose
methods fit theirs. -/
structure Intact (c : ClassFile) : Prop where
  short : c.pool.Short
  codeName_found : c.pool.get? c.codeName = some (.utf8 "Code")
  tableNamed : c.TableNamed
  methods : ∀ m ∈ c.methods, m.Fits c.tableName

/-- An intact class with few methods can be stored. -/
theorem Intact.storable {c : ClassFile} (h : c.Intact) (hmethods : c.methods.length ≤ 65535) :
    c.Storable := by
  refine ⟨h.short, hmethods, fun m hm => ?_⟩
  obtain ⟨hcode, hrows, hnamed⟩ := h.methods m hm
  refine ⟨isText_of_get? h.codeName_found, hcode, hrows, fun hsome => ?_⟩
  obtain ⟨index, hindex⟩ := hnamed hsome
  exact ⟨index, hindex, isText_of_get? (h.tableNamed index hindex)⟩

/-- A class stays intact while it grows, if the methods that are new fit. -/
theorem Intact.grown {c later : ClassFile} {more : List Method} (h : c.Intact)
    (hgrown : c.Grown later more) (hmore : ∀ m ∈ more, m.Fits later.tableName) :
    later.Intact := by
  refine ⟨hgrown.leadsTo.short h.short, ?_, hgrown.tableNamed h.tableNamed, fun m hm => ?_⟩
  · rw [hgrown.codeName_eq]
    exact hgrown.leadsTo.isPrefix.get? h.codeName_found
  · rw [hgrown.methods_eq, List.mem_append] at hm
    rcases hm with hm | hm
    · obtain ⟨hcode, hrows, hnamed⟩ := h.methods m hm
      refine ⟨hcode, hrows, fun hsome => ?_⟩
      obtain ⟨index, hindex⟩ := hnamed hsome
      exact ⟨index, hgrown.tableName_eq index hindex⟩
    · exact hmore m hm

/-! ## Steps of building a class -/

/-- A step that adds constants to a class, makes a row of calls where it succeeds, and fails for one
of the causes or for want of room. -/
structure Builds {α : Type} (c : ClassFile) (calls : List Call) (causes : CodegenError → Prop)
    (Q : ClassFile → α → Prop) (result : Except CodegenError α × ClassFile) : Prop where
  grown : c.Grown result.2 []
  succeeds : ∀ a, result.1 = .ok a →
    c.pool.RoomFor calls ∧ result.2.pool = c.pool.after calls ∧ Q result.2 a
  fails : ∀ e, result.1 = .error e →
    causes e ∨ e = .constantPoolOverflow ∧ ¬ c.pool.RoomFor calls

section Steps

variable {α β : Type} {c mid : ClassFile} {calls calls' : List Call} {causes : CodegenError → Prop}
  {Q : ClassFile → α → Prop} {S : ClassFile → β → Prop}

/-- Interning changes the pool of a class and nothing else. -/
theorem intern_eq (c : ClassFile) (x : Interning α) :
    c.intern x = ((x.run c.pool).1, { c with pool := (x.run c.pool).2 }) := rfl

theorem builds_intern {Q : ConstantPool → α → Prop} {x : Interning α}
    (hx : Asks calls causes Q x) :
    c.Builds calls causes (fun later a => later.tableName = c.tableName ∧
      ∀ pool, IsPrefix later.pool pool → Q pool a) (c.intern x) := by
  rw [intern_eq]
  refine ⟨.of_pool (hx.leadsTo c.pool), fun a hok => ?_, fun e herror => hx.fails c.pool e herror⟩
  obtain ⟨hroom, hafter, hQ⟩ := hx.succeeds c.pool a _ (Prod.ext hok rfl)
  exact ⟨hroom, hafter, rfl, hQ⟩

/-- A step that fails ends what it is part of. -/
theorem Builds.of_error {e : CodegenError} (h : c.Builds calls causes Q (.error e, mid)) :
    c.Builds (calls ++ calls') causes S (.error e, mid) := by
  refine ⟨h.grown, fun a hok => ?_, fun e' herror => ?_⟩
  · cases hok
  · cases herror
    refine (h.fails e rfl).imp_right fun hfull => ⟨hfull.1, fun hroom => ?_⟩
    exact hfull.2 (roomFor_append.1 hroom).1

/-- A step that succeeds is followed by another one, in the class that it leaves. -/
theorem Builds.andThen {a : α} {result : Except CodegenError β × ClassFile}
    (h : c.Builds calls causes Q (.ok a, mid))
    (hnext : Q mid a → mid.Builds calls' causes S result) :
    c.Builds (calls ++ calls') causes S result := by
  obtain ⟨hroom, hafter, hQ⟩ := h.succeeds a rfl
  have hrest := hnext hQ
  refine ⟨h.grown.trans hrest.grown, fun b hok => ?_, fun e herror => ?_⟩
  · obtain ⟨hroom', hafter', hS⟩ := hrest.succeeds b hok
    rw [hafter] at hroom' hafter'
    exact ⟨roomFor_append.2 ⟨hroom, hroom'⟩, hafter'.trans (after_append _ _ _).symm, hS⟩
  · have hfails := hrest.fails e herror
    rw [hafter] at hfails
    exact hfails.imp_right fun hfull => ⟨hfull.1, fun hroom => hfull.2 (roomFor_append.1 hroom).2⟩

end Steps

/-- The name of variable tables, where the class has none yet. -/
def nameCalls : Option UInt16 → List Call
  | some _ => []
  | none => [.utf8 "LocalVariableTable"]

/-- The texts of a variable table, behind its name. -/
def tableCalls (tableName : Option UInt16) (entries : List DebugEntry) : List Call :=
  if entries.isEmpty then [] else nameCalls tableName ++ entries.flatMap entryCalls

/-- The texts of a method: its name, its descriptor, and those of its variable table. -/
def methodCalls (tableName : Option UInt16) (name descriptor : String)
    (entries : List DebugEntry) : List Call :=
  [.utf8 name, .utf8 descriptor] ++ tableCalls tableName entries

/-- A variable table as it was asked for, in a class that knows the name of tables. -/
structure Tabulated (codeLength : Nat) (entries : List DebugEntry) (c : ClassFile)
    (table : Option LocalVariableTable) : Prop where
  eq_none_iff : table = none ↔ entries = []
  named : table.isSome = true → ∃ index, c.tableName = some index
  rows : ∀ t, table = some t → ∀ pool, IsPrefix c.pool pool →
    List.Forall₂ (LocalVariable.Describes pool.stored codeLength) entries t.rows ∧
      List.Forall₂ (LocalVariable.Resolves pool) entries t.rows

/-- A class and the same class with one more method, which is as it was asked for. -/
structure Added (c later : ClassFile) (r : MethodRequest) (m : Method) : Prop where
  grown : c.Grown later [m]
  roomFor : c.pool.RoomFor (methodCalls c.tableName r.name r.descriptor r.entries)
  pool_eq : later.pool = c.pool.after (methodCalls c.tableName r.name r.descriptor r.entries)
  named : m.localVariables.isSome = true → ∃ index, later.tableName = some index
  tableName_eq : r.entries = [] → later.tableName = c.tableName
  yields : ∀ pool, IsPrefix later.pool pool → r.Yields pool.stored m
  refers : later.TableNamed → ∀ pool, IsPrefix later.pool pool →
    m.Refers pool later.tableName r.name r.descriptor r.entries

/-- A class and the same class without one more method, which was refused for its table or for want
of room. -/
structure Refused (c later : ClassFile) (r : MethodRequest) (e : CodegenError) : Prop where
  grown : c.Grown later []
  cause : TableRefusal r.body.code.length r.entries e ∨ e = .constantPoolOverflow ∧
    ¬ c.pool.RoomFor (methodCalls c.tableName r.name r.descriptor r.entries)

section Building

variable {c mid last : ClassFile} {causes : CodegenError → Prop} {codeLength : Nat}
  {entries : List DebugEntry} {r : MethodRequest}

/-- The name of variable tables is there in the end. -/
theorem builds_nameTables :
    c.Builds (nameCalls c.tableName) causes (fun later _ => ∃ index, later.tableName = some index)
      c.nameTables := by
  unfold nameTables
  cases hname : c.tableName with
  | some index =>
      refine ⟨Grown.refl c, fun _ _ => ⟨trivial, rfl, index, hname⟩, fun e herror => ?_⟩
      cases herror
  | none =>
      have hintern : c.Builds (nameCalls none) causes _ _ :=
        builds_intern (asks_utf8 "LocalVariableTable")
      dsimp only
      rcases hrun : c.intern (utf8 "LocalVariableTable") with ⟨e | index, mid⟩
      · rw [hrun] at hintern
        rw [← List.append_nil (nameCalls none)]
        exact hintern.of_error
      · rw [hrun] at hintern
        obtain ⟨hroom, hafter, -, hfound⟩ := hintern.succeeds index rfl
        have hgrown := hintern.grown
        refine ⟨⟨hgrown.leadsTo, hgrown.accessFlags_eq, hgrown.thisClass_eq, hgrown.superClass_eq,
          hgrown.codeName_eq, fun index' hindex => ?_, fun _ index' hindex => ?_,
          hgrown.methods_eq⟩, fun _ _ => ⟨hroom, hafter, index, rfl⟩, fun e herror => ?_⟩
        · rw [hname] at hindex
          cases hindex
        · cases hindex
          exact hfound _ (IsPrefix.refl _)
        · cases herror

/-- A variable table is made as it was asked for. -/
theorem builds_tabulate :
    c.Builds (tableCalls c.tableName entries) (TableRefusal codeLength entries)
      (Tabulated codeLength entries) (c.tabulate codeLength entries) := by
  unfold tabulate tableCalls
  split
  next hempty =>
      have hnil : entries = [] := List.isEmpty_iff.1 hempty
      refine ⟨Grown.refl c, fun table hok => ?_, fun e herror => ?_⟩
      · cases hok
        refine ⟨trivial, rfl, iff_of_true rfl hnil, fun hsome => ?_, fun t ht => ?_⟩
        · cases hsome
        · cases ht
      · cases herror
  next hempty =>
      have hne : entries ≠ [] := fun hnil => hempty (List.isEmpty_iff.2 hnil)
      have hname : c.Builds (nameCalls c.tableName) (TableRefusal codeLength entries) _ _ :=
        builds_nameTables
      rcases hrun : c.nameTables with ⟨e | _, mid⟩
      · rw [hrun] at hname
        exact hname.of_error
      · rw [hrun] at hname
        refine hname.andThen fun hmid => ?_
        have hrows : mid.Builds _ (TableRefusal codeLength entries) _ _ :=
          builds_intern (asks_internDebugEntries hne)
        dsimp only
        rcases hintern : mid.intern (internDebugEntries codeLength entries) with ⟨e | table, last⟩
        · rw [hintern] at hrows
          rw [← List.append_nil (entries.flatMap entryCalls)]
          exact hrows.of_error
        · rw [hintern] at hrows
          obtain ⟨hroom, hafter, hsame, hdescribes⟩ := hrows.succeeds table rfl
          refine ⟨hrows.grown, fun table' hok => ?_, fun e herror => ?_⟩
          · cases hok
            refine ⟨hroom, hafter, iff_of_false (Option.some_ne_none _) hne, fun _ => ?_,
              fun t ht => ?_⟩
            · rw [hsame]
              exact hmid
            · cases ht
              exact hdescribes
          · cases herror

/-- Where a method has its name and descriptor, its variable table is made behind them. -/
theorem builds_method {indices : UInt16 × UInt16}
    (h : c.intern (internSignature r.name r.descriptor) = (.ok indices, mid)) :
    mid.tableName = c.tableName ∧
      (∀ pool, IsPrefix mid.pool pool → pool.get? indices.1 = some (.utf8 r.name) ∧
        pool.get? indices.2 = some (.utf8 r.descriptor)) ∧
      IsPrefix mid.pool (mid.tabulate r.body.code.length r.entries).2.pool ∧
      c.Builds (methodCalls c.tableName r.name r.descriptor r.entries)
        (TableRefusal r.body.code.length r.entries) (Tabulated r.body.code.length r.entries)
        (mid.tabulate r.body.code.length r.entries) := by
  have hsignature : c.Builds _ (TableRefusal r.body.code.length r.entries) _ _ :=
    builds_intern (asks_internSignature r.name r.descriptor)
  rw [h] at hsignature
  obtain ⟨-, -, hsame, hfound⟩ := hsignature.succeeds indices rfl
  have htable : mid.Builds (tableCalls mid.tableName r.entries)
      (TableRefusal r.body.code.length r.entries) _ _ := builds_tabulate
  refine ⟨hsame, hfound, htable.grown.leadsTo.isPrefix, hsignature.andThen fun _ => ?_⟩
  dsimp only at hsame
  rw [← hsame]
  exact htable

/-- A method that is added is as it was asked for. -/
theorem added_of_add {later : ClassFile} (h : c.add r = (.ok (), later)) :
    ∃ m, Added c later r m := by
  unfold add addMethod at h
  rcases hsignature : c.intern (internSignature r.name r.descriptor) with ⟨e | indices, mid⟩
  · rw [hsignature] at h
    cases h
  obtain ⟨hsame, hfound, hgrows, hbuilds⟩ := builds_method hsignature
  rw [hsignature] at h
  dsimp only at h
  rcases htable : mid.tabulate r.body.code.length r.entries with ⟨e | table, last⟩
  · rw [htable] at h
    cases h
  rw [htable] at h hgrows hbuilds
  cases h
  obtain ⟨hroom, hafter, htabulated⟩ := hbuilds.succeeds table rfl
  have hgrown := hbuilds.grown
  refine ⟨⟨r.accessFlags, indices.1, indices.2, r.body.maxStack, r.maxLocals, r.body.code, table⟩,
    ⟨hgrown.leadsTo, hgrown.accessFlags_eq, hgrown.thisClass_eq, hgrown.superClass_eq,
      hgrown.codeName_eq, hgrown.tableName_eq, hgrown.tableNamed, ?_⟩, hroom, hafter,
    htabulated.named, fun hempty => ?_, fun pool hpool => ?_, fun hnamed pool hpool => ?_⟩
  · have hmethods := hgrown.methods_eq
    rw [List.append_nil] at hmethods
    dsimp only at hmethods ⊢
    rw [hmethods]
  · -- without entries there is no step between the signature and the method
    rw [tabulate, hempty] at htable
    cases htable
    exact hsame
  · obtain ⟨hname, hdescriptor⟩ := hfound pool (hgrows.trans hpool)
    exact ⟨rfl, text?_of_get? hname, text?_of_get? hdescriptor, rfl, rfl, rfl,
      htabulated.eq_none_iff, fun t ht => (htabulated.rows t ht pool hpool).1⟩
  · obtain ⟨hname, hdescriptor⟩ := hfound pool (hgrows.trans hpool)
    refine ⟨hname, hdescriptor, htabulated.eq_none_iff, fun t ht => ⟨?_, ?_⟩⟩
    · obtain ⟨index, hindex⟩ := htabulated.named (Option.isSome_of_mem ht)
      exact ⟨index, hindex, hpool.get? (hnamed index hindex)⟩
    · exact (htabulated.rows t ht pool hpool).2

/-- A method that cannot be added leaves nothing but constants, and the name of tables. -/
theorem refused_of_add {later : ClassFile} {e : CodegenError} (h : c.add r = (.error e, later)) :
    Refused c later r e := by
  unfold add addMethod at h
  rcases hsignature : c.intern (internSignature r.name r.descriptor) with ⟨e' | indices, mid⟩
  · have hbuilds : c.Builds _ (TableRefusal r.body.code.length r.entries) _ _ :=
      builds_intern (asks_internSignature r.name r.descriptor)
    rw [hsignature] at h hbuilds
    cases h
    have hwhole : c.Builds (methodCalls c.tableName r.name r.descriptor r.entries)
        (TableRefusal r.body.code.length r.entries) (fun _ (_ : Unit) => True) (.error e, later) :=
      hbuilds.of_error
    exact ⟨hwhole.grown, hwhole.fails e rfl⟩
  obtain ⟨-, -, -, hbuilds⟩ := builds_method hsignature
  rw [hsignature] at h
  dsimp only at h
  rcases htable : mid.tabulate r.body.code.length r.entries with ⟨e' | table, last⟩
  · rw [htable] at h hbuilds
    cases h
    exact ⟨hbuilds.grown, hbuilds.fails e rfl⟩
  · rw [htable] at h
    cases h

/-- A method that is added to an intact class fits it. -/
theorem Added.intact {later : ClassFile} {m : Method} (h : Added c later r m) (hc : c.Intact)
    (hcode : r.body.code.length ≤ 131070) (hentries : r.entries.length ≤ 65535) :
    later.Intact := by
  refine hc.grown h.grown fun m' hm' => ?_
  rw [List.mem_singleton.1 hm']
  have hyields := h.yields later.pool (IsPrefix.refl _)
  refine ⟨by rw [hyields.code_eq]; exact hcode, fun table htable => ?_, h.named⟩
  rw [← (hyields.tabulates.rows table htable).length_eq]
  exact hentries

end Building

/-! ## New classes -/

/-- The names of a new class. -/
def createCalls (name superName : String) : List Call :=
  [.classRef name, .classRef superName, .utf8 "Code"]

/-- A class that has its names and nothing else. -/
structure Created (name superName : String) (c : ClassFile) : Prop where
  leadsTo : LeadsTo .empty c.pool
  roomFor : empty.RoomFor (createCalls name superName)
  pool_eq : c.pool = empty.after (createCalls name superName)
  titled : c.Titled c.pool name superName
  accessFlags_eq : c.accessFlags = accPublic ||| accSuper
  tableName_eq : c.tableName = none
  methods_eq : c.methods = []

theorem asks_create {causes : CodegenError → Prop} (name superName : String) :
    Asks (createCalls name superName) causes
      (fun pool names => pool.HoldsClass names.1 name ∧ pool.HoldsClass names.2.1 superName ∧
        pool.get? names.2.2 = some (.utf8 "Code"))
      (do
        let thisClass ← classRef name
        let superClass ← classRef superName
        let codeName ← utf8 "Code"
        return (thisClass, superClass, codeName)) :=
  (asks_classRef name).bind fun _ => (asks_classRef superName).bind fun _ =>
    (asks_utf8 "Code").map fun _ _ hcode hsuper hthis => ⟨hthis, hsuper, hcode⟩

theorem created_of_create {name superName : String} {c : ClassFile}
    (h : create name superName = .ok c) : Created name superName c := by
  unfold create at h
  dsimp only at h
  split at h
  · cases h
  next thisClass superClass codeName pool hrun =>
      cases h
      have hasks : Asks _ (fun _ => False) _ _ := asks_create name superName
      have hleads := hasks.leadsTo .empty
      rw [hrun] at hleads
      obtain ⟨hroom, hafter, hnames⟩ := hasks.succeeds _ _ _ hrun
      obtain ⟨hthis, hsuper, hcode⟩ := hnames pool (IsPrefix.refl _)
      exact ⟨hleads, hroom, hafter, ⟨hthis, hsuper, hcode⟩, rfl, rfl, rfl⟩

/-- A new class is refused for want of room. -/
theorem full_of_create {name superName : String} {e : CodegenError}
    (h : create name superName = .error e) :
    e = .constantPoolOverflow ∧ ¬ empty.RoomFor (createCalls name superName) := by
  unfold create at h
  dsimp only at h
  split at h
  next e' pool hrun =>
      cases h
      have hasks : Asks _ (fun _ => False) _ _ := asks_create name superName
      exact (hasks.fails .empty e (congrArg Prod.fst hrun)).resolve_left id
  next => cases h

theorem Created.intact {name superName : String} {c : ClassFile} (h : Created name superName c) :
    c.Intact := by
  refine ⟨h.leadsTo.short short_empty, h.titled.codeName_found, fun index hindex => ?_,
    fun m hm => ?_⟩
  · rw [h.tableName_eq] at hindex
    cases hindex
  · rw [h.methods_eq] at hm
    cases hm

end StackCodegen.ClassFile
