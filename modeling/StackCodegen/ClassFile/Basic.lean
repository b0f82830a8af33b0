import StackCodegen.ClassFile.Assembly
import StackCodegen.ClassFile.ConstantPool

/-!
# Class files

A public class with methods and no fields or interfaces. A method carries its code and, on request,
a table of the variables that its slots hold, for debuggers.

Adding a method puts its names into the constant pool first. Where that fails, the names added so
far stay there and the methods are unchanged. The name that all variable tables carry is added once,
by the first method that has a table, and the class keeps its index.

In the stored form the length of an attribute comes before its body, and is computed from the code
and from the number of rows.

Main statement: the lengths are those of what is stored behind them (`length_tableBody`,
`length_codeBody`).
-/

set_option autoImplicit false

namespace StackCodegen

namespace ClassFile

/-- Access flags. -/
def accPublic : UInt16 := 0x0001

/-- Flag of a method that needs no instance. -/
def accStatic : UInt16 := 0x0008

/-- Flag of a class whose superclass calls are resolved in the current way. -/
def accSuper : UInt16 := 0x0020

/-- One row of a variable table: the range of code it holds for, its name and descriptor, its
slot. -/
structure LocalVariable where
  startPc : UInt16
  length : UInt16
  nameIndex : UInt16
  descriptorIndex : UInt16
  slot : UInt16
  deriving DecidableEq

/-- The variable table of a method. -/
structure LocalVariableTable where
  rows : List LocalVariable
  deriving DecidableEq

/-- A method with its code. -/
structure Method where
  accessFlags : UInt16
  nameIndex : UInt16
  descriptorIndex : UInt16
  maxStack : UInt16
  maxLocals : UInt16
  code : Bytes
  localVariables : Option LocalVariableTable
  deriving DecidableEq

/-- What a debugger is told of one slot, over the whole of a method. -/
structure DebugEntry where
  name : String
  descriptor : String
  slot : UInt16
  deriving DecidableEq

end ClassFile

/-- A class: its constants, what it is called, the names of its attributes, and its methods in order.
The name of variable tables is there as soon as a table was asked for. -/
structure ClassFile where
  pool : ClassFile.ConstantPool
  accessFlags : UInt16
  thisClass : UInt16
  superClass : UInt16
  codeName : UInt16
  tableName : Option UInt16
  methods : List ClassFile.Method

namespace ClassFile

open ConstantPool (Interning)

/-! ## Construction -/

/-- A public class without methods, given its own and its superclass's internal name. -/
def create (name superName : String) : Except CodegenError ClassFile :=
  let names : Interning (UInt16 × UInt16 × UInt16) := do
    let thisClass ← ConstantPool.classRef name
    let superClass ← ConstantPool.classRef superName
    let codeName ← ConstantPool.utf8 "Code"
    return (thisClass, superClass, codeName)
  match names.run .empty with
  | (.error e, _) => .error e
  | (.ok (thisClass, superClass, codeName), pool) =>
    .ok ⟨pool, accPublic ||| accSuper, thisClass, superClass, codeName, none, []⟩

/-- The result of adding constants to the pool of a class, and the class with them. -/
def intern {α : Type} (c : ClassFile) (x : Interning α) : Except CodegenError α × ClassFile :=
  match c with
  | ⟨pool, accessFlags, thisClass, superClass, codeName, tableName, methods⟩ =>
    let (result, pool) := x.run pool
    (result, ⟨pool, accessFlags, thisClass, superClass, codeName, tableName, methods⟩)

/-- The indices of the name and the descriptor of a method. -/
def internSignature (name descriptor : String) : Interning (UInt16 × UInt16) := do
  let nameIndex ← ConstantPool.utf8 name
  let descriptorIndex ← ConstantPool.utf8 descriptor
  return (nameIndex, descriptorIndex)

/-- The class with the name of variable tables, which is added where the class has none yet. -/
def nameTables (c : ClassFile) : Except CodegenError Unit × ClassFile :=
  match c.tableName with
  | some _ => (.ok (), c)
  | none =>
    match c.intern (ConstantPool.utf8 "LocalVariableTable") with
    | (.error e, c) => (.error e, c)
    | (.ok index, c) => (.ok (), { c with tableName := some index })

/-- The row of one debug entry for code of the given length. -/
def internDebugEntry (length : UInt16) (entry : DebugEntry) : Interning LocalVariable := do
  let nameIndex ← ConstantPool.utf8 entry.name
  let descriptorIndex ← ConstantPool.utf8 entry.descriptor
  return ⟨0, length, nameIndex, descriptorIndex, entry.slot⟩

/-- The rows of the given entries, whose field for the length of the code has two bytes. -/
def internDebugEntries (codeLength : Nat) (entries : List DebugEntry) :
    Interning LocalVariableTable := do
  if maxCodeLength < codeLength then
    throw (.codeTooLarge codeLength)
  let rows ← entries.mapM (internDebugEntry (.ofNat codeLength))
  return ⟨rows⟩

/-- The variable table of the given entries, and the class with its names; no entries make no
table. -/
def tabulate (c : ClassFile) (codeLength : Nat) (entries : List DebugEntry) :
    Except CodegenError (Option LocalVariableTable) × ClassFile :=
  if entries.isEmpty then
    (.ok none, c)
  else
    match c.nameTables with
    | (.error e, c) => (.error e, c)
    | (.ok (), c) =>
      match c.intern (internDebugEntries codeLength entries) with
      | (.error e, c) => (.error e, c)
      | (.ok table, c) => (.ok (some table), c)

/-- The class with one more method. Where a name finds no room, the methods stay as they were. -/
def addMethod (c : ClassFile) (accessFlags : UInt16) (name descriptor : String) (body : MethodCode)
    (maxLocals : UInt16) (entries : List DebugEntry) : Except CodegenError Unit × ClassFile :=
  match c.intern (internSignature name descriptor) with
  | (.error e, c) => (.error e, c)
  | (.ok (nameIndex, descriptorIndex), c) =>
    match c.tabulate body.code.length entries with
    | (.error e, c) => (.error e, c)
    | (.ok table, c) =>
      (.ok (), { c with methods := c.methods ++ [⟨accessFlags, nameIndex, descriptorIndex,
        body.maxStack, maxLocals, body.code, table⟩] })

/-! ## Stored form -/

/-- The four bytes every class file starts with. -/
def magic : UInt32 := 0xcafebabe

/-- The format version, whose verifier asks for no stack maps. -/
def majorVersion : UInt16 := 50

/-- The minor part of the format version. -/
def minorVersion : UInt16 := 0

/-- The stored form of a row. -/
def LocalVariable.bytes (row : LocalVariable) : Bytes :=
  u2 row.startPc ++ u2 row.length ++ u2 row.nameIndex ++ u2 row.descriptorIndex ++ u2 row.slot

/-- The length of the body of a variable table: a count, and ten bytes for each row. -/
def LocalVariableTable.bodyLength (table : LocalVariableTable) : UInt32 :=
  .ofNat (2 + 10 * table.rows.length)

/-- The body of a variable table. -/
def LocalVariableTable.body (table : LocalVariableTable) : Bytes :=
  u2 (.ofNat table.rows.length) ++ table.rows.flatMap LocalVariable.bytes

/-- The length of the body of a code attribute: the bounds, the code behind its length, two counts,
and the variable table with its name and length. -/
def Method.bodyLength (m : Method) : UInt32 :=
  let nested := match m.localVariables with
    | none => 0
    | some table => 6 + 2 + 10 * table.rows.length
  .ofNat (2 + 2 + 4 + m.code.length + 2 + 2 + nested)

/-- The attributes of a code: the variable table, if there is one and its name is known. -/
def Method.nested (tableName : Option UInt16) (m : Method) : Bytes :=
  match m.localVariables, tableName with
  | some table, some name => u2 1 ++ u2 name ++ u4 table.bodyLength ++ table.body
  | _, _ => u2 0

/-- The body of the code attribute, which holds no exception table and at most the variable
table. -/
def Method.body (tableName : Option UInt16) (m : Method) : Bytes :=
  u2 m.maxStack ++ u2 m.maxLocals ++ u4 (.ofNat m.code.length) ++ m.code ++ u2 0 ++
    m.nested tableName

/-- The stored form of a method of a class, with its code attribute. -/
def Method.bytes (c : ClassFile) (m : Method) : Bytes :=
  u2 m.accessFlags ++ u2 m.nameIndex ++ u2 m.descriptorIndex ++ u2 1 ++
    u2 c.codeName ++ u4 m.bodyLength ++ m.body c.tableName

/-- The stored form of a class: no interfaces, no fields, its methods, no attributes. -/
def bytes (c : ClassFile) : Bytes :=
  u4 magic ++ u2 minorVersion ++ u2 majorVersion ++ c.pool.bytes ++
    u2 c.accessFlags ++ u2 c.thisClass ++ u2 c.superClass ++ u2 0 ++ u2 0 ++
    u2 (.ofNat c.methods.length) ++ c.methods.flatMap (Method.bytes c) ++ u2 0

/-! ## Lengths -/

/-- A row takes ten bytes. -/
theorem length_localVariable (row : LocalVariable) : row.bytes.length = 10 := rfl

theorem length_rows (rows : List LocalVariable) :
    (rows.flatMap LocalVariable.bytes).length = 10 * rows.length := by
  induction rows with
  | nil => rfl
  | cons row rows ih =>
      rw [List.flatMap_cons, List.length_append, ih, length_localVariable, List.length_cons]
      omega

/-- The length of a variable table is the number of the bytes that follow it. -/
theorem length_tableBody {table : LocalVariableTable} (h : table.rows.length ≤ 65535) :
    table.bodyLength.toNat = table.body.length := by
  have hlength : table.body.length = 2 + 10 * table.rows.length := by
    rw [LocalVariableTable.body, List.length_append, length_u2, length_rows]
  rw [hlength, LocalVariableTable.bodyLength]
  exact UInt32.toNat_ofNat_of_lt' (show 2 + 10 * table.rows.length < 4294967296 by omega)

/-- The length of a code attribute is the number of the bytes that follow it, the table included,
provided that the name of a table is known. -/
theorem length_codeBody {m : Method} {tableName : Option UInt16}
    (hcode : m.code.length ≤ 131070)
    (hrows : ∀ table, m.localVariables = some table → table.rows.length ≤ 65535)
    (hname : m.localVariables.isSome → tableName.isSome) :
    m.bodyLength.toNat = (m.body tableName).length := by
  have htoNat : ∀ n < 4294967296, (UInt32.ofNat n).toNat = n := fun n h =>
    UInt32.toNat_ofNat_of_lt' h
  cases htable : m.localVariables with
  | none =>
      simp only [Method.bodyLength, Method.body, Method.nested, htable, List.length_append,
        length_u2, length_u4]
      rw [htoNat _ (by omega)]
  | some table =>
      obtain ⟨name, rfl⟩ := Option.isSome_iff_exists.1 (hname (by rw [htable]; rfl))
      have hfew := hrows table htable
      simp only [Method.bodyLength, Method.body, Method.nested, htable, List.length_append,
        length_u2, length_u4, LocalVariableTable.body, length_rows]
      rw [htoNat _ (by omega)]
      omega

end ClassFile

end StackCodegen
