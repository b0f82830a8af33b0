import StackCodegen.ClassFile.Basic
import StackCodegen.Proofs.ClassFile.Decoding

/-!
# Reading class files

A reader of the class-file format: constants by their tags, attributes bounded by their declared
lengths, methods with their code. Texts stay encoded. A class file is read to its last byte or not
at all (`read?`).

`Reads r bytes a` says that `r` reads `a` off `bytes` and leaves whatever follows; it composes along
`bind`. Main statement: a class whose texts, tables and code fit their fields, and whose attribute
names are in its pool, is read back from its stored form (`read?_bytes`).
-/

set_option autoImplicit false

namespace StackCodegen.ClassFile

/-! ## What is read -/

/-- A constant as it is stored: texts are bytes, references are indices. -/
inductive StoredConstant where
  | utf8 (body : Bytes)
  | integer (value : Int32)
  | classRef (name : UInt16)
  | nameAndType (name : UInt16) (descriptor : UInt16)
  | fieldRef (owner : UInt16) (member : UInt16)
  | methodRef (owner : UInt16) (member : UInt16)
  deriving DecidableEq

/-- The stored form of a constant. -/
def Constant.stored : Constant → StoredConstant
  | utf8 text => .utf8 (ModifiedUtf8.encode text)
  | integer value => .integer value
  | classRef name => .classRef name
  | nameAndType name descriptor => .nameAndType name descriptor
  | fieldRef owner member => .fieldRef owner member
  | methodRef owner member => .methodRef owner member

/-- Constants in order; the first one has index 1. -/
abbrev StoredPool := List StoredConstant

namespace StoredPool

/-- The constant at an index; index 0 holds none. -/
def get? (pool : StoredPool) (index : UInt16) : Option StoredConstant :=
  if index = 0 then none else pool[index.toNat - 1]?

/-- Whether an index holds a given text. -/
def isText (pool : StoredPool) (text : String) (index : UInt16) : Bool :=
  pool.get? index == some (.utf8 (ModifiedUtf8.encode text))

end StoredPool

/-- A class as it is stored. -/
structure StoredClass where
  constants : StoredPool
  accessFlags : UInt16
  thisClass : UInt16
  superClass : UInt16
  methods : List Method
  deriving DecidableEq

/-- The stored form of a class. -/
def stored (c : ClassFile) : StoredClass :=
  ⟨c.pool.entries.toList.map Constant.stored, c.accessFlags, c.thisClass, c.superClass, c.methods⟩

/-! ## The reader -/

/-- A reader takes a value off the front of a sequence of bytes, unless it finds none there. -/
abbrev Reading := StateT Bytes Option

namespace Reading

/-- One byte. -/
def byte : Reading UInt8
  | [] => none
  | b :: rest => some (b, rest)

/-- A two-byte field. -/
def field2 : Reading UInt16 := do
  let high ← byte
  let low ← byte
  return joinBytes high low

/-- A four-byte field. -/
def field4 : Reading UInt32 := do
  let high ← field2
  let low ← field2
  return .ofNat (65536 * high.toNat + low.toNat)

/-- A given number of bytes. -/
def take (count : Nat) : Reading Bytes := fun bytes =>
  if count ≤ bytes.length then some (bytes.take count, bytes.drop count) else none

/-- Nothing, provided that a condition holds. -/
def check (condition : Bool) : Reading Unit := fun bytes =>
  if condition then some ((), bytes) else none

/-- A given number of values, one after the other. -/
def many {α : Type} (r : Reading α) : Nat → Reading (List α)
  | 0 => pure []
  | n + 1 => do
    let a ← r
    let rest ← many r n
    return a :: rest

/-- The value that a sequence of bytes holds to its end. -/
def whole? {α : Type} (r : Reading α) (bytes : Bytes) : Option α :=
  match r bytes with
  | some (a, []) => some a
  | _ => none

/-- A value that need not be there. -/
def ofOption {α : Type} : Option α → Reading α
  | some a => pure a
  | none => fun _ => none

/-- A constant, behind its tag. -/
def constant : Reading StoredConstant := do
  let tag ← byte
  match tag with
  | 1 =>
    let length ← field2
    let body ← take length.toNat
    return .utf8 body
  | 3 =>
    let value ← field4
    return .integer value.toInt32
  | 7 =>
    let name ← field2
    return .classRef name
  | 12 =>
    let name ← field2
    let descriptor ← field2
    return .nameAndType name descriptor
  | 9 =>
    let owner ← field2
    let member ← field2
    return .fieldRef owner member
  | 10 =>
    let owner ← field2
    let member ← field2
    return .methodRef owner member
  | _ => fun _ => none

/-- The name and the body of an attribute. -/
def attributeInfo : Reading (UInt16 × Bytes) := do
  let name ← field2
  let length ← field4
  let body ← take length.toNat
  return (name, body)

/-- The first attribute of a name. -/
def attribute? (pool : StoredPool) (name : String) (attributes : List (UInt16 × Bytes)) :
    Option (UInt16 × Bytes) :=
  attributes.find? fun (index, _) => pool.isText name index

/-- One row of a variable table. -/
def localVariable : Reading LocalVariable := do
  let startPc ← field2
  let length ← field2
  let nameIndex ← field2
  let descriptorIndex ← field2
  let slot ← field2
  return ⟨startPc, length, nameIndex, descriptorIndex, slot⟩

/-- The rows of a variable table. -/
def localVariables : Reading (List LocalVariable) := do
  let count ← field2
  many localVariable count.toNat

/-- The variable table among the attributes of a code; there may be none. -/
def localVariableTable (pool : StoredPool) (attributes : List (UInt16 × Bytes)) :
    Reading (Option LocalVariableTable) :=
  match attribute? pool "LocalVariableTable" attributes with
  | none => pure none
  | some (_, body) => do
    let rows ← ofOption (whole? localVariables body)
    return some ⟨rows⟩

/-- The body of a code attribute: bounds, code, no handlers, attributes. -/
def code (pool : StoredPool) :
    Reading (UInt16 × UInt16 × Bytes × Option LocalVariableTable) := do
  let maxStack ← field2
  let maxLocals ← field2
  let length ← field4
  let body ← take length.toNat
  let handlers ← field2
  check (handlers == 0)
  let count ← field2
  let attributes ← many attributeInfo count.toNat
  let table ← localVariableTable pool attributes
  return (maxStack, maxLocals, body, table)

/-- A method, which must have code. -/
def method (pool : StoredPool) : Reading Method := do
  let accessFlags ← field2
  let nameIndex ← field2
  let descriptorIndex ← field2
  let count ← field2
  let attributes ← many attributeInfo count.toNat
  let (_, body) ← ofOption (attribute? pool "Code" attributes)
  let (maxStack, maxLocals, code, table) ← ofOption (whole? (code pool) body)
  return ⟨accessFlags, nameIndex, descriptorIndex, maxStack, maxLocals, code, table⟩

/-- A class: no interfaces, no fields, no attributes of its own. -/
def classFile : Reading StoredClass := do
  let first ← field4
  check (first == magic)
  let _ ← field2
  let _ ← field2
  let count ← field2
  let constants ← many constant (count.toNat - 1)
  let accessFlags ← field2
  let thisClass ← field2
  let superClass ← field2
  let interfaces ← field2
  check (interfaces == 0)
  let fields ← field2
  check (fields == 0)
  let methodCount ← field2
  let methods ← many (method constants) methodCount.toNat
  let attributes ← field2
  check (attributes == 0)
  return ⟨constants, accessFlags, thisClass, superClass, methods⟩

end Reading

/-- The class a sequence of bytes stores. -/
def read? (bytes : Bytes) : Option StoredClass := Reading.whole? Reading.classFile bytes

/-! ## Composition -/

/-- A reader takes exactly `bytes` off whatever follows them. -/
def Reads {α : Type} (r : Reading α) (bytes : Bytes) (a : α) : Prop :=
  ∀ rest, r (bytes ++ rest) = some (a, rest)

namespace Reads

open Reading

variable {α β : Type}

theorem pure (a : α) : Reads (Pure.pure a : Reading α) [] a := fun _ => rfl

theorem bind {r : Reading α} {k : α → Reading β} {front back : Bytes} {a : α} {b : β}
    (hr : Reads r front a) (hk : Reads (k a) back b) : Reads (r >>= k) (front ++ back) b := by
  intro rest
  have hstep : (r >>= k) (front ++ back ++ rest) =
      (r (front ++ back ++ rest)).bind fun p => k p.1 p.2 := rfl
  rw [hstep, List.append_assoc, hr]
  exact hk rest

/-- The last step of a reader, which returns what was read. -/
theorem map {r : Reading α} {front : Bytes} {a : α} (hr : Reads r front a) (f : α → β) :
    Reads (do let x ← r; Pure.pure (f x)) front (f a) := by
  simpa using bind (k := fun x => Pure.pure (f x)) hr (pure (f a))

/-- A reader that takes nothing passes what follows on. -/
theorem bind_nil {r : Reading α} {k : α → Reading β} {bytes : Bytes} {a : α} {b : β}
    (hr : Reads r [] a) (hk : Reads (k a) bytes b) : Reads (r >>= k) bytes b := by
  simpa using bind hr hk

theorem byte (b : UInt8) : Reads Reading.byte [b] b := fun _ => rfl

theorem field2 (value : UInt16) : Reads Reading.field2 (u2 value) value := by
  intro rest
  rw [u2_eq]
  change some (joinBytes _ _, rest) = _
  rw [joinBytes_u2]

theorem u4_eq (value : UInt32) :
    u4 value = u2 (value >>> 16).toUInt16 ++ u2 value.toUInt16 := by
  have h1 : (value >>> 24).toUInt8 = ((value >>> 16).toUInt16 >>> 8).toUInt8 := by
    apply UInt8.toNat_inj.1
    simp [Nat.shiftRight_eq_div_pow]
    omega
  have h2 : (value >>> 8).toUInt8 = (value.toUInt16 >>> 8).toUInt8 := by
    apply UInt8.toNat_inj.1
    simp [Nat.shiftRight_eq_div_pow]
    omega
  have h3 : (value >>> 16).toUInt8 = (value >>> 16).toUInt16.toUInt8 := by
    apply UInt8.toNat_inj.1
    simp [Nat.shiftRight_eq_div_pow]
  have h4 : value.toUInt8 = value.toUInt16.toUInt8 := by
    apply UInt8.toNat_inj.1
    simp
  rw [u4, u2, u2, h1, h2, h3, h4]
  rfl

theorem field4 (value : UInt32) : Reads Reading.field4 (u4 value) value := by
  have hround : UInt32.ofNat (65536 * (value >>> 16).toUInt16.toNat + value.toUInt16.toNat) =
      value := by
    have hlt := value.toNat_lt
    apply UInt32.toNat_inj.1
    simp [Nat.shiftRight_eq_div_pow]
    omega
  have h : Reads Reading.field4 _ _ := (field2 (value >>> 16).toUInt16).bind
    ((field2 value.toUInt16).map fun low =>
      UInt32.ofNat (65536 * (value >>> 16).toUInt16.toNat + low.toNat))
  rw [hround] at h
  rw [u4_eq]
  exact h

theorem take (bytes : Bytes) : Reads (Reading.take bytes.length) bytes bytes := by
  intro rest
  rw [Reading.take, if_pos (by simp), List.take_left, List.drop_left]

/-- As many bytes as a length field announces. -/
theorem take_of_eq {count : Nat} {bytes : Bytes} (h : count = bytes.length) :
    Reads (Reading.take count) bytes bytes := h ▸ take bytes

theorem check {condition : Bool} (h : condition = true) :
    Reads (Reading.check condition) [] () := by
  intro rest
  rw [h]
  rfl

theorem ofOption {o : Option α} {a : α} (h : o = some a) : Reads (Reading.ofOption o) [] a := by
  rw [h]
  exact pure a

/-- Values that are read one by one are read in a row. -/
theorem many {r : Reading α} (store : β → Bytes) (value : β → α) :
    ∀ items : List β, (∀ b ∈ items, Reads r (store b) (value b)) →
      Reads (Reading.many r items.length) (items.flatMap store) (items.map value)
  | [], _ => pure []
  | b :: items, h => by
    rw [List.flatMap_cons]
    refine (h b List.mem_cons_self).bind ?_
    exact (many store value items fun c hc => h c (List.mem_cons_of_mem _ hc)).map (value b :: ·)

/-- A row of values behind a count. -/
theorem many_of_eq {r : Reading α} {count : Nat} {items : List β} (store : β → Bytes)
    (value : β → α) (hcount : count = items.length)
    (h : ∀ b ∈ items, Reads r (store b) (value b)) :
    Reads (Reading.many r count) (items.flatMap store) (items.map value) :=
  hcount ▸ many store value items h

theorem whole? {r : Reading α} {bytes : Bytes} {a : α} (h : Reads r bytes a) :
    Reading.whole? r bytes = some a := by
  have hr := h []
  rw [List.append_nil] at hr
  rw [Reading.whole?, hr]

end Reads

/-! ## Classes are read back -/

open Reads

theorem toNat_ofNat_length {bytes : Bytes} (h : bytes.length ≤ 65535) :
    (UInt16.ofNat bytes.length).toNat = bytes.length :=
  UInt16.toNat_ofNat_of_lt' (show bytes.length < 65536 by omega)

theorem reads_constant {c : Constant} (h : c.Short) : Reads Reading.constant c.bytes c.stored := by
  cases c with
  | utf8 text =>
    refine (Reads.byte 1).bind (?_ : Reads _ (u2 _ ++ ModifiedUtf8.encode text) _)
    refine (Reads.field2 _).bind ?_
    exact (take_of_eq (toNat_ofNat_length h)).map StoredConstant.utf8
  | integer value =>
    refine (Reads.byte 3).bind (?_ : Reads _ (u4 _) _)
    exact (Reads.field4 value.toUInt32).map fun v => StoredConstant.integer v.toInt32
  | classRef name =>
    refine (Reads.byte 7).bind (?_ : Reads _ (u2 _) _)
    exact (Reads.field2 name).map StoredConstant.classRef
  | nameAndType name descriptor =>
    refine (Reads.byte 12).bind (?_ : Reads _ (u2 _ ++ u2 _) _)
    exact (Reads.field2 name).bind
      ((Reads.field2 descriptor).map (StoredConstant.nameAndType name))
  | fieldRef owner member =>
    refine (Reads.byte 9).bind (?_ : Reads _ (u2 _ ++ u2 _) _)
    exact (Reads.field2 owner).bind ((Reads.field2 member).map (StoredConstant.fieldRef owner))
  | methodRef owner member =>
    refine (Reads.byte 10).bind (?_ : Reads _ (u2 _ ++ u2 _) _)
    exact (Reads.field2 owner).bind ((Reads.field2 member).map (StoredConstant.methodRef owner))

/-- An attribute whose length is that of its body is read with its body. -/
theorem reads_attributeInfo (name : UInt16) {length : UInt32} {body : Bytes}
    (h : length.toNat = body.length) :
    Reads Reading.attributeInfo (u2 name ++ u4 length ++ body) (name, body) := by
  rw [List.append_assoc]
  refine (Reads.field2 name).bind ((Reads.field4 _).bind ?_)
  exact (take_of_eq h).map (Prod.mk name)

/-- One attribute is read as a row of one. -/
theorem reads_attributes (name : UInt16) {length : UInt32} {body : Bytes}
    (h : length.toNat = body.length) :
    Reads (Reading.many Reading.attributeInfo (1 : UInt16).toNat) (u2 name ++ u4 length ++ body)
      [(name, body)] := by
  have hone := (reads_attributeInfo name h).map fun p => [p]
  simpa [Reading.many] using hone

theorem reads_localVariable (row : LocalVariable) : Reads Reading.localVariable row.bytes row := by
  simp only [LocalVariable.bytes, List.append_assoc]
  refine (Reads.field2 _).bind ((Reads.field2 _).bind ((Reads.field2 _).bind ?_))
  exact (Reads.field2 _).bind ((Reads.field2 row.slot).map (LocalVariable.mk _ _ _ _))

theorem reads_localVariables {table : LocalVariableTable} (h : table.rows.length ≤ 65535) :
    Reads Reading.localVariables table.body table.rows := by
  have hcount : (UInt16.ofNat table.rows.length).toNat = table.rows.length :=
    UInt16.toNat_ofNat_of_lt' (show table.rows.length < 65536 by omega)
  have hrows := Reads.many_of_eq LocalVariable.bytes id hcount
    fun row _ => reads_localVariable row
  rw [List.map_id] at hrows
  exact (Reads.field2 _).bind hrows

/-- A method whose code and table fit their fields, in a pool that holds the attribute names. -/
structure Method.Storable (pool : StoredPool) (codeName : UInt16) (tableName : Option UInt16)
    (m : Method) : Prop where
  codeName_eq : pool.isText "Code" codeName = true
  code_length : m.code.length ≤ 131070
  rows_length : ∀ table, m.localVariables = some table → table.rows.length ≤ 65535
  tableName_eq : m.localVariables.isSome = true →
    ∃ index, tableName = some index ∧ pool.isText "LocalVariableTable" index = true

section Methods

variable {pool : StoredPool} {codeName : UInt16} {tableName : Option UInt16} {m : Method}

/-- The attributes of a code are read by their count, names and lengths. -/
theorem reads_nested (h : m.Storable pool codeName tableName) :
    Reads (do
      let count ← Reading.field2
      let attributes ← Reading.many Reading.attributeInfo count.toNat
      Reading.localVariableTable pool attributes) (m.nested tableName) m.localVariables := by
  cases htable : m.localVariables with
  | none =>
    simp only [Method.nested, htable]
    exact (Reads.field2 0).bind ((Reads.pure []).bind_nil (Reads.pure none))
  | some table =>
    obtain ⟨name, rfl, hname⟩ := h.tableName_eq (by rw [htable]; rfl)
    have hrows := h.rows_length table htable
    have hfind : Reading.attribute? pool "LocalVariableTable" [(name, table.body)] =
        some (name, table.body) := by
      simp [Reading.attribute?, hname]
    have htab : Reads (Reading.localVariableTable pool [(name, table.body)]) [] (some table) := by
      rw [Reading.localVariableTable, hfind]
      exact (Reads.ofOption (reads_localVariables hrows).whole?).map fun rows =>
        some (LocalVariableTable.mk rows)
    have hboth := (reads_attributes name (length_tableBody hrows)).bind htab
    simp only [Method.nested, htable, List.append_assoc]
    simp only [List.append_nil, List.append_assoc] at hboth
    exact (Reads.field2 1).bind hboth

theorem reads_codeBody (h : m.Storable pool codeName tableName) :
    Reads (Reading.code pool) (m.body tableName)
      (m.maxStack, m.maxLocals, m.code, m.localVariables) := by
  have hlen : (UInt32.ofNat m.code.length).toNat = m.code.length :=
    UInt32.toNat_ofNat_of_lt' (show m.code.length < 4294967296 by have := h.code_length; omega)
  have hnested := (reads_nested h).map fun table => (m.maxStack, m.maxLocals, m.code, table)
  simp only [Method.body, List.append_assoc]
  refine (Reads.field2 _).bind ((Reads.field2 _).bind ((Reads.field4 _).bind ?_))
  refine (take_of_eq hlen).bind ((Reads.field2 0).bind ((Reads.check rfl).bind_nil ?_))
  simpa using hnested

/-- A method is read back, its code attribute bounded by the length computed for it. -/
theorem reads_method {c : ClassFile} (h : m.Storable pool c.codeName c.tableName) :
    Reads (Reading.method pool) (m.bytes c) m := by
  have hlength : m.bodyLength.toNat = (m.body c.tableName).length := by
    refine length_codeBody h.code_length h.rows_length fun hsome => ?_
    obtain ⟨index, hindex, -⟩ := h.tableName_eq hsome
    rw [hindex]
    rfl
  have hfind : Reading.attribute? pool "Code" [(c.codeName, m.body c.tableName)] =
      some (c.codeName, m.body c.tableName) := by
    simp [Reading.attribute?, h.codeName_eq]
  simp only [Method.bytes, List.append_assoc]
  refine (Reads.field2 _).bind ((Reads.field2 _).bind ((Reads.field2 _).bind ?_))
  refine (Reads.field2 1).bind ?_
  rw [← List.append_nil (m.body c.tableName), ← List.append_assoc, ← List.append_assoc,
    List.append_assoc (u2 c.codeName)]
  refine (reads_attributes c.codeName hlength).bind ?_
  refine (Reads.ofOption hfind).bind_nil ?_
  exact (Reads.ofOption (reads_codeBody h).whole?).map fun p =>
    Method.mk m.accessFlags m.nameIndex m.descriptorIndex p.1 p.2.1 p.2.2.1 p.2.2.2

end Methods

/-- A class whose constants and methods fit their fields. -/
structure Storable (c : ClassFile) : Prop where
  short : ∀ constant ∈ c.pool.entries.toList, constant.Short
  methods_length : c.methods.length ≤ 65535
  methods : ∀ m ∈ c.methods,
    m.Storable (c.pool.entries.toList.map Constant.stored) c.codeName c.tableName

/-- A class is read back from its stored form, to the last byte. -/
theorem read?_bytes {c : ClassFile} (h : c.Storable) : read? c.bytes = some c.stored := by
  have hpool : (UInt16.ofNat (c.pool.size + 1)).toNat - 1 = c.pool.entries.toList.length := by
    have hle := c.pool.size_le
    rw [ConstantPool.size, Array.length_toList,
      UInt16.toNat_ofNat_of_lt' (show c.pool.entries.size + 1 < 65536 by omega)]
    rfl
  have hmethods : (UInt16.ofNat c.methods.length).toNat = c.methods.length :=
    UInt16.toNat_ofNat_of_lt' (show c.methods.length < 65536 by have := h.methods_length; omega)
  have hreads : Reads Reading.classFile c.bytes c.stored := by
    simp only [bytes, ConstantPool.bytes, List.append_assoc]
    refine (Reads.field4 magic).bind ((Reads.check rfl).bind_nil ?_)
    refine (Reads.field2 _).bind ((Reads.field2 _).bind ((Reads.field2 _).bind ?_))
    refine (Reads.many_of_eq Constant.bytes Constant.stored hpool fun constant hc =>
      reads_constant (h.short constant hc)).bind ?_
    refine (Reads.field2 _).bind ((Reads.field2 _).bind ((Reads.field2 _).bind ?_))
    refine (Reads.field2 0).bind ((Reads.check rfl).bind_nil ?_)
    refine (Reads.field2 0).bind ((Reads.check rfl).bind_nil ?_)
    refine (Reads.field2 _).bind ?_
    have hrows := Reads.many_of_eq (Method.bytes c) id hmethods fun m hm =>
      reads_method (h.methods m hm)
    rw [List.map_id] at hrows
    refine hrows.bind ?_
    refine (Reads.field2 0).bind (?_ : Reads _ [] _)
    exact (Reads.check rfl).bind_nil (Reads.pure c.stored)
  exact hreads.whole?

end StackCodegen.ClassFile
