/-!
# Big-endian fields

Class files are sequences of bytes whose multi-byte fields have their most significant byte first.
-/

set_option autoImplicit false

namespace StackCodegen.ClassFile

/-- A sequence of bytes. -/
abbrev Bytes := List UInt8

/-- A two-byte field. -/
def u2 (value : UInt16) : Bytes := [(value >>> 8).toUInt8, value.toUInt8]

/-- A four-byte field. -/
def u4 (value : UInt32) : Bytes :=
  [(value >>> 24).toUInt8, (value >>> 16).toUInt8, (value >>> 8).toUInt8, value.toUInt8]

@[simp] theorem length_u2 (value : UInt16) : (u2 value).length = 2 := rfl

@[simp] theorem length_u4 (value : UInt32) : (u4 value).length = 4 := rfl

end StackCodegen.ClassFile
