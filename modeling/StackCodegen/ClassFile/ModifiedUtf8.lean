import StackCodegen.ClassFile.Bytes

/-!
# Modified UTF-8

The encoding of text in class files. A text is taken as its UTF-16 units, and each unit becomes one,
two or three bytes; a supplementary character is thus two groups of three bytes. The unit 0 takes
two bytes, so no byte of an encoded text is 0.
-/

set_option autoImplicit false

namespace StackCodegen.ClassFile.ModifiedUtf8

/-- The UTF-16 units of a character: itself, or a high and a low surrogate. -/
def units (c : Char) : List UInt16 :=
  if c.val < 0x10000 then
    [c.val.toUInt16]
  else
    let v := c.val - 0x10000
    [((v >>> 10) + 0xd800).toUInt16, ((v &&& 0x3ff) + 0xdc00).toUInt16]

/-- The bytes of one unit. -/
def encodeUnit (u : UInt16) : Bytes :=
  if 0x01 ≤ u ∧ u ≤ 0x7f then
    [u.toUInt8]
  else if u ≤ 0x7ff then
    [(u >>> 6).toUInt8 ||| 0xc0, continuation u]
  else
    [(u >>> 12).toUInt8 ||| 0xe0, continuation (u >>> 6), continuation u]
where
  /-- The six lowest bits as a byte that is not the first of its group. -/
  continuation (v : UInt16) : UInt8 := (v &&& 0x3f).toUInt8 ||| 0x80

/-- The bytes of a text. -/
def encode (text : String) : Bytes :=
  text.toList.flatMap fun c => (units c).flatMap encodeUnit

end StackCodegen.ClassFile.ModifiedUtf8
