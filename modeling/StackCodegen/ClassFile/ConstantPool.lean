import StackCodegen.ClassFile.ModifiedUtf8
import StackCodegen.CodegenError
import Std.Data.TreeMap

/-!
# Constant pool

The constants of a class, numbered from 1 in order of first use and never repeated. A pool holds at
most 65534 entries, so that the stored count fits its field. Composite entries are added part by
part; the parts that precede a failing one stay in the pool.

Main statement: the index that `add` hands out leads to the constant added (`get?_of_add`).
-/

set_option autoImplicit false

namespace StackCodegen.ClassFile

/-- One constant. Entries refer to others by index. -/
inductive Constant where
  | utf8 (text : String)
  | integer (value : Int32)
  | classRef (name : UInt16)
  | nameAndType (name : UInt16) (descriptor : UInt16)
  | fieldRef (owner : UInt16) (member : UInt16)
  | methodRef (owner : UInt16) (member : UInt16)
  deriving DecidableEq

namespace Constant

/-- The place of a constant's kind in the order of constants. -/
def rank : Constant → Nat
  | utf8 _ => 0
  | integer _ => 1
  | classRef _ => 2
  | nameAndType _ _ => 3
  | fieldRef _ _ => 4
  | methodRef _ _ => 5

/-- The text of a constant that is one. -/
def text : Constant → String
  | utf8 text => text
  | _ => ""

/-- The other fields of a constant as one number. -/
def fields : Constant → Nat
  | utf8 _ => 0
  | integer value => value.toUInt32.toNat
  | classRef name => name.toNat
  | nameAndType a b | fieldRef a b | methodRef a b => 65536 * a.toNat + b.toNat

/-- Constants in order of kind, text and fields. -/
instance : Ord Constant :=
  ⟨compareLex (compareOn rank) (compareLex (compareOn text) (compareOn fields))⟩

instance : Std.TransOrd Constant :=
  inferInstanceAs (Std.TransCmp (compareLex _ (compareLex _ _)))

theorem eq_of_fields {a b a' b' : UInt16}
    (h : 65536 * a.toNat + b.toNat = 65536 * a'.toNat + b'.toNat) : a = a' ∧ b = b' := by
  have hb := b.toNat_lt
  have hb' := b'.toNat_lt
  exact ⟨UInt16.toNat_inj.1 (by omega), UInt16.toNat_inj.1 (by omega)⟩

instance : Std.LawfulEqOrd Constant where
  eq_of_compare := by
    intro c d h
    have hkeys : c.rank = d.rank ∧ c.text = d.text ∧ c.fields = d.fields := by
      change (compareOn rank c d).then ((compareOn text c d).then (compareOn fields c d)) = .eq at h
      simp only [Ordering.then_eq_eq] at h
      exact ⟨Std.LawfulEqOrd.eq_of_compare h.1, Std.LawfulEqOrd.eq_of_compare h.2.1,
        Std.LawfulEqOrd.eq_of_compare h.2.2⟩
    obtain ⟨hrank, htext, hfields⟩ := hkeys
    cases c <;> cases d <;> first | cases hrank; done | skip
    case utf8.utf8 => exact congrArg utf8 htext
    case integer.integer value value' =>
      have hvalue : value.toUInt32 = value'.toUInt32 := UInt32.toNat_inj.1 hfields
      exact congrArg (fun v => integer v.toInt32) hvalue
    case classRef.classRef => exact congrArg classRef (UInt16.toNat_inj.1 hfields)
    all_goals
      obtain ⟨ha, hb⟩ := eq_of_fields hfields
      rw [ha, hb]

end Constant

/-- The bytes of a constant: its tag and its fields. -/
def Constant.bytes : Constant → Bytes
  | utf8 text =>
    let body := ModifiedUtf8.encode text
    1 :: u2 (.ofNat body.length) ++ body
  | integer value => 3 :: u4 value.toUInt32
  | classRef name => 7 :: u2 name
  | nameAndType name descriptor => 12 :: u2 name ++ u2 descriptor
  | fieldRef owner member => 9 :: u2 owner ++ u2 member
  | methodRef owner member => 10 :: u2 owner ++ u2 member

/-- A text fits the field for the length of its encoding. -/
def Constant.Short : Constant → Prop
  | utf8 text => (ModifiedUtf8.encode text).length ≤ 65535
  | _ => True

/-- Constants in order, with the position of each. -/
structure ConstantPool where
  entries : Array Constant
  positions : Std.TreeMap Constant Nat
  position_iff : ∀ (c : Constant) (i : Nat), positions[c]? = some i ↔ entries[i]? = some c
  size_le : entries.size ≤ 65534

namespace ConstantPool

/-- The pool without constants. -/
def empty : ConstantPool :=
  ⟨#[], ∅, by simp, by simp⟩

instance : Inhabited ConstantPool := ⟨empty⟩

/-- Number of constants. -/
def size (pool : ConstantPool) : Nat := pool.entries.size

/-- The constant at an index; index 0 holds none. -/
def get? (pool : ConstantPool) (index : UInt16) : Option Constant :=
  if index = 0 then none else pool.entries[index.toNat - 1]?

/-- A computation that adds constants, which stay added where it fails. -/
abbrev Interning := ExceptT CodegenError (StateM ConstantPool)

/-- The index of a constant, added at the end if it is new. -/
def add (constant : Constant) : Interning UInt16 := fun pool =>
  match pool with
  | ⟨entries, positions, hpos, hsize⟩ =>
    match hc : positions[constant]? with
    | some i => (.ok (.ofNat (i + 1)), ⟨entries, positions, hpos, hsize⟩)
    | none =>
      if h : 65534 ≤ entries.size then
        (.error .constantPoolOverflow, ⟨entries, positions, hpos, hsize⟩)
      else
        (.ok (.ofNat (entries.size + 1)),
          { entries := entries.push constant
            positions := positions.insert constant entries.size
            position_iff := by
              intro c i
              simp only [Std.TreeMap.getElem?_insert, Array.getElem?_push, Std.compare_eq_iff_eq]
              have hnew : ∀ j : Nat, entries[j]? ≠ some constant := by
                intro j hj
                rw [(hpos constant j).2 hj] at hc
                cases hc
              by_cases hcc : constant = c
              · subst hcc
                rw [if_pos rfl]
                by_cases hi : i = entries.size
                · simp only [hi, if_true]
                · rw [if_neg hi, Option.some.injEq]
                  exact ⟨fun e => absurd e.symm hi, fun e => absurd e (hnew i)⟩
              · rw [if_neg hcc, hpos]
                by_cases hi : i = entries.size
                · subst hi
                  rw [if_pos rfl, Option.some.injEq]
                  constructor
                  · intro e
                    simp at e
                  · intro e
                    exact absurd e hcc
                · rw [if_neg hi]
            size_le := by
              rw [Array.size_push]
              omega })

theorem get?_of_add {constant : Constant} {pool pool' : ConstantPool} {index : UInt16}
    (h : add constant pool = (.ok index, pool')) : pool'.get? index = some constant := by
  obtain ⟨entries, positions, hpos, hsize⟩ := pool
  have hget : ∀ i : Nat, i < 65534 → ∀ p : ConstantPool, p.entries[i]? = some constant →
      p.get? (.ofNat (i + 1)) = some constant := by
    intro i hi p hp
    have hn : (UInt16.ofNat (i + 1)).toNat = i + 1 :=
      UInt16.toNat_ofNat_of_lt' (show i + 1 < 65536 by omega)
    have h0 : UInt16.ofNat (i + 1) ≠ 0 := by
      intro e
      rw [e] at hn
      simp at hn
    rw [get?, if_neg h0, hn]
    exact hp
  unfold add at h
  dsimp only at h
  split at h
  next i hc =>
    cases h
    have hi := (hpos constant i).1 hc
    exact hget i (by have := (Array.getElem?_eq_some_iff.1 hi).1; omega) _ hi
  next =>
    split at h
    · cases h
    · cases h
      exact hget entries.size (by omega) _ (by simp)

/-- The index of a text. A text whose encoding is longer than 65535 bytes has none. -/
def utf8 (text : String) : Interning UInt16 :=
  if 65535 < (ModifiedUtf8.encode text).length then
    throw .constantPoolOverflow
  else
    add (.utf8 text)

/-- The index of an integer. -/
def integer (value : Int32) : Interning UInt16 := add (.integer value)

/-- The index of a class given by its internal name, such as `java/lang/Object`. -/
def classRef (name : String) : Interning UInt16 := do
  add (.classRef (← utf8 name))

/-- The index of a member's name with its descriptor. -/
def nameAndType (name descriptor : String) : Interning UInt16 := do
  let nameIndex ← utf8 name
  let descriptorIndex ← utf8 descriptor
  add (.nameAndType nameIndex descriptorIndex)

/-- The index of a field. -/
def fieldRef (owner name descriptor : String) : Interning UInt16 := do
  let ownerIndex ← classRef owner
  let memberIndex ← nameAndType name descriptor
  add (.fieldRef ownerIndex memberIndex)

/-- The index of a method. -/
def methodRef (owner name descriptor : String) : Interning UInt16 := do
  let ownerIndex ← classRef owner
  let memberIndex ← nameAndType name descriptor
  add (.methodRef ownerIndex memberIndex)

/-- The stored form: one more than the number of constants, then each of them. -/
def bytes (pool : ConstantPool) : Bytes :=
  u2 (.ofNat (pool.size + 1)) ++ pool.entries.toList.flatMap Constant.bytes

end ConstantPool

end StackCodegen.ClassFile
