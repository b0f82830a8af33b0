import StackCodegen.ClassFile.ConstantPool
import Mathlib.Data.List.Nodup

/-!
# Calls on a constant pool

A pool is used through seven calls: six for the kinds of constants, which add the parts of a
constant before the constant itself, and one for a constant taken as it is. A call may fail, and
what it added before stays; so a pool goes through any row of calls (`after`).

Three things are kept on the way:

* a pool is the front of what it becomes (`IsPrefix`), so what a call asked for stays where it was
  found (`Call.FoundAt`);
* a call that succeeded once finds its parts again, and adds nothing (`Steady`);
* as long as only the six calls for kinds are used, the constants that a constant refers to come
  before it and are of the right kinds (`Grounded`, `Lays`), and the texts fit their fields
  (`Short`).

There is room for a row of calls if all of them succeed (`RoomFor`).

Main statement: all of this holds of a new pool after any row of calls (`calls_on_new_pool`).
-/

set_option autoImplicit false

namespace StackCodegen.ClassFile

/-- Recogniser for texts. -/
def Constant.isText : Constant → Bool
  | utf8 _ => true
  | _ => false

/-- Recogniser for classes. -/
def Constant.isClass : Constant → Bool
  | classRef _ => true
  | _ => false

/-- Recogniser for names with descriptors. -/
def Constant.isNameAndType : Constant → Bool
  | nameAndType _ _ => true
  | _ => false

namespace ConstantPool

/-! ## Places of constants -/

/-- A pool that a later one starts with. -/
def IsPrefix (pool later : ConstantPool) : Prop := pool.entries.toList <+: later.entries.toList

theorem IsPrefix.refl (pool : ConstantPool) : IsPrefix pool pool := List.prefix_refl _

theorem IsPrefix.trans {pool mid later : ConstantPool} (h : IsPrefix pool mid)
    (h' : IsPrefix mid later) : IsPrefix pool later := List.IsPrefix.trans h h'

/-- The index of a position. -/
theorem toNat_index {i : Nat} (h : i < 65534) : (UInt16.ofNat (i + 1)).toNat = i + 1 :=
  UInt16.toNat_ofNat_of_lt' (show i + 1 < 65536 by omega)

/-- An index is one more than a position. -/
theorem get?_eq_some_iff {pool : ConstantPool} {index : UInt16} {constant : Constant} :
    pool.get? index = some constant ↔
      ∃ i, index = .ofNat (i + 1) ∧ pool.entries[i]? = some constant := by
  unfold get?
  constructor
  · intro h
    split at h
    · cases h
    next hzero =>
        have hpos : index.toNat ≠ 0 := fun h0 => hzero (UInt16.toNat_inj.1 h0)
        refine ⟨index.toNat - 1, ?_, h⟩
        rw [Nat.sub_add_cancel (Nat.pos_of_ne_zero hpos), UInt16.ofNat_toNat]
  · rintro ⟨i, rfl, hi⟩
    have hlt : i < 65534 := Nat.lt_of_lt_of_le (Array.getElem?_eq_some_iff.1 hi).1 pool.size_le
    have hindex := toNat_index hlt
    have hzero : UInt16.ofNat (i + 1) ≠ 0 := by
      intro h0
      rw [h0] at hindex
      cases hindex
    rw [if_neg hzero, hindex, Nat.add_sub_cancel]
    exact hi

/-- Indices of constants go from 1 to the size. -/
theorem index_bounds {pool : ConstantPool} {index : UInt16} {constant : Constant}
    (h : pool.get? index = some constant) : 1 ≤ index.toNat ∧ index.toNat ≤ pool.size := by
  obtain ⟨i, rfl, hi⟩ := get?_eq_some_iff.1 h
  have hlt := (Array.getElem?_eq_some_iff.1 hi).1
  rw [toNat_index (Nat.lt_of_lt_of_le hlt pool.size_le)]
  exact ⟨Nat.le_add_left 1 i, hlt⟩

/-- A constant stays at its index. -/
theorem IsPrefix.get? {pool later : ConstantPool} (h : IsPrefix pool later) {index : UInt16}
    {constant : Constant} (hget : pool.get? index = some constant) :
    later.get? index = some constant := by
  obtain ⟨i, rfl, hi⟩ := get?_eq_some_iff.1 hget
  obtain ⟨more, hmore⟩ := h
  refine get?_eq_some_iff.2 ⟨i, rfl, ?_⟩
  rw [← Array.getElem?_toList] at hi ⊢
  rw [← hmore, List.getElem?_append_left (List.getElem?_eq_some_iff.1 hi).1]
  exact hi

/-- A constant has one position. -/
theorem position_unique {pool : ConstantPool} {i j : Nat} {constant : Constant}
    (hi : pool.entries[i]? = some constant) (hj : pool.entries[j]? = some constant) : i = j := by
  have hsame := (pool.position_iff constant i).2 hi
  rw [(pool.position_iff constant j).2 hj] at hsame
  exact (Option.some.inj hsame).symm

/-- No constant is held twice. -/
theorem nodup_entries (pool : ConstantPool) : pool.entries.toList.Nodup := by
  rw [List.nodup_iff_getElem?_ne_getElem?]
  intro i j hij hj heq
  have hget := List.getElem?_eq_getElem hj
  rw [hget] at heq
  rw [Array.getElem?_toList] at heq hget
  exact absurd (position_unique heq hget) (Nat.ne_of_lt hij)

/-! ## Adding a constant -/

/-- All that adding a constant can do: find it, find no room for it, or put it at the end. -/
theorem add_cases (constant : Constant) (pool : ConstantPool) :
    (∃ i, pool.entries[i]? = some constant ∧
      (add constant).run pool = (.ok (.ofNat (i + 1)), pool)) ∨
    (∀ i : Nat, pool.entries[i]? ≠ some constant) ∧
      (pool.size = 65534 ∧ (add constant).run pool = (.error .constantPoolOverflow, pool) ∨
        pool.size < 65534 ∧ ∃ pool', pool'.entries = pool.entries.push constant ∧
          (add constant).run pool = (.ok (.ofNat (pool.size + 1)), pool')) := by
  obtain ⟨entries, positions, hpos, hsize⟩ := pool
  change (∃ i, _ ∧ add constant _ = _) ∨ (∀ i, _) ∧
    (_ ∧ add constant _ = _ ∨ _ ∧ ∃ pool', _ ∧ add constant _ = _)
  unfold add
  dsimp only
  split
  next i hi => exact .inl ⟨i, (hpos constant i).1 hi, rfl⟩
  next hnone =>
      have hnew : ∀ i : Nat, entries[i]? ≠ some constant := by
        intro i hi
        rw [(hpos constant i).2 hi] at hnone
        cases hnone
      split
      next hfull => exact .inr ⟨hnew, .inl ⟨Nat.le_antisymm hsize hfull, rfl⟩⟩
      next hroom => exact .inr ⟨hnew, .inr ⟨Nat.lt_of_not_le hroom, _, rfl, rfl⟩⟩

/-- A constant that is there is found. -/
theorem add_of_get? {constant : Constant} {pool : ConstantPool} {index : UInt16}
    (h : pool.get? index = some constant) : (add constant).run pool = (.ok index, pool) := by
  obtain ⟨i, rfl, hi⟩ := get?_eq_some_iff.1 h
  rcases add_cases constant pool with ⟨j, hj, hrun⟩ | ⟨hnew, -⟩
  · rw [position_unique hi hj]
    exact hrun
  · exact absurd hi (hnew i)

/-! ## Calls -/

/-- A call on a pool. -/
inductive Call where
  | add (constant : Constant)
  | utf8 (text : String)
  | integer (value : Int32)
  | classRef (name : String)
  | nameAndType (name descriptor : String)
  | fieldRef (owner name descriptor : String)
  | methodRef (owner name descriptor : String)
  deriving DecidableEq

namespace Call

/-- What a call does. -/
def run : Call → Interning UInt16
  | add constant => ConstantPool.add constant
  | utf8 text => ConstantPool.utf8 text
  | integer value => ConstantPool.integer value
  | classRef name => ConstantPool.classRef name
  | nameAndType name descriptor => ConstantPool.nameAndType name descriptor
  | fieldRef owner name descriptor => ConstantPool.fieldRef owner name descriptor
  | methodRef owner name descriptor => ConstantPool.methodRef owner name descriptor

/-- Recogniser for the calls that are for one kind of constant. -/
def isTyped : Call → Bool
  | add _ => false
  | _ => true

/-- The texts that a call encodes. -/
def texts : Call → List String
  | add _ | integer _ => []
  | utf8 text => [text]
  | classRef name => [name]
  | nameAndType name descriptor => [name, descriptor]
  | fieldRef owner name descriptor | methodRef owner name descriptor => [owner, name, descriptor]

/-- A text of a call does not fit its length field. -/
def TooLong (call : Call) : Prop := ∃ text ∈ call.texts, 65535 < (ModifiedUtf8.encode text).length

end Call

/-- The pool after a row of calls, failing or not. -/
def after (pool : ConstantPool) (calls : List Call) : ConstantPool :=
  calls.foldl (fun pool call => (call.run.run pool).2) pool

theorem after_nil (pool : ConstantPool) : pool.after [] = pool := rfl

theorem after_cons (pool : ConstantPool) (call : Call) (calls : List Call) :
    pool.after (call :: calls) = ((call.run.run pool).2).after calls := rfl

theorem after_append (pool : ConstantPool) (calls calls' : List Call) :
    pool.after (calls ++ calls') = (pool.after calls).after calls' := List.foldl_append

/-- All calls of a row succeed, each on the pool that the ones before it leave. -/
def RoomFor (pool : ConstantPool) : List Call → Prop
  | [] => True
  | call :: calls =>
    (∃ index, (call.run.run pool).1 = .ok index) ∧ ((call.run.run pool).2).RoomFor calls

theorem roomFor_append {pool : ConstantPool} {calls calls' : List Call} :
    pool.RoomFor (calls ++ calls') ↔ pool.RoomFor calls ∧ (pool.after calls).RoomFor calls' := by
  induction calls generalizing pool with
  | nil => simp [RoomFor, after_nil]
  | cons call calls ih => rw [List.cons_append, RoomFor, ih, RoomFor, after_cons, and_assoc]

/-! ## What is asked for -/

/-- The class of a name lies at an index. -/
def HoldsClass (pool : ConstantPool) (index : UInt16) (name : String) : Prop :=
  ∃ text, pool.get? index = some (.classRef text) ∧ pool.get? text = some (.utf8 name)

/-- A name with a descriptor lies at an index. -/
def HoldsMember (pool : ConstantPool) (index : UInt16) (name descriptor : String) : Prop :=
  ∃ text text', pool.get? index = some (.nameAndType text text') ∧
    pool.get? text = some (.utf8 name) ∧ pool.get? text' = some (.utf8 descriptor)

/-- What a call asks for lies at an index, and so do its parts at the indices it refers to. -/
def Call.FoundAt (pool : ConstantPool) (index : UInt16) : Call → Prop
  | add constant => pool.get? index = some constant
  | utf8 text => pool.get? index = some (.utf8 text)
  | integer value => pool.get? index = some (.integer value)
  | classRef name => pool.HoldsClass index name
  | nameAndType name descriptor => pool.HoldsMember index name descriptor
  | fieldRef owner name descriptor => ∃ class' member,
      pool.get? index = some (.fieldRef class' member) ∧ pool.HoldsClass class' owner ∧
        pool.HoldsMember member name descriptor
  | methodRef owner name descriptor => ∃ class' member,
      pool.get? index = some (.methodRef class' member) ∧ pool.HoldsClass class' owner ∧
        pool.HoldsMember member name descriptor

theorem HoldsClass.later {pool later : ConstantPool} {index : UInt16} {name : String}
    (h : pool.HoldsClass index name) (hle : IsPrefix pool later) : later.HoldsClass index name := by
  obtain ⟨text, hindex, hname⟩ := h
  exact ⟨text, hle.get? hindex, hle.get? hname⟩

theorem HoldsMember.later {pool later : ConstantPool} {index : UInt16} {name descriptor : String}
    (h : pool.HoldsMember index name descriptor) (hle : IsPrefix pool later) :
    later.HoldsMember index name descriptor := by
  obtain ⟨text, text', hindex, hname, hdescriptor⟩ := h
  exact ⟨text, text', hle.get? hindex, hle.get? hname, hle.get? hdescriptor⟩

/-- What was found stays found. -/
theorem Call.FoundAt.later {pool later : ConstantPool} {index : UInt16} {call : Call}
    (h : call.FoundAt pool index) (hle : IsPrefix pool later) : call.FoundAt later index := by
  cases call with
  | add constant | utf8 text | integer value => exact hle.get? h
  | classRef name => exact HoldsClass.later h hle
  | nameAndType name descriptor => exact HoldsMember.later h hle
  | fieldRef owner name descriptor | methodRef owner name descriptor =>
      obtain ⟨class', member, hindex, howner, hmember⟩ := h
      exact ⟨class', member, hle.get? hindex, howner.later hle, hmember.later hle⟩

/-- Where something was found there is a constant. -/
theorem Call.FoundAt.exists_get? {pool : ConstantPool} {index : UInt16} {call : Call}
    (h : call.FoundAt pool index) : ∃ constant, pool.get? index = some constant := by
  cases call with
  | add constant | utf8 text | integer value => exact ⟨_, h⟩
  | classRef name =>
      obtain ⟨text, hindex, -⟩ := h
      exact ⟨_, hindex⟩
  | nameAndType name descriptor =>
      obtain ⟨text, text', hindex, -⟩ := h
      exact ⟨_, hindex⟩
  | fieldRef owner name descriptor | methodRef owner name descriptor =>
      obtain ⟨class', member, hindex, -⟩ := h
      exact ⟨_, hindex⟩

/-! ## Growth and repetition -/

/-- A computation that only grows the pool, that once it succeeded does so again without adding
anything, and that fails on a full pool only, or where it is given too much. -/
structure Steady {α : Type} (tooMuch : Prop) (x : Interning α) : Prop where
  isPrefix : ∀ pool, IsPrefix pool (x.run pool).2
  again : ∀ pool a later, (x.run pool).1 = .ok a → IsPrefix (x.run pool).2 later →
    x.run later = (.ok a, later)
  fails : ∀ pool e, (x.run pool).1 = .error e →
    e = .constantPoolOverflow ∧ ((x.run pool).2.size = 65534 ∨ tooMuch)

section Steady

variable {α β : Type} {tooMuch : Prop}

/-- The rest of a computation runs on the pool that the first part leaves. -/
theorem run_bind (x : Interning α) (k : α → Interning β) (pool : ConstantPool) :
    (x >>= k).run pool =
      match x.run pool with
      | (.ok a, mid) => (k a).run mid
      | (.error e, mid) => (.error e, mid) := by
  change (ExceptT.bind x k).run pool = _
  simp only [ExceptT.bind, ExceptT.run, ExceptT.mk]
  change ExceptT.bindCont k (x pool).1 (x pool).2 = _
  cases x pool with
  | mk result mid => cases result <;> rfl

/-- Both parts of a computation that succeeds do so. -/
theorem run_bind_eq_ok {x : Interning α} {k : α → Interning β} {pool pool' : ConstantPool} {b : β}
    (h : (x >>= k).run pool = (.ok b, pool')) :
    ∃ a mid, x.run pool = (.ok a, mid) ∧ (k a).run mid = (.ok b, pool') := by
  rw [run_bind] at h
  rcases hfirst : x.run pool with ⟨e | a, mid⟩
  · rw [hfirst] at h
    cases h
  · rw [hfirst] at h
    exact ⟨a, mid, rfl, h⟩

theorem throw_bind (e : CodegenError) (k : α → Interning β) :
    ((throw e : Interning α) >>= k) = throw e := rfl

theorem Steady.throw (h : tooMuch) :
    Steady tooMuch (MonadExcept.throw CodegenError.constantPoolOverflow : Interning α) where
  isPrefix := fun pool => IsPrefix.refl pool
  again := by
    intro pool a later hok
    cases hok
  fails := by
    intro pool e herror
    cases herror
    exact ⟨rfl, .inr h⟩

/-- The second part runs on what the first part left, now and when both are done again. -/
theorem Steady.bind {x : Interning α} {k : α → Interning β} (hx : Steady tooMuch x)
    (hk : ∀ a, Steady tooMuch (k a)) : Steady tooMuch (x >>= k) := by
  refine ⟨fun pool => ?_, fun pool b later hok hle => ?_, fun pool e herror => ?_⟩
  · have hfirst := hx.isPrefix pool
    rw [run_bind]
    rcases hrun : x.run pool with ⟨_ | a, mid⟩
    · rw [hrun] at hfirst
      exact hfirst
    · rw [hrun] at hfirst
      exact hfirst.trans ((hk a).isPrefix mid)
  · have hfirst := hx.again pool
    rw [run_bind] at hok hle ⊢
    rcases hrun : x.run pool with ⟨_ | a, mid⟩
    · rw [hrun] at hok
      cases hok
    · rw [hrun] at hok hle hfirst
      have hmid : IsPrefix mid later := ((hk a).isPrefix mid).trans hle
      rw [hfirst a later rfl hmid]
      exact (hk a).again mid b later hok hle
  · have hfirst := hx.fails pool
    rw [run_bind] at herror ⊢
    rcases hrun : x.run pool with ⟨e' | a, mid⟩
    · rw [hrun] at herror hfirst
      cases herror
      exact hfirst e rfl
    · rw [hrun] at herror
      exact (hk a).fails mid e herror

theorem steady_add (constant : Constant) : Steady tooMuch (add constant) := by
  refine ⟨fun pool => ?_, fun pool index later hok hle => ?_, fun pool e herror => ?_⟩
  · rcases add_cases constant pool with ⟨i, -, hrun⟩ | ⟨-, ⟨-, hrun⟩ | ⟨-, pool', hentries, hrun⟩⟩
    · rw [hrun]
      exact IsPrefix.refl pool
    · rw [hrun]
      exact IsPrefix.refl pool
    · rw [hrun, IsPrefix, hentries, Array.toList_push]
      exact List.prefix_append _ _
  · apply add_of_get?
    apply hle.get?
    exact get?_of_add (Prod.ext hok rfl : (add constant).run pool = (.ok index, _))
  · rcases add_cases constant pool with ⟨i, -, hrun⟩ | ⟨-, ⟨hfull, hrun⟩ | ⟨-, pool', -, hrun⟩⟩
    · rw [hrun] at herror
      cases herror
    · rw [hrun] at herror ⊢
      cases herror
      exact ⟨rfl, .inl hfull⟩
    · rw [hrun] at herror
      cases herror

theorem steady_utf8 {text : String}
    (h : 65535 < (ModifiedUtf8.encode text).length → tooMuch) : Steady tooMuch (utf8 text) := by
  unfold utf8
  split
  next hlong => exact Steady.throw (h hlong)
  next => exact steady_add _

theorem steady_classRef {name : String}
    (h : 65535 < (ModifiedUtf8.encode name).length → tooMuch) : Steady tooMuch (classRef name) :=
  (steady_utf8 h).bind fun _ => steady_add _

theorem steady_nameAndType {name descriptor : String}
    (h : 65535 < (ModifiedUtf8.encode name).length → tooMuch)
    (h' : 65535 < (ModifiedUtf8.encode descriptor).length → tooMuch) :
    Steady tooMuch (nameAndType name descriptor) :=
  (steady_utf8 h).bind fun _ => (steady_utf8 h').bind fun _ => steady_add _

/-- Every call is steady, and is given too much where one of its texts is too long. -/
theorem Call.steady (call : Call) : Steady call.TooLong call.run := by
  have hlong : ∀ text ∈ call.texts, 65535 < (ModifiedUtf8.encode text).length → call.TooLong :=
    fun text htext h => ⟨text, htext, h⟩
  cases call with
  | add constant => exact steady_add constant
  | utf8 text => exact steady_utf8 (hlong text (by simp [texts]))
  | integer value => exact steady_add (.integer value)
  | classRef name => exact steady_classRef (hlong name (by simp [texts]))
  | nameAndType name descriptor =>
      exact steady_nameAndType (hlong name (by simp [texts])) (hlong descriptor (by simp [texts]))
  | fieldRef owner name descriptor | methodRef owner name descriptor =>
      refine (steady_classRef (hlong owner (by simp [texts]))).bind fun class' => ?_
      refine (steady_nameAndType (hlong name (by simp [texts]))
        (hlong descriptor (by simp [texts]))).bind fun member => ?_
      exact steady_add _

end Steady

/-- A row of calls only grows the pool. -/
theorem isPrefix_after (pool : ConstantPool) (calls : List Call) :
    IsPrefix pool (pool.after calls) := by
  induction calls generalizing pool with
  | nil => exact IsPrefix.refl pool
  | cons call calls ih => exact (call.steady.isPrefix pool).trans (ih _)

/-! ## References -/

/-- Some constant of a kind lies at an index below a bound. -/
def HoldsBelow (pool : ConstantPool) (bound : Nat) (kind : Constant → Bool) (index : UInt16) :
    Prop :=
  index.toNat < bound ∧ ∃ constant, pool.get? index = some constant ∧ kind constant = true

/-- What a constant refers to lies below a bound and is of the right kind. -/
def RefersBelow (pool : ConstantPool) (bound : Nat) : Constant → Prop
  | .utf8 _ | .integer _ => True
  | .classRef name => pool.HoldsBelow bound Constant.isText name
  | .nameAndType name descriptor =>
      pool.HoldsBelow bound Constant.isText name ∧ pool.HoldsBelow bound Constant.isText descriptor
  | .fieldRef owner member | .methodRef owner member =>
      pool.HoldsBelow bound Constant.isClass owner ∧
        pool.HoldsBelow bound Constant.isNameAndType member

/-- Every constant refers to earlier ones of the right kinds. -/
def Grounded (pool : ConstantPool) : Prop :=
  ∀ index constant, pool.get? index = some constant → pool.RefersBelow index.toNat constant

/-- Texts fit their length fields. -/
def Short (pool : ConstantPool) : Prop := ∀ constant ∈ pool.entries.toList, constant.Short

theorem HoldsBelow.later {pool later : ConstantPool} {bound bound' : Nat} {kind : Constant → Bool}
    {index : UInt16} (h : pool.HoldsBelow bound kind index) (hle : IsPrefix pool later)
    (hbound : bound ≤ bound') : later.HoldsBelow bound' kind index := by
  obtain ⟨hlt, constant, hget, hkind⟩ := h
  exact ⟨Nat.lt_of_lt_of_le hlt hbound, constant, hle.get? hget, hkind⟩

theorem RefersBelow.later {pool later : ConstantPool} {bound bound' : Nat} {constant : Constant}
    (h : pool.RefersBelow bound constant) (hle : IsPrefix pool later) (hbound : bound ≤ bound') :
    later.RefersBelow bound' constant := by
  cases constant with
  | utf8 text | integer value => trivial
  | classRef name => exact HoldsBelow.later h hle hbound
  | nameAndType name descriptor | fieldRef owner member | methodRef owner member =>
      exact ⟨h.1.later hle hbound, h.2.later hle hbound⟩

/-- What lies in a pool lies below the next index. -/
theorem holdsBelow_of_get? {pool : ConstantPool} {kind : Constant → Bool} {index : UInt16}
    {constant : Constant} (h : pool.get? index = some constant) (hkind : kind constant = true) :
    pool.HoldsBelow (pool.size + 1) kind index :=
  ⟨Nat.lt_succ_of_le (index_bounds h).2, constant, h, hkind⟩

/-- A constant whose references are at hand keeps the references of a pool grounded. -/
theorem grounded_add {constant : Constant} {pool : ConstantPool} (hpool : pool.Grounded)
    (h : pool.RefersBelow (pool.size + 1) constant) : ((add constant).run pool).2.Grounded := by
  have hle := (steady_add constant : Steady False _).isPrefix pool
  rcases add_cases constant pool with
    ⟨i, -, hrun⟩ | ⟨-, ⟨-, hrun⟩ | ⟨hroom, pool', hentries, hrun⟩⟩
  · rw [hrun]
    exact hpool
  · rw [hrun]
    exact hpool
  · rw [hrun] at hle ⊢
    intro index constant' hget
    obtain ⟨i, rfl, hi⟩ := get?_eq_some_iff.1 hget
    rw [hentries, Array.getElem?_push] at hi
    split at hi
    next hlast =>
        -- the new constant comes behind all that it refers to
        cases hi
        have hindex : (UInt16.ofNat (i + 1)).toNat = pool.size + 1 := by
          rw [hlast]
          exact toNat_index hroom
        rw [hindex]
        exact h.later hle (Nat.le_refl _)
    next =>
        have hold := hpool _ constant' (get?_eq_some_iff.2 ⟨i, rfl, hi⟩)
        exact hold.later hle (Nat.le_refl _)

/-- A constant that fits its fields keeps the texts of a pool short. -/
theorem short_add {constant : Constant} {pool : ConstantPool} (hpool : pool.Short)
    (h : constant.Short) : ((add constant).run pool).2.Short := by
  rcases add_cases constant pool with
    ⟨i, -, hrun⟩ | ⟨-, ⟨-, hrun⟩ | ⟨-, pool', hentries, hrun⟩⟩
  · rw [hrun]
    exact hpool
  · rw [hrun]
    exact hpool
  · rw [hrun]
    intro constant' hmem
    rw [hentries, Array.toList_push, List.mem_append, List.mem_singleton] at hmem
    rcases hmem with hmem | rfl
    · exact hpool constant' hmem
    · exact h

/-- From a pool that satisfies `P` a computation keeps the references grounded and the texts short,
and where it has a result the pool it leaves satisfies `Q` of the result. -/
structure Lays {α : Type} (P : ConstantPool → Prop) (x : Interning α)
    (Q : α → ConstantPool → Prop) : Prop where
  grounded : ∀ pool, P pool → pool.Grounded → (x.run pool).2.Grounded
  short : ∀ pool, pool.Short → (x.run pool).2.Short
  result : ∀ pool, P pool → ∀ a, (x.run pool).1 = .ok a → Q a (x.run pool).2

/-- What holds of a pool and of all later ones. -/
def Lasting (R : ConstantPool → Prop) : Prop :=
  ∀ pool later, R pool → IsPrefix pool later → R later

section Lays

variable {α β : Type} {P R : ConstantPool → Prop} {Q : α → ConstantPool → Prop}
  {S : β → ConstantPool → Prop}

theorem Lays.bind {x : Interning α} {k : α → Interning β} (hx : Lays P x Q)
    (hk : ∀ a, Lays (Q a) (k a) S) : Lays P (x >>= k) S := by
  refine ⟨fun pool hpool hgrounded => ?_, fun pool hshort => ?_, fun pool hpool b hb => ?_⟩
  · have hmid := hx.grounded pool hpool hgrounded
    have hresult := hx.result pool hpool
    rw [run_bind]
    rcases hrun : x.run pool with ⟨e | a, mid⟩
    · rw [hrun] at hmid
      exact hmid
    · rw [hrun] at hmid hresult
      exact (hk a).grounded mid (hresult a rfl) hmid
  · have hmid := hx.short pool hshort
    rw [run_bind]
    rcases hrun : x.run pool with ⟨e | a, mid⟩
    · rw [hrun] at hmid
      exact hmid
    · rw [hrun] at hmid
      exact (hk a).short mid hmid
  · have hresult := hx.result pool hpool
    rw [run_bind] at hb ⊢
    rcases hrun : x.run pool with ⟨e | a, mid⟩
    · rw [hrun] at hb
      cases hb
    · rw [hrun] at hb hresult
      exact (hk a).result mid (hresult a rfl) b hb

/-- What lasts is still at hand behind a computation. -/
theorem Lays.frame {tooMuch : Prop} {x : Interning α} (hx : Lays (fun _ => True) x Q)
    (hsteady : Steady tooMuch x) (hR : Lasting R) : Lays R x fun a pool => Q a pool ∧ R pool where
  grounded := fun pool _ => hx.grounded pool trivial
  short := hx.short
  result := fun pool hpool a ha =>
    ⟨hx.result pool trivial a ha, hR _ _ hpool (hsteady.isPrefix pool)⟩

theorem Lays.mono {x : Interning α} {Q' : α → ConstantPool → Prop} (hx : Lays P x Q)
    (h : ∀ a pool, Q a pool → Q' a pool) : Lays P x Q' :=
  ⟨hx.grounded, hx.short, fun pool hpool a ha => h a _ (hx.result pool hpool a ha)⟩

theorem lays_add {constant : Constant} (hshort : constant.Short) (hR : Lasting R)
    (h : ∀ pool, R pool → pool.RefersBelow (pool.size + 1) constant) :
    Lays R (add constant) fun index pool => pool.get? index = some constant ∧ R pool := by
  refine ⟨fun pool hpool hgrounded => grounded_add hgrounded (h pool hpool),
    fun pool hpool => short_add hpool hshort, fun pool hpool index hindex => ?_⟩
  have hrun : (add constant).run pool = (.ok index, ((add constant).run pool).2) :=
    Prod.ext hindex rfl
  exact ⟨get?_of_add hrun, hR _ _ hpool ((steady_add constant : Steady False _).isPrefix pool)⟩

end Lays

theorem lasting_get? (index : UInt16) (constant : Constant) :
    Lasting fun pool => pool.get? index = some constant := by
  intro pool later hget hle
  exact hle.get? hget

theorem Lasting.and {P R : ConstantPool → Prop} (hP : Lasting P) (hR : Lasting R) :
    Lasting fun pool => P pool ∧ R pool := by
  intro pool later h hle
  exact ⟨hP pool later h.1 hle, hR pool later h.2 hle⟩

/-- A constant without references may be added at any time. -/
theorem lays_leaf {constant : Constant} (hshort : constant.Short)
    (h : ∀ (pool : ConstantPool) (bound : Nat), pool.RefersBelow bound constant) :
    Lays (fun _ => True) (add constant) fun index pool => pool.get? index = some constant := by
  have hadd : Lays (fun _ => True) (add constant) _ :=
    lays_add hshort (fun _ _ _ _ => trivial) fun pool _ => h pool _
  exact hadd.mono fun _ _ hget => hget.1

theorem lays_utf8 (text : String) :
    Lays (fun _ => True) (utf8 text) fun index pool => pool.get? index = some (.utf8 text) := by
  unfold utf8
  split
  next =>
      refine ⟨fun _ _ => id, fun _ => id, fun pool _ index hindex => ?_⟩
      cases hindex
  next hlen => exact lays_leaf (Nat.le_of_not_lt hlen) fun _ _ => trivial

theorem lays_classRef (name : String) :
    Lays (fun _ => True) (classRef name) fun index pool => pool.HoldsClass index name := by
  refine (lays_utf8 name).bind fun text => ?_
  have hshort : (Constant.classRef text).Short := trivial
  refine (lays_add hshort (lasting_get? text _) fun pool htext => ?_).mono fun index pool h => ?_
  · exact holdsBelow_of_get? htext rfl
  · exact ⟨text, h.1, h.2⟩

theorem lays_nameAndType (name descriptor : String) :
    Lays (fun _ => True) (nameAndType name descriptor) fun index pool =>
      pool.HoldsMember index name descriptor := by
  refine (lays_utf8 name).bind fun text => ?_
  have hsecond := (lays_utf8 descriptor).frame
    (steady_utf8 fun _ => trivial : Steady True _) (lasting_get? text (.utf8 name))
  refine hsecond.bind fun text' => ?_
  have hlasting := (lasting_get? text' (.utf8 descriptor)).and (lasting_get? text (.utf8 name))
  have hshort : (Constant.nameAndType text text').Short := trivial
  refine (lays_add hshort hlasting fun pool htexts => ?_).mono fun index pool h => ?_
  · exact ⟨holdsBelow_of_get? htexts.2 rfl, holdsBelow_of_get? htexts.1 rfl⟩
  · exact ⟨text, text', h.1, h.2.2, h.2.1⟩

/-- Fields and methods are added behind their class and their name with its descriptor. -/
theorem lays_reference (make : UInt16 → UInt16 → Constant) (owner name descriptor : String)
    (hshort : ∀ class' member, (make class' member).Short)
    (hmake : ∀ (pool : ConstantPool) (bound : Nat) (class' member : UInt16),
      pool.HoldsBelow bound Constant.isClass class' →
        pool.HoldsBelow bound Constant.isNameAndType member →
          pool.RefersBelow bound (make class' member)) :
    Lays (fun _ => True)
      (do
        let class' ← classRef owner
        let member ← nameAndType name descriptor
        add (make class' member))
      fun index pool => ∃ class' member, pool.get? index = some (make class' member) ∧
        pool.HoldsClass class' owner ∧ pool.HoldsMember member name descriptor := by
  refine (lays_classRef owner).bind fun class' => ?_
  have howner : Lasting fun pool => pool.HoldsClass class' owner := fun _ _ h hle => h.later hle
  have hsecond := (lays_nameAndType name descriptor).frame
    (steady_nameAndType (fun _ => trivial) fun _ => trivial : Steady True _) howner
  refine hsecond.bind fun member => ?_
  have hmember : Lasting fun pool => pool.HoldsMember member name descriptor :=
    fun _ _ h hle => h.later hle
  refine (lays_add (hshort _ _) (hmember.and howner) fun pool hparts => ?_).mono fun index pool h => ?_
  · obtain ⟨⟨text, text', hindex, -⟩, ⟨text'', hclass, -⟩⟩ := hparts
    exact hmake pool _ _ _ (holdsBelow_of_get? hclass rfl) (holdsBelow_of_get? hindex rfl)
  · exact ⟨class', member, h.1, h.2.2, h.2.1⟩

/-- A call for a kind of constant keeps references grounded, and finds what it asks for. -/
theorem Call.lays {call : Call} (h : call.isTyped = true) :
    Lays (fun _ => True) call.run fun index pool => call.FoundAt pool index := by
  cases call with
  | add constant => cases h
  | utf8 text => exact lays_utf8 text
  | integer value => exact lays_leaf trivial fun _ _ => trivial
  | classRef name => exact lays_classRef name
  | nameAndType name descriptor => exact lays_nameAndType name descriptor
  | fieldRef owner name descriptor =>
      exact lays_reference .fieldRef owner name descriptor (fun _ _ => trivial)
        fun _ _ _ _ hclass hmember => ⟨hclass, hmember⟩
  | methodRef owner name descriptor =>
      exact lays_reference .methodRef owner name descriptor (fun _ _ => trivial)
        fun _ _ _ _ hclass hmember => ⟨hclass, hmember⟩

/-- A call that succeeds finds what it asks for. -/
theorem Call.foundAt {call : Call} {pool pool' : ConstantPool} {index : UInt16}
    (h : call.run.run pool = (.ok index, pool')) : call.FoundAt pool' index := by
  by_cases htyped : call.isTyped = true
  · have hresult := (Call.lays htyped).result pool trivial index
    rw [h] at hresult
    exact hresult rfl
  · cases call with
    | add constant => exact get?_of_add h
    | _ => exact absurd rfl htyped

/-! ## Rows of calls -/

theorem grounded_empty : empty.Grounded := by
  intro index constant hget
  obtain ⟨i, -, hi⟩ := get?_eq_some_iff.1 hget
  simp [empty] at hi

/-- References stay grounded in a row of calls for kinds of constants. -/
theorem grounded_after {pool : ConstantPool} (hpool : pool.Grounded) {calls : List Call}
    (h : ∀ call ∈ calls, call.isTyped = true) : (pool.after calls).Grounded := by
  induction calls generalizing pool with
  | nil => exact hpool
  | cons call calls ih =>
      rw [after_cons]
      apply ih
      · exact (Call.lays (h call List.mem_cons_self)).grounded pool trivial hpool
      · intro call' hcall'
        exact h call' (List.mem_cons_of_mem _ hcall')

/-- Texts stay short in a row of calls for kinds of constants. -/
theorem short_after {pool : ConstantPool} (hpool : pool.Short) {calls : List Call}
    (h : ∀ call ∈ calls, call.isTyped = true) : (pool.after calls).Short := by
  induction calls generalizing pool with
  | nil => exact hpool
  | cons call calls ih =>
      rw [after_cons]
      apply ih
      · exact (Call.lays (h call List.mem_cons_self)).short pool hpool
      · intro call' hcall'
        exact h call' (List.mem_cons_of_mem _ hcall')

theorem short_empty : empty.Short := by
  intro constant hmem
  cases hmem

/-- Constants stay apart, in place and in bounds, whatever calls are made. A pool that was new
and went through a row of calls holds no constant twice, and few enough for its count and every
index to fit their fields. A further call that succeeds leads to what it asked for, then and after
any calls that follow, and made again it gives the same index and changes nothing; one that fails
leaves the constants in front of what it added, and did so for want of room or for the length of a
text. With calls for kinds of constants alone, every constant refers to earlier ones of the right
kinds. -/
theorem calls_on_new_pool (calls : List Call) :
    (empty.after calls).entries.toList.Nodup ∧
    ((empty.after calls).size ≤ 65534 ∧
      (UInt16.ofNat ((empty.after calls).size + 1)).toNat = (empty.after calls).size + 1 ∧
      ∀ i < (empty.after calls).size, (UInt16.ofNat (i + 1)).toNat = i + 1) ∧
    (∀ (call : Call) (index : UInt16) (pool : ConstantPool),
      call.run.run (empty.after calls) = (.ok index, pool) →
        1 ≤ index.toNat ∧ index.toNat ≤ pool.size ∧ ∀ later : List Call,
          call.FoundAt (pool.after later) index ∧
            call.run.run (pool.after later) = (.ok index, pool.after later)) ∧
    (∀ (call : Call) (e : CodegenError) (pool : ConstantPool),
      call.run.run (empty.after calls) = (.error e, pool) →
        IsPrefix (empty.after calls) pool ∧ e = .constantPoolOverflow ∧
          (pool.size = 65534 ∨ call.TooLong) ∧
          ∀ constant, call = .add constant → pool = empty.after calls) ∧
    ((∀ call ∈ calls, call.isTyped = true) → (empty.after calls).Grounded) := by
  have hsize := (empty.after calls).size_le
  refine ⟨nodup_entries _, ⟨hsize, ?_, fun i hi => ?_⟩, ?_, ?_, grounded_after grounded_empty⟩
  · have hcount : (empty.after calls).size + 1 < 65536 := Nat.lt_succ_of_le (Nat.succ_le_succ hsize)
    exact UInt16.toNat_ofNat_of_lt' hcount
  · exact toNat_index (Nat.lt_of_lt_of_le hi hsize)
  · intro call index pool hrun
    have hfound := Call.foundAt hrun
    obtain ⟨constant, hget⟩ := hfound.exists_get?
    obtain ⟨hpos, hle⟩ := index_bounds hget
    refine ⟨hpos, hle, fun later => ?_⟩
    have hlater := isPrefix_after pool later
    refine ⟨hfound.later hlater, ?_⟩
    have hagain := call.steady.again (empty.after calls) index (pool.after later)
    rw [hrun] at hagain
    exact hagain rfl hlater
  · intro call e pool hrun
    have hlater := call.steady.isPrefix (empty.after calls)
    have hfails := call.steady.fails (empty.after calls) e
    rw [hrun] at hlater hfails
    obtain ⟨herror, hcause⟩ := hfails rfl
    refine ⟨hlater, herror, hcause, ?_⟩
    rintro constant rfl
    rcases add_cases constant (empty.after calls) with
      ⟨i, -, hadd⟩ | ⟨-, ⟨-, hadd⟩ | ⟨-, pool', -, hadd⟩⟩
    · cases hrun.symm.trans hadd
    · cases hrun.symm.trans hadd
      rfl
    · cases hrun.symm.trans hadd

/-- Two fields of one class share the class, its name and their descriptor. -/
example : (empty.after [.fieldRef "A" "x" "I", .fieldRef "A" "y" "I"]).size = 9 := by
  decide +kernel

end ConstantPool

end StackCodegen.ClassFile
