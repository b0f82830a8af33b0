import StackCodegen.Proofs.ClassFile.Execution
import StackCodegen.Proofs.ClassFile.PoolCalls
import Mathlib.Data.List.Forall2

/-!
# What interning asks for

A computation on a pool is known by the row of calls that it makes where it succeeds, and by what may
keep it from succeeding. `Asks calls causes Q x` says so of `x`: where `x` succeeds, there was room
for the calls, the pool is what they make of it, and the result satisfies `Q` in every pool that
starts with that one; where `x` fails, it is for one of the causes, or there was no room. It composes
along `bind`, and every call for a kind of constant asks for itself (`Call.asks`).

The look-ups of a reader find what the calls were made of (`text?_of_get?`, `spelling?_of_methodRef`).
-/

set_option autoImplicit false

namespace StackCodegen.ClassFile

namespace ConstantPool

/-! ## Later pools -/

/-- A pool and one that calls for kinds of constants make of it. -/
def LeadsTo (pool later : ConstantPool) : Prop :=
  ∃ calls : List Call, (∀ call ∈ calls, call.isTyped = true) ∧ later = pool.after calls

section LeadsTo

variable {pool mid later : ConstantPool}

theorem LeadsTo.refl (pool : ConstantPool) : LeadsTo pool pool :=
  ⟨[], fun _ hcall => absurd hcall List.not_mem_nil, rfl⟩

theorem LeadsTo.trans (h : LeadsTo pool mid) (h' : LeadsTo mid later) : LeadsTo pool later := by
  obtain ⟨calls, htyped, rfl⟩ := h
  obtain ⟨calls', htyped', rfl⟩ := h'
  refine ⟨calls ++ calls', fun call hcall => ?_, (after_append pool calls calls').symm⟩
  exact (List.mem_append.1 hcall).elim (htyped call) (htyped' call)

theorem LeadsTo.isPrefix (h : LeadsTo pool later) : IsPrefix pool later := by
  obtain ⟨calls, -, rfl⟩ := h
  exact isPrefix_after pool calls

theorem LeadsTo.grounded (h : LeadsTo pool later) (hpool : pool.Grounded) : later.Grounded := by
  obtain ⟨calls, htyped, rfl⟩ := h
  exact grounded_after hpool htyped

theorem LeadsTo.short (h : LeadsTo pool later) (hpool : pool.Short) : later.Short := by
  obtain ⟨calls, htyped, rfl⟩ := h
  exact short_after hpool htyped

end LeadsTo

/-! ## Stored constants -/

/-- The stored form of the constants. -/
def stored (pool : ConstantPool) : StoredPool := pool.entries.toList.map Constant.stored

section Stored

variable {pool : ConstantPool} {index : UInt16}

/-- The stored form of a constant lies where the constant does. -/
theorem get?_stored (pool : ConstantPool) (index : UInt16) :
    pool.stored.get? index = (pool.get? index).map Constant.stored := by
  unfold ConstantPool.get? StoredPool.get?
  split
  · rfl
  · rw [stored, List.getElem?_map, Array.getElem?_toList]

theorem stored_get? {constant : Constant} (h : pool.get? index = some constant) :
    pool.stored.get? index = some constant.stored := by
  rw [get?_stored, h, Option.map_some]

theorem text?_of_get? {text : String} (h : pool.get? index = some (.utf8 text)) :
    pool.stored.text? index = some (ModifiedUtf8.encode text) := by
  rw [StoredPool.text?, stored_get? h]
  rfl

theorem isText_of_get? {text : String} (h : pool.get? index = some (.utf8 text)) :
    pool.stored.isText text index = true := by
  rw [StoredPool.isText, stored_get? h]
  exact beq_self_eq_true _

theorem integer?_of_get? {value : Int32} (h : pool.get? index = some (.integer value)) :
    pool.stored.integer? index = some value := by
  rw [StoredPool.integer?, stored_get? h]
  rfl

/-- An integer that is read is one that was added. -/
theorem get?_of_integer? {value : Int32} (h : pool.stored.integer? index = some value) :
    pool.get? index = some (.integer value) := by
  rw [StoredPool.integer?, get?_stored] at h
  cases hget : pool.get? index with
  | none =>
      rw [hget] at h
      cases h
  | some constant =>
      rw [hget] at h
      cases constant with
      | integer value' =>
          cases h
          rfl
      | _ => cases h

theorem className?_of_holdsClass {name : String} (h : pool.HoldsClass index name) :
    pool.stored.className? index = some (ModifiedUtf8.encode name) := by
  obtain ⟨text, hindex, hname⟩ := h
  rw [StoredPool.className?, stored_get? hindex]
  exact text?_of_get? hname

theorem nameAndType?_of_holdsMember {name descriptor : String}
    (h : pool.HoldsMember index name descriptor) :
    pool.stored.nameAndType? index =
      some (ModifiedUtf8.encode name, ModifiedUtf8.encode descriptor) := by
  obtain ⟨text, text', hindex, hname, hdescriptor⟩ := h
  rw [StoredPool.nameAndType?, stored_get? hindex]
  simp only [Constant.stored, text?_of_get? hname, text?_of_get? hdescriptor]

theorem spelling?_of_fieldRef {owner name descriptor : String}
    (h : (Call.fieldRef owner name descriptor).FoundAt pool index) :
    pool.stored.spelling? index = some (.ofTexts true owner name descriptor) := by
  obtain ⟨class', member, hindex, howner, hmember⟩ := h
  rw [StoredPool.spelling?, stored_get? hindex]
  simp only [Constant.stored, StoredPool.spellingOf?, className?_of_holdsClass howner,
    nameAndType?_of_holdsMember hmember]
  rfl

theorem spelling?_of_methodRef {owner name descriptor : String}
    (h : (Call.methodRef owner name descriptor).FoundAt pool index) :
    pool.stored.spelling? index = some (.ofTexts false owner name descriptor) := by
  obtain ⟨class', member, hindex, howner, hmember⟩ := h
  rw [StoredPool.spelling?, stored_get? hindex]
  simp only [Constant.stored, StoredPool.spellingOf?, className?_of_holdsClass howner,
    nameAndType?_of_holdsMember hmember]
  rfl

end Stored

/-! ## Interning -/

/-- A computation that succeeds makes a row of calls, and its result satisfies `Q` from then on; one
that fails does so for one of the causes, or for want of room for the calls. -/
structure Asks {α : Type} (calls : List Call) (causes : CodegenError → Prop)
    (Q : ConstantPool → α → Prop) (x : Interning α) : Prop where
  leadsTo : ∀ pool, LeadsTo pool (x.run pool).2
  succeeds : ∀ pool a pool', x.run pool = (.ok a, pool') →
    pool.RoomFor calls ∧ pool' = pool.after calls ∧ ∀ later, IsPrefix pool' later → Q later a
  fails : ∀ pool e, (x.run pool).1 = .error e →
    causes e ∨ e = .constantPoolOverflow ∧ ¬ pool.RoomFor calls

section Asks

variable {α β : Type} {calls calls' : List Call} {causes : CodegenError → Prop}
  {Q : ConstantPool → α → Prop} {S : ConstantPool → β → Prop}

theorem Asks.pure {a : α} (h : ∀ pool, Q pool a) :
    Asks [] causes Q (Pure.pure a : Interning α) := by
  refine ⟨fun pool => LeadsTo.refl pool, fun pool a' pool' hrun => ?_, fun pool e herror => ?_⟩
  · cases hrun
    exact ⟨trivial, rfl, fun later _ => h later⟩
  · cases herror

/-- A computation that always fails need not say what it asks for. -/
theorem Asks.throw {e : CodegenError} (h : causes e) :
    Asks calls causes Q (MonadExcept.throw e : Interning α) := by
  refine ⟨fun pool => LeadsTo.refl pool, fun pool a' pool' hrun => ?_, fun pool e' herror => ?_⟩
  · cases hrun
  · cases herror
    exact .inl h

/-- What the first computation established is at hand for the rest. -/
theorem Asks.bind {x : Interning α} {k : α → Interning β} (hx : Asks calls causes Q x)
    (hk : ∀ a, Asks calls' causes (fun pool b => Q pool a → S pool b) (k a)) :
    Asks (calls ++ calls') causes S (x >>= k) := by
  refine ⟨fun pool => ?_, fun pool b pool' hrun => ?_, fun pool e herror => ?_⟩
  · have hfirst := hx.leadsTo pool
    rw [run_bind]
    rcases hrun : x.run pool with ⟨e | a, mid⟩
    · rw [hrun] at hfirst
      exact hfirst
    · rw [hrun] at hfirst
      exact hfirst.trans ((hk a).leadsTo mid)
  · -- what the first result satisfies, it satisfies in the pool of the second one too
    obtain ⟨a, mid, hfirst, hrest⟩ := run_bind_eq_ok hrun
    obtain ⟨hroom, rfl, hQ⟩ := hx.succeeds pool a mid hfirst
    obtain ⟨hroom', rfl, hS⟩ := (hk a).succeeds _ b pool' hrest
    refine ⟨roomFor_append.2 ⟨hroom, hroom'⟩, (after_append pool calls calls').symm, ?_⟩
    intro later hlater
    exact hS later hlater (hQ later ((isPrefix_after _ calls').trans hlater))
  · have hfirst := hx.fails pool
    rw [run_bind] at herror
    rcases hrun : x.run pool with ⟨e' | a, mid⟩
    · rw [hrun] at herror hfirst
      cases herror
      refine (hfirst e rfl).imp_right fun hfull => ⟨hfull.1, fun hroom => ?_⟩
      exact hfull.2 (roomFor_append.1 hroom).1
    · rw [hrun] at herror
      obtain ⟨-, rfl, -⟩ := hx.succeeds pool a mid hrun
      refine ((hk a).fails _ e herror).imp_right fun hfull => ⟨hfull.1, fun hroom => ?_⟩
      exact hfull.2 (roomFor_append.1 hroom).2

/-- A computation only grows the pool. -/
theorem Asks.isPrefix {x : Interning α} (hx : Asks calls causes Q x) {pool pool' : ConstantPool}
    {result : Except CodegenError α} (hrun : x.run pool = (result, pool')) :
    IsPrefix pool pool' := by
  have hleads := hx.leadsTo pool
  rw [hrun] at hleads
  exact hleads.isPrefix

theorem Asks.causes_mono {causes' : CodegenError → Prop} {x : Interning α}
    (hx : Asks calls causes Q x) (h : ∀ e, causes e → causes' e) : Asks calls causes' Q x :=
  ⟨hx.leadsTo, hx.succeeds, fun pool e herror => (hx.fails pool e herror).imp_left (h e)⟩

/-- The last step of a computation, which makes no call. -/
theorem Asks.map {x : Interning α} {f : α → β} (hx : Asks calls causes Q x)
    (h : ∀ pool a, Q pool a → S pool (f a)) :
    Asks calls causes S (do let a ← x; return f a) := by
  rw [← List.append_nil calls]
  exact hx.bind fun a => Asks.pure fun pool => h pool a

/-- Results of a row of computations, one for each element. -/
theorem Asks.mapM {f : α → Interning β} {callsOf : α → List Call} {R : ConstantPool → α → β → Prop}
    (hf : ∀ a, Asks (callsOf a) causes (fun pool b => R pool a b) (f a)) (elements : List α) :
    Asks (elements.flatMap callsOf) causes
      (fun pool results => List.Forall₂ (R pool) elements results) (elements.mapM f) := by
  induction elements with
  | nil =>
      rw [List.mapM_nil]
      exact Asks.pure fun _ => .nil
  | cons a elements ih =>
      rw [List.mapM_cons, List.flatMap_cons]
      exact (hf a).bind fun b => ih.map fun pool results hresults hb => .cons hb hresults

/-- A call for a kind of constant asks for itself, and finds what it asks for. -/
theorem Call.asks (call : Call) (h : call.isTyped = true) :
    Asks [call] causes (fun pool index => call.FoundAt pool index) call.run := by
  have htyped : ∀ call' ∈ [call], call'.isTyped = true := fun call' hcall' =>
    List.mem_singleton.1 hcall' ▸ h
  refine ⟨fun pool => ⟨[call], htyped, rfl⟩, fun pool index pool' hrun => ?_, fun pool e herror => ?_⟩
  · refine ⟨⟨⟨index, by rw [hrun]⟩, trivial⟩, ?_, fun later hle => (foundAt hrun).later hle⟩
    rw [after_cons, hrun, after_nil]
  · refine .inr ⟨(call.steady.fails pool e herror).1, fun hroom => ?_⟩
    obtain ⟨⟨index, hindex⟩, -⟩ := hroom
    rw [herror] at hindex
    cases hindex

theorem asks_utf8 (text : String) :
    Asks [.utf8 text] causes (fun pool index => pool.get? index = some (.utf8 text)) (utf8 text) :=
  Call.asks (.utf8 text) rfl

theorem asks_integer (value : Int32) :
    Asks [.integer value] causes (fun pool index => pool.get? index = some (.integer value))
      (integer value) :=
  Call.asks (.integer value) rfl

theorem asks_classRef (name : String) :
    Asks [.classRef name] causes (fun pool index => pool.HoldsClass index name) (classRef name) :=
  Call.asks (.classRef name) rfl

theorem asks_fieldRef (owner name descriptor : String) :
    Asks [.fieldRef owner name descriptor] causes
      (fun pool index => (Call.fieldRef owner name descriptor).FoundAt pool index)
      (fieldRef owner name descriptor) :=
  Call.asks (.fieldRef owner name descriptor) rfl

theorem asks_methodRef (owner name descriptor : String) :
    Asks [.methodRef owner name descriptor] causes
      (fun pool index => (Call.methodRef owner name descriptor).FoundAt pool index)
      (methodRef owner name descriptor) :=
  Call.asks (.methodRef owner name descriptor) rfl

end Asks

end ConstantPool

open ConstantPool

/-- A member is found under its spelling. -/
theorem member?_of_spelling? {pool : StoredPool} {index : UInt16} {m : Member}
    (h : pool.spelling? index = some m.spelling) : pool.member? index = some m := by
  rw [StoredPool.member?, h]
  cases m <;> decide +kernel

end StackCodegen.ClassFile
