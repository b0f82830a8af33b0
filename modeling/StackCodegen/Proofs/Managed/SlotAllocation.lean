import StackCodegen.Proofs.Managed.CompiledClass
import StackCodegen.Proofs.Program.FirstUse

/-!
# Allocation of slots

The variables of a body have the slots from 2 on, in the order of their first use. Slots run out
where there would be more than 65535 of them, and nothing else is refused
(`allocateSlots_eq_error_iff`). What follows a body leaves its slots as they are
(`slots_isPrefix_of_append`), and the main method of the class declares as many slots as there are
with the reserved ones (`exists_loaded_maxLocals`).

Main statement: `slots_allocated`.
-/

set_option autoImplicit false

namespace StackCodegen.Managed

open ClassFile

/-! ## Longer bodies and declared bounds -/

/-- The slots of more names start with those of fewer. -/
theorem numbered_isPrefix {names names' : List String} (h : names <+: names') :
    numbered names <+: numbered names' := by
  obtain ⟨rest, rfl⟩ := h
  rw [numbered, numbered, List.zipIdx_append, List.map_append]
  exact List.prefix_append _ _

/-- A variable keeps its slot when statements follow. -/
theorem slots_isPrefix_of_append {body more : Body} {slots slots' : List (String × UInt16)}
    (h : allocateSlots body = .ok slots) (h' : allocateSlots (body ++ more) = .ok slots') :
    slots <+: slots' := by
  rw [(allocateSlots_eq_ok_iff.1 h).2, (allocateSlots_eq_ok_iff.1 h').2]
  exact numbered_isPrefix (body.variableNames_isPrefix_append more)

/-- The main method of a class has one slot for each variable, behind the reserved ones. -/
theorem exists_loaded_maxLocals {options : Options} {body : Body} {c : ClassFile}
    (h : compileClass options body = .ok c) :
    ∃ e slots, loaded? c.bytes = some e ∧ allocateSlots body = .ok slots ∧
      e.maxLocals.toNat = firstVariableSlot + slots.length := by
  obtain ⟨lowered, m, e, layout, flow, types, opening, blocks, hcompiled⟩ :=
    compiled_of_compileClass h
  obtain ⟨prepared, hprepared, -⟩ := lowerClass_eq_ok hcompiled.lowered_eq
  refine ⟨e, lowered.slots, hcompiled.loaded_eq, slots_of_prepare hprepared, ?_⟩
  have hle := hcompiled.laid.length_le
  rw [hcompiled.checked.maxLocals_eq, mainContext]
  exact UInt16.toNat_ofNat_of_lt' (by simp only [UInt16.size]; omega)

/-! ## Allocated slots -/

/-- What the slots of a body are. -/
structure Allocation (body : Body) (slots : List (String × UInt16)) : Prop where
  names_eq : slots.map Prod.fst = body.variableNames
  /-- Slots are numbered from 2 on. -/
  numbers_eq : slots.map (fun entry => entry.2.toNat) = List.range' 2 slots.length
  injective : ∀ name name' slot, (name, slot) ∈ slots → (name', slot) ∈ slots → name = name'
  unreserved : ∀ name slot, (name, slot) ∈ slots → slot ≠ argumentSlot ∧ slot ≠ readerSlot
  /-- The main method of every class of the body, as its bytes hold it, has room for the slots. -/
  declared : ∀ options c, compileClass options body = .ok c →
    ∃ e, loaded? c.bytes = some e ∧ ∀ name slot, (name, slot) ∈ slots → slot < e.maxLocals
  /-- Variables keep their slots when statements follow. -/
  kept : ∀ more slots', allocateSlots (body ++ more) = .ok slots' → slots <+: slots'

theorem allocation_of_allocateSlots {body : Body} {slots : List (String × UInt16)}
    (h : allocateSlots body = .ok slots) : Allocation body slots := by
  have hlaid := laid_of_allocateSlots h
  constructor
  case names_eq => exact fst_of_allocateSlots h
  case numbers_eq => exact hlaid.map_toNat
  case injective =>
    intro name name' slot hmem hmem'
    exact hlaid.slot_injective hmem hmem'
  case unreserved =>
    -- variables come behind the slots of the argument and the reader
    intro name slot hmem
    obtain ⟨hge, -⟩ := hlaid.slot_bounds hmem
    constructor
    · rintro rfl
      exact absurd hge (by decide)
    · rintro rfl
      exact absurd hge (by decide)
  case declared =>
    intro options c hc
    obtain ⟨e, slots', he, hslots', hmax⟩ := exists_loaded_maxLocals hc
    obtain rfl : slots = slots' := Except.ok.inj (h.symm.trans hslots')
    refine ⟨e, he, ?_⟩
    intro name slot hmem
    rw [UInt16.lt_iff_toNat_lt, hmax]
    exact (hlaid.slot_bounds hmem).2
  case kept =>
    intro more slots' h'
    exact slots_isPrefix_of_append h h'

/-- Every variable has a slot of its own. A body lists the variables it uses, each once and by
ascending first use. Slots are refused exactly where there are too many, and otherwise they are
numbered in that order behind the reserved ones. -/
theorem slots_allocated (body : Body) :
    body.variableNames.Nodup ∧ (∀ name, name ∈ body.variableNames ↔ body.Uses name) ∧
      (body.variableNames.Pairwise fun a b => body.firstUse a < body.firstUse b) ∧
      (∀ e, allocateSlots body = .error e ↔ 65535 < 2 + body.variableNames.length ∧
        e = .tooManyLocals (2 + body.variableNames.length)) ∧
      (2 + body.variableNames.length ≤ 65535 →
        ∃ slots, allocateSlots body = .ok slots ∧ Allocation body slots) := by
  refine ⟨body.nodup_variableNames, fun name => Body.mem_variableNames_iff,
    body.pairwise_firstUse, fun e => allocateSlots_eq_error_iff, ?_⟩
  intro hfew
  have hslots := allocateSlots_eq_ok_iff.2 ⟨hfew, rfl⟩
  exact ⟨_, hslots, allocation_of_allocateSlots hslots⟩

/-- A body that stores one variable, loads another one and goes back to the first. -/
def interleavedUses : Body := #[.push 3, .store "b", .load "a", .store "b", .load "b"]

/-- Its variables have the slots 2 and 3, below what its class declares, and keep them where a third
variable follows. -/
theorem interleavedUses_allocated :
    ∃ slots slots' c e, allocateSlots interleavedUses = .ok slots ∧
      slots = [("b", 2), ("a", 3)] ∧
      allocateSlots (interleavedUses ++ #[.store "c"]) = .ok slots' ∧ slots <+: slots' ∧
      compileClass ⟨"Program", false⟩ interleavedUses = .ok c ∧ loaded? c.bytes = some e ∧
      3 < e.maxLocals := by
  obtain ⟨-, -, -, -, hall⟩ := slots_allocated interleavedUses
  obtain ⟨slots, hslots, hallocation⟩ := hall (by decide +kernel)
  obtain ⟨slots', hslots'⟩ := exists_ok_of_toBool
    (by decide +kernel : (allocateSlots (interleavedUses ++ #[.store "c"])).toBool = true)
  obtain ⟨c, hc⟩ := exists_ok_of_toBool
    (by decide +kernel : (compileClass ⟨"Program", false⟩ interleavedUses).toBool = true)
  obtain ⟨e, he, hmax⟩ := hallocation.declared _ _ hc
  have heq : slots = [("b", 2), ("a", 3)] := by
    have hrun : allocateSlots interleavedUses = .ok [("b", 2), ("a", 3)] := by decide +kernel
    exact Except.ok.inj (hslots.symm.trans hrun)
  refine ⟨slots, slots', c, e, hslots, heq, hslots', hallocation.kept _ _ hslots', hc, he, ?_⟩
  exact hmax "a" 3 (by simp [heq])

end StackCodegen.Managed
