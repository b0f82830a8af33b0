import StackCodegen.Managed.Slots
import StackCodegen.Proofs.Program.Variables

/-!
# Slots tell variables apart

The slots of a body's variables are the numbers from 2 on, in order of the names, and no number is
too large for its 16-bit word (`laid_of_allocateSlots`). So looking a name up gives a slot within
the declared bounds (`Laid.slot_bounds`), and two names with one slot are the same
(`Laid.slot_injective`).
-/

set_option autoImplicit false

namespace StackCodegen.Managed

/-- Names with the slots from 2 on, in order. -/
structure Laid (slots : List (String × UInt16)) : Prop where
  nodup : (slots.map Prod.fst).Nodup
  length_le : firstVariableSlot + slots.length ≤ 65535
  slot_eq : ∀ (i : Nat) (entry : String × UInt16), slots[i]? = some entry →
    entry.2.toNat = firstVariableSlot + i

/-- Names with the slots from the first one on, in order. -/
def numbered (names : List String) : List (String × UInt16) :=
  names.zipIdx.map fun (name, i) => (name, .ofNat (firstVariableSlot + i))

/-- The variables of a body have slots if they and the reserved slots fit a 16-bit number. -/
theorem allocateSlots_eq_ok_iff {body : Body} {slots : List (String × UInt16)} :
    allocateSlots body = .ok slots ↔
      firstVariableSlot + body.variableNames.length ≤ 65535 ∧
        slots = numbered body.variableNames := by
  unfold allocateSlots
  dsimp only
  split
  next hmany =>
      constructor
      · exact nofun
      · intro h
        exact absurd h.1 (Nat.not_le.2 hmany)
  next hfew =>
      rw [Except.ok.injEq, eq_comm]
      exact ⟨fun h => ⟨Nat.le_of_not_lt hfew, h⟩, fun h => h.2⟩

/-- Slots are refused for their number alone. -/
theorem allocateSlots_eq_error_iff {body : Body} {e : CodegenError} :
    allocateSlots body = .error e ↔
      65535 < firstVariableSlot + body.variableNames.length ∧
        e = .tooManyLocals (firstVariableSlot + body.variableNames.length) := by
  unfold allocateSlots
  dsimp only
  split
  next hmany =>
      rw [Except.error.injEq, eq_comm]
      exact ⟨fun h => ⟨hmany, h⟩, fun h => h.2⟩
  next hfew =>
      constructor
      · exact nofun
      · intro h
        exact absurd h.1 hfew

theorem length_numbered (names : List String) : (numbered names).length = names.length := by
  simp [numbered]

theorem map_fst_numbered (names : List String) : (numbered names).map Prod.fst = names := by
  rw [numbered, List.map_map]
  exact List.zipIdx_map_fst 0 names

/-- Slots do not wrap around. -/
theorem toNat_numbered {names : List String} (h : firstVariableSlot + names.length ≤ 65535)
    {i : Nat} {entry : String × UInt16} (hentry : (numbered names)[i]? = some entry) :
    entry.2.toNat = firstVariableSlot + i := by
  have hlt := (List.getElem?_eq_some_iff.1 hentry).1
  rw [length_numbered] at hlt
  rw [numbered, List.getElem?_map, List.getElem?_zipIdx, List.getElem?_eq_getElem hlt] at hentry
  cases hentry
  rw [Nat.zero_add]
  exact UInt16.toNat_ofNat_of_lt' (show firstVariableSlot + i < 65536 by omega)

/-- Slots are allocated to the variables of the body. -/
theorem fst_of_allocateSlots {body : Body} {slots : List (String × UInt16)}
    (h : allocateSlots body = .ok slots) : slots.map Prod.fst = body.variableNames := by
  rw [(allocateSlots_eq_ok_iff.1 h).2, map_fst_numbered]

/-- Allocated slots are laid out in order. -/
theorem laid_of_allocateSlots {body : Body} {slots : List (String × UInt16)}
    (h : allocateSlots body = .ok slots) : Laid slots := by
  obtain ⟨hfew, rfl⟩ := allocateSlots_eq_ok_iff.1 h
  refine ⟨?_, ?_, fun _ _ hentry => toNat_numbered hfew hentry⟩
  · rw [map_fst_numbered]
    exact body.nodup_variableNames
  · rw [length_numbered]
    exact hfew

namespace Laid

variable {slots : List (String × UInt16)}

theorem getElem?_ofList (h : Laid slots) {name : String} {slot : UInt16} :
    (Std.TreeMap.ofList slots)[name]? = some slot ↔ (name, slot) ∈ slots :=
  StackCodegen.getElem?_ofList h.nodup

/-- A variable has one slot. -/
theorem slot_unique (h : Laid slots) {name : String} {slot slot' : UInt16}
    (hmem : (name, slot) ∈ slots) (hmem' : (name, slot') ∈ slots) : slot = slot' := by
  have heq := (h.getElem?_ofList.2 hmem).symm.trans (h.getElem?_ofList.2 hmem')
  exact Option.some.inj heq

/-- A variable's slot lies behind those of the argument and the reader. -/
theorem slot_bounds (h : Laid slots) {name : String} {slot : UInt16}
    (hmem : (name, slot) ∈ slots) :
    2 ≤ slot.toNat ∧ slot.toNat < firstVariableSlot + slots.length := by
  obtain ⟨i, hi⟩ := List.getElem?_of_mem hmem
  have hlt := (List.getElem?_eq_some_iff.1 hi).1
  have heq := h.slot_eq i _ hi
  unfold firstVariableSlot at heq ⊢
  dsimp only at heq
  omega

/-- Different variables have different slots. -/
theorem slot_injective (h : Laid slots) {name name' : String} {slot : UInt16}
    (hmem : (name, slot) ∈ slots) (hmem' : (name', slot) ∈ slots) : name = name' := by
  obtain ⟨i, hi⟩ := List.getElem?_of_mem hmem
  obtain ⟨j, hj⟩ := List.getElem?_of_mem hmem'
  have hij : i = j := by
    have h1 := h.slot_eq i _ hi
    have h2 := h.slot_eq j _ hj
    dsimp only at h1 h2
    omega
  rw [hij, hj] at hi
  cases hi
  rfl

/-- The slots are the numbers from 2 on. -/
theorem map_toNat (h : Laid slots) :
    slots.map (fun entry => entry.2.toNat) = List.range' firstVariableSlot slots.length := by
  apply List.ext_getElem
  · simp
  · intro i hi _
    rw [List.length_map] at hi
    have heq := h.slot_eq i slots[i] (List.getElem?_eq_getElem hi)
    simpa using heq

end Laid

end StackCodegen.Managed
