import StackCodegen.Native.Lowering
import StackCodegen.Proofs.Program.Variables
import Mathlib.Algebra.Group.Int.Defs
import Mathlib.Algebra.GroupWithZero.Nat

/-!
# Words of variables

Every variable of a function has a word of its own, at a multiple of four bytes from `%ebp`: a
parameter above the return address, in the word of the first place it is declared at, and a local
below the saved `%ebp` (`offset?_cases`). Words of different variables do not overlap
(`offset?_apart`), and none of them overlaps the two words at `%ebp` (`offset?_bounds`). Where
parameters and variables are few, the offsets are 32-bit integers (`isSmall.fits`).
-/

set_option autoImplicit false

namespace StackCodegen

/-- The frame of a function. -/
def Function.frame (f : Function) : Native.Frame := Native.Frame.layout f.declaration f.body

/-- Number of parameters, as a function is called. -/
def Function.arity (f : Function) : Nat := f.declaration.arity

/-- Recogniser for the variables of a body that are no parameters of its function. -/
def Function.isLocal (f : Function) (name : String) : Prop := name ∉ f.declaration.parameters

namespace Native.Frame

/-! ## Names -/

theorem mem_parameterOffsets {d : Declaration} {name : String} {offset : Int} :
    (name, offset) ∈ parameterOffsets d ↔
      ∃ i : Nat, FirstAt d.parameters name i ∧ offset = 8 + 4 * i := by
  rw [parameterOffsets, List.mem_map]
  constructor
  · rintro ⟨⟨name', i⟩, hmem, heq⟩
    cases heq
    exact ⟨i, mem_distinctBy_zipIdx_iff.1 hmem, rfl⟩
  · rintro ⟨i, hi, rfl⟩
    exact ⟨(name, i), mem_distinctBy_zipIdx_iff.2 hi, rfl⟩

/-- The parameters of a frame, each named once. -/
theorem map_fst_parameterOffsets (d : Declaration) :
    (parameterOffsets d).map Prod.fst = (distinctBy Prod.fst d.parameters.zipIdx).map Prod.fst := by
  rw [parameterOffsets, List.map_map]
  rfl

theorem mem_parameters_of_offset {d : Declaration} {name : String}
    (h : name ∈ (parameterOffsets d).map Prod.fst) : name ∈ d.parameters := by
  obtain ⟨⟨name', offset⟩, hmem, rfl⟩ := List.mem_map.1 h
  obtain ⟨i, hi, -⟩ := mem_parameterOffsets.1 hmem
  exact List.mem_of_getElem? hi.1

/-- The names of the locals, in order. -/
def localNames (d : Declaration) (body : Body) : List String :=
  body.variableNames.filter fun name => !(Std.TreeSet.ofList d.parameters).contains name

theorem mem_localNames {d : Declaration} {body : Body} {name : String} :
    name ∈ localNames d body ↔ name ∈ body.variableNames ∧ name ∉ d.parameters := by
  rw [localNames, List.mem_filter, Std.TreeSet.contains_ofList, List.contains_eq_mem]
  simp

/-- There are no more locals than variables. -/
theorem length_localNames_le (d : Declaration) (body : Body) :
    (localNames d body).length ≤ body.variableNames.length :=
  List.length_filter_le _ _

theorem localOffsets_eq (d : Declaration) (body : Body) :
    localOffsets d body = (localNames d body).zipIdx.map fun (name, i) =>
      (name, -(wordSize * (i + 1))) := rfl

theorem mem_localOffsets {d : Declaration} {body : Body} {name : String} {offset : Int} :
    (name, offset) ∈ localOffsets d body ↔
      ∃ i : Nat, (localNames d body)[i]? = some name ∧ offset = -(4 * (i + 1)) := by
  rw [localOffsets_eq, List.mem_map]
  constructor
  · rintro ⟨⟨name', i⟩, hmem, heq⟩
    cases heq
    exact ⟨i, List.mem_zipIdx_iff_getElem?.1 hmem, rfl⟩
  · rintro ⟨i, hi, rfl⟩
    exact ⟨(name, i), List.mem_zipIdx_iff_getElem?.2 hi, rfl⟩

theorem map_fst_localOffsets (d : Declaration) (body : Body) :
    (localOffsets d body).map Prod.fst = localNames d body := by
  rw [localOffsets_eq, List.map_map]
  exact List.zipIdx_map_fst 0 _

/-- A frame names each variable once. -/
theorem nodup_names (d : Declaration) (body : Body) :
    ((parameterOffsets d ++ localOffsets d body).map Prod.fst).Nodup := by
  rw [List.map_append, List.nodup_append, map_fst_localOffsets]
  refine ⟨?_, body.nodup_variableNames.filter _, ?_⟩
  · rw [map_fst_parameterOffsets]
    exact nodup_distinctBy Prod.fst _
  · rintro name hparameter name' hlocal rfl
    exact (mem_localNames.1 hlocal).2 (mem_parameters_of_offset hparameter)

end Native.Frame

/-! ## Offsets -/

namespace Function

open Native.Frame

variable {f : Function} {name name' : String} {offset offset' : Int}

theorem mem_of_offset? :
    f.frame.offset? name = some offset ↔
      (name, offset) ∈ parameterOffsets f.declaration ++ localOffsets f.declaration f.body :=
  getElem?_ofList (nodup_names f.declaration f.body)

/-- A variable is a parameter above the return address or a local below the saved `%ebp`. -/
theorem offset?_cases (h : f.frame.offset? name = some offset) :
    (∃ i : Nat, FirstAt f.declaration.parameters name i ∧ offset = 8 + 4 * i) ∨
      f.isLocal name ∧ ∃ i : Nat, (localNames f.declaration f.body)[i]? = some name ∧
        offset = -(4 * (i + 1)) := by
  rcases List.mem_append.1 (mem_of_offset?.1 h) with hmem | hmem
  · exact .inl (mem_parameterOffsets.1 hmem)
  · obtain ⟨i, hi, hoffset⟩ := mem_localOffsets.1 hmem
    exact .inr ⟨(mem_localNames.1 (List.mem_of_getElem? hi)).2, i, hi, hoffset⟩

/-- The word of a parameter is that of the first place it is declared at. -/
theorem offset?_parameter {i : Nat} (h : FirstAt f.declaration.parameters name i) :
    f.frame.offset? name = some (8 + 4 * (i : Int)) :=
  mem_of_offset?.2 (List.mem_append_left _ (mem_parameterOffsets.2 ⟨i, h, rfl⟩))

/-- A frame has words for the parameters and for the variables of the body, and for nothing
else. -/
theorem exists_offset?_iff :
    (∃ offset, f.frame.offset? name = some offset) ↔
      name ∈ f.declaration.parameters ∨ name ∈ f.body.variableNames := by
  constructor
  · rintro ⟨offset, h⟩
    rcases offset?_cases h with ⟨i, hi, -⟩ | ⟨-, i, hi, -⟩
    · exact .inl (List.mem_of_getElem? hi.1)
    · exact .inr (mem_localNames.1 (List.mem_of_getElem? hi)).1
  · intro h
    by_cases hparameter : name ∈ f.declaration.parameters
    · obtain ⟨i, hi⟩ := exists_firstAt hparameter
      exact ⟨_, offset?_parameter hi⟩
    · have hlocal := mem_localNames.2 ⟨h.resolve_left hparameter, hparameter⟩
      obtain ⟨i, hi⟩ := List.getElem?_of_mem hlocal
      exact ⟨_, mem_of_offset?.2 (List.mem_append_right _ (mem_localOffsets.2 ⟨i, hi, rfl⟩))⟩

/-- Words of different variables do not overlap. -/
theorem offset?_apart (h : f.frame.offset? name = some offset)
    (h' : f.frame.offset? name' = some offset') (hne : name ≠ name') :
    offset + 4 ≤ offset' ∨ offset' + 4 ≤ offset := by
  rcases offset?_cases h with ⟨i, hi, rfl⟩ | ⟨-, i, hi, rfl⟩ <;>
    rcases offset?_cases h' with ⟨j, hj, rfl⟩ | ⟨-, j, hj, rfl⟩
  · have hij : i ≠ j := by
      rintro rfl
      exact hne (Option.some.inj (hi.1.symm.trans hj.1))
    omega
  · omega
  · omega
  · have hij : i ≠ j := by
      rintro rfl
      exact hne (Option.some.inj (hi.symm.trans hj))
    omega

/-- Bytes of the locals. -/
theorem localsSize_eq (f : Function) :
    f.frame.localsSize = 4 * ((localNames f.declaration f.body).length : Int) := by
  rw [Native.Frame.localsSize, frame, layout, localOffsets_eq, List.length_map, List.length_zipIdx]
  rfl

/-- The words of variables lie between the end of the locals and that of the arguments, and
leave the two words at `%ebp` alone. -/
theorem offset?_bounds (h : f.frame.offset? name = some offset) :
    -f.frame.localsSize ≤ offset ∧
      (offset + 4 ≤ 0 ∨ 8 ≤ offset ∧ offset + 4 ≤ 8 + 4 * (f.arity : Int)) := by
  rw [localsSize_eq]
  rcases offset?_cases h with ⟨i, hi, rfl⟩ | ⟨-, i, hi, rfl⟩
  · have hlt : i < f.arity := (List.getElem?_eq_some_iff.1 hi.1).1
    omega
  · have hlt := (List.getElem?_eq_some_iff.1 hi).1
    omega

theorem localsSize_nonneg (f : Function) : 0 ≤ f.frame.localsSize := by
  rw [localsSize_eq]
  omega

/-- Recogniser for functions with so few parameters and variables that their frames are laid out in
32 bits. -/
def isSmall (f : Function) : Prop := f.arity < 2 ^ 28 ∧ f.body.variableNames.length < 2 ^ 28

instance (f : Function) : Decidable f.isSmall := inferInstanceAs (Decidable (_ ∧ _))

/-- Offsets and the bytes of the locals are 32-bit words in the frame of a small function. -/
theorem isSmall.fits (h : f.isSmall) :
    f.frame.localsSize < 2 ^ 31 ∧ ∀ name offset, f.frame.offset? name = some offset →
      -2 ^ 31 ≤ offset ∧ offset + 4 ≤ 2 ^ 31 := by
  obtain ⟨harity, hvariables⟩ := h
  have hfew := length_localNames_le f.declaration f.body
  have hsize : f.frame.localsSize < 2 ^ 31 := by
    rw [localsSize_eq]
    omega
  refine ⟨hsize, fun name offset hoffset => ?_⟩
  obtain ⟨hlow, hhigh⟩ := offset?_bounds hoffset
  omega

end Function

end StackCodegen
