import StackCodegen.Proofs.Native.Calls
import StackCodegen.Proofs.Program.FirstUse

/-!
# Layout of a frame

The words of a function lie at multiples of four bytes from `%ebp`: the locals below it, in the
order of their first use, and the parameters above the two words that a call needs for itself, the
saved `%ebp` and the return address. `Frame.LaidOut` says so of the variables of a declaration and a
body. The locals fill what the prologue reserves to the last byte, and offsets of up to `2 ^ 28`
parameters and variables fit 32-bit words.

Main statement: `frame_laid_out`.
-/

set_option autoImplicit false

namespace StackCodegen.Native

open StackCodegen.Function (localsSize_eq offset?_bounds offset?_apart offset?_parameter)

namespace Frame

/-! ## Locals -/

section Locals

variable {declaration : Declaration} {body : Body}

/-- The locals are the variables that are no parameters. -/
theorem mem_localNames_iff {name : String} :
    name ∈ localNames declaration body ↔ body.Uses name ∧ name ∉ declaration.parameters := by
  rw [mem_localNames, Body.mem_variableNames_iff]

/-- The locals have the offsets -4, -8 and so on, one after the other. -/
theorem map_snd_localOffsets (declaration : Declaration) (body : Body) :
    (localOffsets declaration body).map Prod.snd =
      (List.range (localNames declaration body).length).map fun (i : Nat) =>
        -(4 * ((i : Int) + 1)) := by
  apply List.ext_getElem
  · simp [localOffsets_eq]
  · intro i _ _
    simp [localOffsets_eq, wordSize]

theorem length_localOffsets (declaration : Declaration) (body : Body) :
    (localOffsets declaration body).length = (localNames declaration body).length := by
  simp [localOffsets_eq]

/-- A local lies within the bytes of the locals. -/
theorem bounds_of_mem_localOffsets {name : String} {offset : Int}
    (h : (name, offset) ∈ localOffsets declaration body) :
    -(4 * ((localNames declaration body).length : Int)) ≤ offset ∧ offset + 4 ≤ 0 := by
  obtain ⟨i, hi, rfl⟩ := mem_localOffsets.1 h
  have hlt := (List.getElem?_eq_some_iff.1 hi).1
  omega

end Locals

/-! ## Frames -/

/-- Where the variables of a function are. -/
structure LaidOut (declaration : Declaration) (body : Body) (frame : Frame) : Prop where
  /-- The parameters and the variables that the body uses have words, and nothing else has one. -/
  defined_iff : ∀ name, (∃ offset, frame.offset? name = some offset) ↔
    name ∈ declaration.parameters ∨ body.Uses name
  /-- The words of different variables do not overlap. -/
  apart : ∀ name name' offset offset', name ≠ name' → frame.offset? name = some offset →
    frame.offset? name' = some offset' → offset + 4 ≤ offset' ∨ offset' + 4 ≤ offset
  /-- A parameter has the word of the first place it is declared at, used or not. -/
  parameter : ∀ name (i : Nat), FirstAt declaration.parameters name i →
    frame.offset? name = some (8 + 4 * (i : Int))
  local_iff : ∀ name, name ∈ frame.locals.map Prod.fst ↔
    body.Uses name ∧ name ∉ declaration.parameters
  local_order : (frame.locals.map Prod.fst).Pairwise fun a b => body.firstUse a < body.firstUse b
  local_offsets : frame.locals.map Prod.snd =
    (List.range frame.locals.length).map fun (i : Nat) => -(4 * ((i : Int) + 1))
  local_offset : ∀ name offset, (name, offset) ∈ frame.locals → frame.offset? name = some offset
  /-- The bytes of the locals hold them. -/
  local_inside : frame.localsSize = 4 * (frame.locals.length : Int) ∧
    ∀ name offset, (name, offset) ∈ frame.locals →
      -frame.localsSize ≤ offset ∧ offset + 4 ≤ 0
  /-- The prologue saves `%ebp` at the base of the frame and reserves the bytes of the locals below
  it. -/
  reserved : ∀ (x : Executable) (c : Cpu) (base : Int), c.registers .esp = .address (base + 4) →
    ∃ d, x.runLine (prologue frame) c = some d ∧ d.registers .ebp = .address base ∧
      d.registers .esp = .address (base - frame.localsSize) ∧
      d.memory = c.memory.store base (c.registers .ebp)
  /-- No variable overlaps the saved `%ebp` at 0 or the return address at 4. -/
  unshared : ∀ name offset, frame.offset? name = some offset → offset + 4 ≤ 0 ∨ 8 ≤ offset
  /-- Offsets and the bytes of the locals are 32-bit words. -/
  fits : frame.localsSize < 2 ^ 31 ∧ ∀ name offset, frame.offset? name = some offset →
    -2 ^ 31 ≤ offset ∧ offset + 4 ≤ 2 ^ 31

end Frame

/-- A frame has a word of its own for every variable, the locals in the bytes that the prologue
reserves and the parameters above the return address. -/
theorem frame_laid_out {declaration : Declaration} {body : Body}
    (hparameters : declaration.parameters.length < 2 ^ 28)
    (hvariables : body.variableNames.length < 2 ^ 28) :
    (Frame.layout declaration body).LaidOut declaration body := by
  -- the frame is that of the function with this declaration and body
  let f : Function := ⟨declaration, body⟩
  have hlocals : (Frame.layout declaration body).locals = Frame.localOffsets declaration body := rfl
  have hsize : (Frame.layout declaration body).localsSize =
      4 * ((Frame.localNames declaration body).length : Int) := localsSize_eq f
  constructor
  case defined_iff =>
    intro name
    rw [← Body.mem_variableNames_iff]
    exact Function.exists_offset?_iff (f := f)
  case apart =>
    intro name name' offset offset' hne h h'
    exact offset?_apart (f := f) h h' hne
  case parameter =>
    intro name i hi
    exact offset?_parameter (f := f) hi
  case local_iff =>
    intro name
    rw [hlocals, Frame.map_fst_localOffsets, Frame.mem_localNames_iff]
  case local_order =>
    -- what is left of the variables without the parameters keeps its order
    rw [hlocals, Frame.map_fst_localOffsets]
    exact body.pairwise_firstUse.filter _
  case local_offsets =>
    rw [hlocals, Frame.map_snd_localOffsets, Frame.length_localOffsets]
  case local_offset =>
    intro name offset hmem
    exact (Function.mem_of_offset? (f := f)).2 (List.mem_append_right _ hmem)
  case local_inside =>
    constructor
    · rw [hsize, hlocals, Frame.length_localOffsets]
    · intro name offset hmem
      rw [hsize]
      exact Frame.bounds_of_mem_localOffsets hmem
  case reserved =>
    intro x c base hesp
    obtain ⟨d, hrun, hdesp, hdebp, hmemory, -, -⟩ :=
      Executable.runLine_prologue (x := x) (f := f) hesp
    exact ⟨d, hrun, hdebp, hdesp, hmemory⟩
  case unshared =>
    -- locals lie below the saved register, and parameters above the return address
    intro name offset h
    obtain ⟨-, hbounds⟩ := offset?_bounds (f := f) h
    exact hbounds.imp id And.left
  case fits => exact Function.isSmall.fits (f := f) ⟨hparameters, hvariables⟩

/-- A declaration that repeats a parameter. -/
def repeatedDeclaration : Declaration :=
  ⟨"f", ["a", "b", "a"]⟩

/-- A body that uses its locals in between its parameters, and one of them twice. -/
def mixedBody : Body :=
  #[.load "b", .store "x", .load "a", .store "y", .load "x"]

theorem mixed_frame_laid_out :
    repeatedDeclaration.parameters.length < 2 ^ 28 ∧ mixedBody.variableNames.length < 2 ^ 28 ∧
      (Frame.layout repeatedDeclaration mixedBody).LaidOut repeatedDeclaration mixedBody ∧
      (Frame.layout repeatedDeclaration mixedBody).offset? "a" = some 8 ∧
      (Frame.layout repeatedDeclaration mixedBody).offset? "b" = some 12 ∧
      (Frame.layout repeatedDeclaration mixedBody).offset? "y" = some (-8) ∧
      (Frame.layout repeatedDeclaration mixedBody).locals = [("x", -4), ("y", -8)] := by
  have hparameters : repeatedDeclaration.parameters.length < 2 ^ 28 := by decide
  have hvariables : mixedBody.variableNames = ["b", "x", "a", "y"] := by decide +kernel
  have hfew : mixedBody.variableNames.length < 2 ^ 28 := by simp [hvariables]
  have hlaid := frame_laid_out hparameters hfew
  have hlocals : (Frame.layout repeatedDeclaration mixedBody).locals = [("x", -4), ("y", -8)] := by
    decide +kernel
  refine ⟨hparameters, hfew, hlaid, ?_, ?_, ?_, hlocals⟩
  · exact hlaid.parameter "a" 0 ⟨rfl, by simp⟩
  · exact hlaid.parameter "b" 1 ⟨rfl, by simp [repeatedDeclaration]⟩
  · exact hlaid.local_offset "y" (-8) (by simp [hlocals])

end StackCodegen.Native
