import StackCodegen.Artifact
import StackCodegen.Proofs.Native.Acceptance
import StackCodegen.Proofs.Native.Renaming
import StackCodegen.Proofs.Program.Order

/-!
# The order of functions is immaterial

A call is lowered from the declaration it names alone; the rest of the program decides only whether
it is lowered at all. So a function has one block of its own (`ownBlock`), which it has in every
program that lowers it, and an accepted program is the row of these blocks (`compile_eq_blocks`).
Whether a program is accepted is a matter of which functions it has, not of their order.

Main statement: programs of the same functions run alike, have the same class file, and are made of
the same native blocks (`function_order_immaterial`).
-/

set_option autoImplicit false

namespace StackCodegen

namespace Native

variable {platform : Platform} {program : Program} {f : Function}

/-! ## Blocks without a program -/

/-- The code of a statement, what it calls taken to be declared. -/
def ownCode (platform : Platform) (f : Function) (index : Nat) :
    Statement → Except CodegenError (List Instruction)
  | .call (.function declaration) =>
    .ok (callSequence (platform.symbol declaration.name) declaration.arity true)
  | statement => lowerStatement platform .empty f f.frame.table index statement

/-- The block of a function, all that it calls taken to be declared. -/
def ownBlock (platform : Platform) (f : Function) : Except CodegenError (List Item) := do
  let statements ← f.body.toList.zipIdx.mapM fun (statement, index) => do
    let code ← ownCode platform f index statement
    return .label (statementLabel f.name index) (some statement.text) :: code.map .code
  return [.directive (".globl " ++ platform.symbol f.name), .label (platform.symbol f.name) none] ++
    (prologue f.frame).map .code ++ statements.flatten ++ closing f

/-- The text of that block. -/
def blockText (platform : Platform) (f : Function) : String :=
  match ownBlock platform f with
  | .ok items => Listing.text (items.map Item.line)
  | .error _ => ""

/-- A statement has the same code in every program that lowers it. -/
theorem ownCode_of_lowerStatement {index : Nat} {statement : Statement} {code : List Instruction}
    (h : lowerStatement platform program f f.frame.table index statement = .ok code) :
    ownCode platform f index statement = .ok code := by
  cases statement with
  | call callee =>
      cases callee with
      | intrinsic service => exact h
      | function declaration =>
          obtain ⟨g, -, -, rfl⟩ := lowerCall_function_eq_ok h
          rfl
  | _ => exact h

/-- A function has the same block in every program that lowers it. -/
theorem ownBlock_of_lowerFunction {items : List Item}
    (h : lowerFunction platform program f = .ok items) : ownBlock platform f = .ok items := by
  rw [lowerFunction_eq] at h
  obtain ⟨parts, hparts, h⟩ := bind_eq_ok.1 h
  cases h
  have hstep : ∀ entry entry' part, entry = entry' →
      statementItems platform program f entry = .ok part →
        ∃ part', (do
          let code ← ownCode platform f entry'.2 entry'.1
          return Item.label (statementLabel f.name entry'.2) (some entry'.1.text) ::
            code.map .code : Except CodegenError (List Item)) = .ok part' ∧ id part' = id part := by
    rintro ⟨statement, index⟩ _ part rfl hpart
    obtain ⟨code, hcode, hpart⟩ := bind_eq_ok.1 hpart
    cases hpart
    exact ⟨_, bind_eq_ok.2 ⟨code, ownCode_of_lowerStatement hcode, rfl⟩, rfl⟩
  -- statement by statement, without the program as with it
  obtain ⟨parts', hparts', hsame⟩ :=
    exists_mapM_eq_ok id (List.forall₂_same.2 fun _ _ => rfl) hstep hparts
  rw [List.map_id, List.map_id] at hsame
  exact bind_eq_ok.2 ⟨parts', hparts', by rw [hsame]; rfl⟩

theorem blockText_of_lowerFunction {items : List Item}
    (h : lowerFunction platform program f = .ok items) :
    blockText platform f = Listing.text (items.map Item.line) := by
  rw [blockText, ownBlock_of_lowerFunction h]

/-! ## Rows of blocks -/

theorem text_append (lines lines' : Listing) :
    Listing.text (lines ++ lines') = Listing.text lines ++ Listing.text lines' :=
  String.toList_inj.1 (by
    rw [String.toList_append, toList_text, toList_text, toList_text, List.flatMap_append])

/-- The text of a row of blocks is the row of their texts. -/
theorem text_flatten (blocks : List (List Item)) :
    Listing.text (blocks.flatten.map Item.line) =
      String.join (blocks.map fun items => Listing.text (items.map Item.line)) := by
  induction blocks with
  | nil => rfl
  | cons items blocks ih =>
      rw [List.flatten_cons, List.map_append, text_append, ih, List.map_cons, String.join_cons]

/-- The texts of the blocks that the functions of a program are lowered to are their own. -/
theorem blockTexts_of_lowerFunctions {functions : List Function} {blocks : List (List Item)}
    (h : functions.mapM (lowerFunction platform program) = .ok blocks) :
    blocks.map (fun items => Listing.text (items.map Item.line)) =
      functions.map (blockText platform) := by
  induction functions generalizing blocks with
  | nil =>
      cases h
      rfl
  | cons f functions ih =>
      rw [List.mapM_cons] at h
      obtain ⟨items, hitems, h⟩ := bind_eq_ok.1 h
      obtain ⟨rest, hrest, h⟩ := bind_eq_ok.1 h
      cases h
      rw [List.map_cons, List.map_cons, ih hrest, blockText_of_lowerFunction hitems]

/-- An accepted program is the section directive and the block of each function, in order. -/
theorem compile_eq_blocks {text : String} (h : compile platform program = .ok text) :
    text = ".text\n" ++ String.join (program.functions.map (blockText platform)) := by
  obtain ⟨items, hitems, rfl⟩ := code_of_compile h
  unfold compileProgram at hitems
  split at hitems
  · cases hitems
  next =>
      obtain ⟨blocks, hblocks, hitems⟩ := bind_eq_ok.1 hitems
      cases hitems
      rw [← blockTexts_of_lowerFunctions hblocks, ← text_flatten]
      exact text_append [.directive ".text"] _

/-! ## Programs of the same functions -/

section Perm

variable {p q : Program} (h : p.functions.Perm q.functions)
include h

theorem clashes_iff_of_perm : Clashes platform p f ↔ Clashes platform q f := by
  simp only [Clashes, h.mem_iff]

theorem resolved_iff_of_perm {length : Nat} {statement : Statement} :
    statement.Resolved p length ↔ statement.Resolved q length := by
  cases statement with
  | call callee =>
      cases callee with
      | intrinsic service => exact Iff.rfl
      | function declaration =>
          change (∃ f, p.function? declaration.name = some f ∧
            f.declaration.arity = declaration.arity) ↔ _
          rw [Program.function?_eq_of_perm h]
          exact Iff.rfl
  | _ => exact Iff.rfl

/-- A program is accepted for its functions, in whatever order they are. -/
theorem exists_text_of_perm {text : String} (htext : compile platform p = .ok text) :
    ∃ text', compile platform q = .ok text' := by
  obtain ⟨items, hitems, -⟩ := code_of_compile htext
  have hfree := symbolClash?_eq_none_iff.1 (blocks_of_compileProgram hitems).1
  rw [exists_ok_iff]
  intro e he
  -- an error blames a function, and that function is in `p` as well
  rcases compile_eq_error_iff.1 he with ⟨hfunctions, -, htaken⟩ |
    ⟨-, front, f, back, hfunctions, -, hfirst⟩
  · have hmem := h.mem_iff.2 (hfunctions ▸ List.mem_append_right _ List.mem_cons_self)
    exact hfree _ hmem ((clashes_iff_of_perm h).2 htaken)
  · have hmem := h.mem_iff.2 (hfunctions ▸ List.mem_append_right _ List.mem_cons_self)
    refine not_resolved_of_firstOffenceIn hfirst fun index statement hstatement => ?_
    exact (resolved_iff_of_perm h).1 (resolved_of_compile htext f hmem index statement hstatement)

end Perm

end Native

namespace Program

/-! ## Artifacts -/

/-- A native artifact is the text of an accepted program. -/
theorem compile_assembly_eq_ok {p : Program} {settings : Settings} {artifact : Artifact} :
    p.compile .assembly settings = .ok artifact ↔
      ∃ text, Native.compile settings.platform p = .ok text ∧ Artifact.assembly text = artifact :=
  map_eq_ok

/-- The order of functions is immaterial. Programs with the same body for the same declarations
are reorderings of each other. They serve every request on every machine alike, faults included, so
they write the same for every input; they have the same class file, or the same refusal of one. The
native target accepts both or neither, and what it makes of either is the section directive and the
block of each function in its program's order, where the block is made from the function alone. -/
theorem function_order_immaterial {p q : Program} (h : p.same q = true) :
    p.functions.Perm q.functions ∧
    (∀ limits m (request : Machine.Request), request.run limits p m = request.run limits q m) ∧
    (∀ input, p.run input = q.run input) ∧
    (∀ settings, p.compile .classFile settings = q.compile .classFile settings) ∧
    ∀ settings,
      ((∃ artifact, p.compile .assembly settings = .ok artifact) ↔
        ∃ artifact, q.compile .assembly settings = .ok artifact) ∧
      ∀ r ∈ [p, q], ∀ artifact, r.compile .assembly settings = .ok artifact →
        artifact = .assembly
          (".text\n" ++ String.join (r.functions.map (Native.blockText settings.platform))) := by
  have hperm := same_iff_perm.1 h
  have hruns := fun limits m request => Machine.run_eq_of_perm limits hperm m request
  refine ⟨hperm, hruns, fun input => ?_, fun settings => ?_, fun settings => ⟨?_, ?_⟩⟩
  · exact congrArg outputOf (hruns .standard (.ofInput input) .entry)
  · rw [compile, compile, entry?_eq_of_perm hperm]
  · simp only [compile_assembly_eq_ok]
    constructor
    · rintro ⟨_, text, htext, -⟩
      obtain ⟨text', htext'⟩ := Native.exists_text_of_perm hperm htext
      exact ⟨_, text', htext', rfl⟩
    · rintro ⟨_, text, htext, -⟩
      obtain ⟨text', htext'⟩ := Native.exists_text_of_perm hperm.symm htext
      exact ⟨_, text', htext', rfl⟩
  · rintro r - artifact hartifact
    obtain ⟨text, htext, rfl⟩ := compile_assembly_eq_ok.1 hartifact
    rw [Native.compile_eq_blocks htext]

/-- A function that halves its parameter. -/
def half : Function := ⟨⟨"half", ["n"]⟩, #[.load "n", .push 2, .binary .div, .returnTop]⟩

/-- An entry routine that writes half of what it reads. -/
def writeHalf : Function :=
  ⟨⟨entryName, []⟩, #[.call (.intrinsic .read), .call (.function ⟨"half", ["n"]⟩),
    .call (.intrinsic .write), .returnZero]⟩

/-- The program of the two, the called one first. -/
def calleeFirst : Program := ⟨[half, writeHalf], by decide⟩

/-- The program of the two, the entry routine first. -/
def entryFirst : Program := ⟨[writeHalf, half], by decide⟩

/-- The two programs are the same in different orders; what one does and gives, the other does. -/
theorem halves_in_either_order :
    calleeFirst.same entryFirst = true ∧ calleeFirst ≠ entryFirst ∧
    calleeFirst.run [9] = .ok [4] ∧ entryFirst.run [9] = .ok [4] ∧
    (∃ artifact, calleeFirst.compile .assembly .standard = .ok artifact) ∧
    ∃ artifact, entryFirst.compile .assembly .standard = .ok artifact := by
  obtain ⟨-, -, hrun, -, hassembly⟩ :=
    function_order_immaterial (show calleeFirst.same entryFirst = true by decide)
  have hwritten : calleeFirst.run [9] = .ok [4] := by decide +kernel
  have haccepted : ∃ artifact, calleeFirst.compile .assembly .standard = .ok artifact :=
    exists_ok_of_toBool (by decide +kernel)
  exact ⟨by decide, by decide, hwritten, (hrun [9]).symm.trans hwritten, haccepted,
    (hassembly .standard).1.1 haccepted⟩

end Program

end StackCodegen
