import StackCodegen.Proofs.Native.Preservation
import StackCodegen.Proofs.Program.Resolution

/-!
# References of compiled programs

The lowering of a statement looks up what the statement refers to: a jump needs its target inside
the body, a call of a function the declared number of parameters. It is done for every statement of
every function, so a program that is compiled is resolved (`resolved_of_compile`), and its runs find
every reference in whatever function they come to (`compiled_entry_faults`).
-/

set_option autoImplicit false

namespace StackCodegen.Native

variable {platform : Platform} {program : Program}

/-- A lowered statement is resolved. -/
theorem resolved_of_lowerStatement {f : Function} {offsets : Std.TreeMap String Int} {k : Nat}
    {s : Statement} {code : List Instruction}
    (h : lowerStatement platform program f offsets k s = .ok code) :
    s.Resolved program f.body.size := by
  -- a jump and a call are lowered behind a look-up; other statements refer to nothing
  cases s with
  | jump target | jumpIfZero target =>
      obtain ⟨label, hlabel, -⟩ := bind_eq_ok.1 h
      exact (jumpLabel_eq_ok hlabel).1
  | call callee =>
      cases callee with
      | intrinsic service => trivial
      | function declaration =>
          obtain ⟨g, hg, harity, -⟩ := lowerCall_function_eq_ok h
          exact ⟨g, hg, harity⟩
  | prepareArguments => cases h
  | _ => trivial

/-- A compiled program is resolved, in the functions that no run enters as well. -/
theorem resolved_of_compile {text : String} (h : compile platform program = .ok text) :
    program.Resolved := by
  obtain ⟨items, hitems, -⟩ := code_of_compile h
  -- every function has its block, whether it is called or not
  intro f hf index s hs
  obtain ⟨_, _, _, parts, -, hparts, -⟩ := exists_block hitems hf
  obtain ⟨code, hcode, -⟩ := hparts.block_eq index s hs
  exact resolved_of_lowerStatement hcode

/-- What the native target accepts has no unresolved references at run time. On every machine,
with any input and any limits, a fault of the entry, in whatever depth of calls, is an underflow, a
division by zero, the end of the input, or one of the limits. -/
theorem compiled_entry_faults {text : String} (h : compile platform program = .ok text)
    {entry : Function} (hentry : program.entry? = some entry) (limits : Limits) (m : Machine)
    {fault : Fault} (hfault : (Machine.runEntry limits program m).2 = .error fault) :
    fault.IsDynamic limits := by
  rw [Machine.runEntry, hentry] at hfault
  exact Machine.isDynamic_of_resolved (resolved_of_compile h)
    (List.mem_of_find?_eq_some (function?_of_entry_eq hentry)) hfault

/-- A function that calls itself until its argument is 0, and then takes off a word that is not
there. -/
def descend : Function :=
  ⟨⟨"descend", ["n"]⟩, #[.load "n", .jumpIfZero 7, .load "n", .push 1, .binary .sub,
    .call (.function ⟨"descend", ["n"]⟩), .returnTop, .pop]⟩

/-- A routine that descends from the quotient of 6 by what it reads. -/
def descendEntry : Function :=
  ⟨⟨"main", []⟩, #[.push 6, .call (.intrinsic .read), .binary .div,
    .call (.function descend.declaration)]⟩

/-- The program of the two. -/
def descendProgram : Program := ⟨[descendEntry, descend], by decide⟩

/-- The program is compiled, and none of the faults that remain is missing. -/
theorem descend_entry_faults :
    (∃ text, compile .win descendProgram = .ok text) ∧
      (∃ entry, descendProgram.entry? = some entry) ∧
      (∀ input fault, (Machine.runEntry ⟨4, 30⟩ descendProgram (.ofInput input)).2 = .error fault →
        fault.IsDynamic ⟨4, 30⟩) ∧
      [[3], [0], [], [1]].map (fun input =>
          (Machine.runEntry ⟨4, 30⟩ descendProgram (.ofInput input)).2) =
        [.error (.stackUnderflow "descend" 7), .error (.divisionByZero "main" 2),
          .error .inputExhausted, .error (.callDepthExceeded 4)] ∧
      (Machine.runEntry ⟨9, 30⟩ descendProgram (.ofInput [1])).2 =
        .error (.stepLimitExceeded 30) := by
  obtain ⟨text, htext⟩ := exists_ok_of_toBool
    (by decide +kernel : (compile .win descendProgram).toBool = true)
  have hentry : descendProgram.entry? = some descendEntry := rfl
  refine ⟨⟨text, htext⟩, ⟨descendEntry, hentry⟩, fun input fault hfault => ?_, by decide +kernel,
    by decide +kernel⟩
  exact compiled_entry_faults htext hentry ⟨4, 30⟩ (.ofInput input) hfault

end StackCodegen.Native
