import StackCodegen.Artifact
import StackCodegen.Proofs.Managed.Simulation

/-!
# Compiled programs mean what the reference machine runs

The class file of a program, read and executed, prints what the entry routine writes on the same
input. It returns where the routine ends, and throws where the routine divides by zero or reads past
the input, in the code of the statement that does. Runs that the reference machine cuts short for
their number of steps are left open; there is no other way for the routine to stop.
-/

set_option autoImplicit false

namespace StackCodegen.Managed

open ClassFile

/-- A method that returns with these integers printed. -/
def ReturnsPrinting (e : Executable) (input output : List Int32) : Prop :=
  ∃ f g, e.Reaches input f ∧ e.step f = .returned g ∧ g.output = output

/-- A method that throws in the code of a statement with these integers printed. -/
def ThrowsPrinting (e : Executable) (labelOffsets : List Nat) (index : Nat)
    (input output : List Int32) : Prop :=
  ∃ f, e.Reaches input f ∧ e.step f = .thrown f ∧ InBlock labelOffsets index f.pc ∧
    f.output = output

/-- What the bytes of a program do on an input: they return where the entry routine ends, and throw
at the statement that stopped it, unless that was the step limit. -/
structure Preserves (program : Program) (entry : Function) (e : Executable)
    (labelOffsets : List Nat) (input : List Int32) : Prop where
  returns : ∀ output, program.run input = .ok output → ReturnsPrinting e input output
  throws : ∀ m fault, Machine.runEntry .standard program (.ofInput input) = (m, .error fault) →
    (∀ limit, fault ≠ .stepLimitExceeded limit) →
      ∃ last, Machine.StopsIn .standard program entry (.ofInput input) last (m, .error fault) ∧
        Throws last.active.next fault ∧
        ThrowsPrinting e labelOffsets last.active.next input m.output.toList

/-- The method of a routine preserves every run of it. -/
theorem Compiled.preserves {options : Options} {c : ClassFile} {lowered : Lowered}
    {mc : MethodCode} {e : Executable} {layout : Layout} {flow : Flow} {types : Nat → FrameType}
    {opening : List Instruction} {blocks : List (List Instruction)} {program : Program}
    {entry : Function} (hentry : program.entry? = some entry)
    (h : Compiled options entry.body c lowered mc e layout flow types opening blocks)
    (input : List Int32) : Preserves program entry e mc.labelOffsets input := by
  have hrun : Machine.runEntry .standard program (.ofInput input) =
      Machine.runFunction .standard program entry (.ofInput input) := by
    rw [Machine.runEntry, hentry]
  have hstops := Machine.exists_stopsIn .standard program entry (.ofInput input) (by decide)
  obtain ⟨last, hstops⟩ := hstops
  rw [← hrun] at hstops
  have hlast := hstops
  obtain ⟨first, hfirst, hgoes, hstep⟩ := hlast
  obtain ⟨f, hf, hmeets⟩ := h.meets_start input rfl hfirst
  obtain ⟨g, hg, hmeets'⟩ := h.meets_of_goes hf hmeets hgoes
  have hfollowed := h.followed_of_meets .standard program hg hmeets'
  rw [hstep] at hfollowed
  cases hresult : Machine.runEntry .standard program (.ofInput input) with
  | mk m outcome =>
      rw [hresult] at hfollowed hstops
      cases outcome with
      | ok value =>
          obtain ⟨g', g'', hsteps, hreturned, houtput⟩ := hfollowed
          refine ⟨?_, ?_⟩
          · intro output hok
            rw [Program.run, hresult, outputOf] at hok
            cases hok
            exact ⟨g', g'', hg.trans hsteps, hreturned, houtput⟩
          · intro m' fault hfault
            cases hresult.symm.trans hfault
      | error fault =>
          refine ⟨?_, ?_⟩
          · intro output hok
            rw [Program.run, hresult, outputOf] at hok
            cases hok
          · intro m' fault' hfault hlimit
            cases hresult.symm.trans hfault
            rcases hfollowed with ⟨limit, hstopped⟩ | ⟨hthrows, g', hsteps, hthrown, hin, houtput⟩
            · exact absurd hstopped (hlimit limit)
            · exact ⟨last, hstops, hthrows, g', hg.trans hsteps, hthrown, hin, houtput⟩

/-- Class files preserve meaning. The class file of a program holds a main method, and on every
input the method prints what the entry routine writes, and returns or throws where the routine ends
or fails. -/
theorem classFile_preserves_runs {program : Program} {settings : Settings} {bytes : Bytes}
    (h : program.compile .classFile settings = .ok (.classFile bytes)) :
    ∃ entry assembled e,
      program.entry? = some entry ∧
        assembleMain settings.managed.className entry.body = .ok assembled ∧
        loaded? bytes = some e ∧
        ∀ input, Preserves program entry e assembled.main.labelOffsets input := by
  unfold Program.compile at h
  dsimp only at h
  cases hentry : program.entry? with
  | none =>
      rw [hentry] at h
      cases h
  | some entry =>
      rw [hentry] at h
      obtain ⟨bytes', hcompile, hbytes⟩ := map_eq_ok.1 h
      cases hbytes
      obtain ⟨c, hclass, rfl⟩ := map_eq_ok.1 hcompile
      obtain ⟨lowered, mc, e, layout, flow, types, opening, blocks, hcompiled⟩ :=
        compiled_of_compileClass hclass
      refine ⟨entry, ⟨lowered.classFile, lowered.slots, mc⟩, e, rfl, ?_, hcompiled.loaded_eq,
        hcompiled.preserves hentry⟩
      exact bind_eq_ok.2 ⟨lowered, hcompiled.lowered_eq,
        bind_eq_ok.2 ⟨mc, hcompiled.assembled_eq, rfl⟩⟩

/-- A routine that divides 12 by what it reads. -/
def quotientRoutine : Body :=
  #[.push 12, .call (.intrinsic .read), .binary .div, .store "q", .load "q",
    .call (.intrinsic .write)]

/-- The class file of a routine that divides 12 by what it reads prints 2 on the input 5, and throws
in the division on the input 0. -/
theorem quotient_runs_preserved :
    ∃ bytes entry assembled e,
      (Program.ofRoutine quotientRoutine).compile .classFile
          { Settings.standard with debugInfo := false } = .ok (.classFile bytes) ∧
        assembleMain "Program" (Function.body entry) = .ok assembled ∧ loaded? bytes = some e ∧
        ReturnsPrinting e [5] [2] ∧
        ThrowsPrinting e assembled.main.labelOffsets 2 [0] [] := by
  obtain ⟨bytes, hbytes⟩ := exists_ok_of_toBool
    (by decide +kernel : (compile ⟨"Program", false⟩ quotientRoutine).toBool = true)
  have hcompile : (Program.ofRoutine quotientRoutine).compile .classFile
      { Settings.standard with debugInfo := false } = .ok (.classFile bytes) :=
    map_eq_ok.2 ⟨bytes, hbytes, rfl⟩
  obtain ⟨entry, assembled, e, -, hassembled, hloaded, hpreserves⟩ :=
    classFile_preserves_runs hcompile
  refine ⟨bytes, entry, assembled, e, hcompile, hassembled, hloaded, ?_, ?_⟩
  · exact (hpreserves [5]).returns [2] (by decide +kernel)
  · have hfault : (Machine.runEntry .standard (Program.ofRoutine quotientRoutine)
        (.ofInput [0])).2 = .error (.divisionByZero "main" 2) := by decide +kernel
    have houtput : (Machine.runEntry .standard (Program.ofRoutine quotientRoutine)
        (.ofInput [0])).1.output.toList = [] := by decide +kernel
    obtain ⟨last, -, hthrows, hprinting⟩ :=
      (hpreserves [0]).throws _ _ (Prod.ext rfl hfault) (by simp)
    rw [houtput] at hprinting
    rw [show last.active.next = 2 from hthrows.symm] at hprinting
    exact hprinting

end StackCodegen.Managed
