import StackCodegen.Proofs.ClassFile.Console
import StackCodegen.Proofs.Machine.Requests
import StackCodegen.Proofs.Machine.Stops
import StackCodegen.Proofs.Managed.Preservation

/-!
# Compiled programs on a text

The class file of a program reads standard input line by line, each line with `parseInt`; a run is
given the integers of the same text at once, where blanks around an integer and lines of blanks do
not count. So the two part at the first line that a `READ` takes and that is empty or has blanks at
an end: there the class file throws. Up to that line it prints what the run writes, and where no
such line is taken it prints all of it.

The compiled code parses every line that it reads (`Compiled.parsesLines`), so the lines of the text
can be replaced by the integers up to the first line that is none, and what the class file does on
those is known.

Main statement: class files follow runs on a text (`classFile_follows_text`).
-/

set_option autoImplicit false

namespace StackCodegen.Managed

open ClassFile
open InputText (readerLines Padded frontIntegers)

/-! ## Every line is parsed -/

section Emission

variable {pool : StoredPool} {slots : List (String × UInt16)} {length : Nat}

theorem member?_useOf {m : Member} {index : UInt16} (h : pool.member? index = some m) :
    (useOf m index).member? pool = some m :=
  Option.filter_eq_some_iff.2 ⟨h, decide_eq_true rfl⟩

theorem readsParsed_of_emits {statement : Statement} {next mid : Nat} {block : List Instruction}
    (h : Emits pool slots length statement next block mid) : ReadsParsed pool block := by
  cases h with
  | read hline hparse =>
      refine ⟨by simp, fun _ => ⟨_, rfl, member?_useOf hparse⟩, ?_, trivial⟩
      simp [member?_useOf hparse]
  | write hout hprint =>
      refine readsParsed_of_ne ?_
      simp [member?_useOf hout, member?_useOf hprint]
  | push hpushes =>
      refine readsParsed_of_ne ?_
      cases hpushes <;> simp
  | comparison _ =>
      refine readsParsed_of_ne ?_
      simp [comparison]
  | _ =>
      refine readsParsed_of_ne ?_
      simp

theorem readsParsed_of_emitsAll {index next last : Nat} {statements : List Statement}
    {blocks : List (List Instruction)}
    (h : EmitsAll pool slots length index statements next blocks last) :
    ReadsParsed pool blocks.flatten := by
  induction h with
  | nil => trivial
  | cons head _ ih =>
      rw [List.flatten_cons, List.cons_append]
      exact ⟨by simp, (readsParsed_of_emits head).append ih⟩

/-- Emitted code parses every line that it reads. -/
theorem readsParsed_of_emitted {body : Body} {opening : List Instruction}
    {blocks : List (List Instruction)} {code : SymbolicCode}
    (h : Emitted pool slots body opening blocks code) :
    ReadsParsed pool code.instructions.toList := by
  have hopening : ReadsParsed pool opening := by
    refine readsParsed_of_ne ?_
    obtain ⟨-, -, hstdin, hinitDecoder, hinitReader⟩ := h.opens
    simp [member?_useOf hstdin, member?_useOf hinitDecoder, member?_useOf hinitReader]
  have hzeroing : ReadsParsed pool (zeroVariables slots) := by
    refine readsParsed_of_ne fun insn hinsn => ?_
    obtain ⟨entry, -, hinsn⟩ := List.mem_flatMap.1 hinsn
    simp only [List.mem_cons, List.not_mem_nil, or_false] at hinsn
    rcases hinsn with rfl | rfl <;> simp
  have hclosing : ReadsParsed pool [.bind body.size, .plain .returnVoid] := by
    refine readsParsed_of_ne ?_
    simp
  rw [h.code_eq]
  exact ((hopening.append hzeroing).append (readsParsed_of_emitsAll h.blocks_emitted)).append
    hclosing

end Emission

/-! ## Runs on a text -/

/-- What the method of a program does on a text, next to a run on the integers of the text. -/
structure FollowsText (program : Program) (entry : Function) (e : Executable)
    (labelOffsets : List Nat) (text : String) (values output : List Int32) : Prop where
  /-- Where no line that is taken is padded, the method prints what the run writes. -/
  prints : (∀ line ∈ (readerLines text.toList).take (program.valuesTaken values), ¬ Padded line) →
    e.Prints (readerLines text.toList) output
  /-- Where a line that is taken is padded, the method throws at the `READ` that takes the first
  such line, with what a run on the integers in front of it writes. -/
  throws : ∀ front line rest, readerLines text.toList = front ++ line :: rest →
    (∀ line ∈ front, ¬ Padded line) → Padded line → front.length < program.valuesTaken values →
      ∃ m last pc,
        Machine.runEntry .standard program (.ofInput (values.take front.length)) =
            (m, .error .inputExhausted) ∧
          Machine.StopsIn .standard program entry (.ofInput (values.take front.length)) last
            (m, .error .inputExhausted) ∧
          entry.body[last.active.next]? = some (.call (.intrinsic .read)) ∧
          InBlock labelOffsets last.active.next pc ∧
          e.ThrowsAt (readerLines text.toList) pc m.output.toList

section Compiled

variable {options : Options} {body : Body} {c : ClassFile} {lowered : Lowered} {mc : MethodCode}
  {e : Executable} {layout : Layout} {flow : Flow} {types : Nat → FrameType}
  {opening : List Instruction} {blocks : List (List Instruction)}

/-- A compiled method parses every line that it reads. -/
theorem Compiled.parsesLines
    (h : Compiled options body c lowered mc e layout flow types opening blocks) :
    e.ParsesLines := by
  refine h.checked.parsesLines ?_
  rw [h.constants_eq]
  exact readsParsed_of_emitted h.emitted

/-- The method of a routine follows every run on a text. -/
theorem Compiled.followsText {program : Program} {entry : Function}
    (hentry : program.entry? = some entry)
    (h : Compiled options entry.body c lowered mc e layout flow types opening blocks)
    {text : String} {values output : List Int32} (hparse : InputText.parse text = .ok values)
    (hrun : program.run values = .ok output) :
    FollowsText program entry e mc.labelOffsets text values output := by
  have hoffers := InputText.offers_of_parse hparse
  have hfront := hoffers.isPrefix_frontIntegers
  constructor
  · intro hplain
    have hlength := hoffers.le_length_frontIntegers (Nat.sub_le _ _) hplain
    obtain ⟨f, g, hf, hreturned, houtput⟩ := (h.preserves hentry _).returns output
      (Program.run_of_valuesTaken_le hrun hfront hlength)
    rw [← houtput]
    exact Executable.prints_of_returned h.parsesLines hf hreturned
  · intro front line rest hlines hplain hpadded htaken
    obtain ⟨hvalues, hlength⟩ : frontIntegers (readerLines text.toList) = values.take front.length ∧
        (frontIntegers (readerLines text.toList)).length = front.length := by
      rw [hlines] at hoffers ⊢
      exact hoffers.frontIntegers_eq hplain hpadded
    rw [hvalues] at hfront
    have hnone : (Machine.runEntry .standard program (.ofInput (values.take front.length))).2 =
        .error .inputExhausted :=
      Program.run_of_lt_valuesTaken hfront (by rwa [← hvalues, hlength])
    obtain ⟨last, hstops, -, f, hf, hthrown, hin, houtput⟩ :=
      (h.preserves hentry _).throws _ _ (Prod.ext rfl hnone) (by simp)
    refine ⟨_, last, f.pc, Prod.ext rfl hnone, hstops, ?_, hin, ?_⟩
    · obtain ⟨first, hfirst, hgoes, hstep⟩ := hstops
      obtain ⟨g, hg, hmeets⟩ := h.meets_start _ rfl hfirst
      obtain ⟨g', -, hlast⟩ := h.meets_of_goes hg hmeets hgoes
      rw [← hlast.body_eq]
      exact Machine.read_of_inputExhausted hstep
    · rw [← houtput]
      rw [← hvalues] at hf
      exact Executable.throwsAt_of_thrown h.parsesLines hf hthrown

end Compiled

/-- The class file of a program holds the compiled method of its entry routine. -/
theorem compiled_of_classFile {program : Program} {settings : Settings} {bytes : Bytes}
    (h : program.compile .classFile settings = .ok (.classFile bytes)) :
    ∃ entry c lowered mc e layout flow types opening blocks,
      program.entry? = some entry ∧ c.bytes = bytes ∧
        Compiled settings.managed (Function.body entry) c lowered mc e layout flow types opening
          blocks := by
  unfold Program.compile at h
  dsimp only at h
  cases hentry : program.entry? with
  | none =>
      rw [hentry] at h
      cases h
  | some entry =>
      rw [hentry] at h
      obtain ⟨bytes', hcompile, hbytes⟩ := map_eq_ok.1 h
      cases hbytes
      obtain ⟨c, hclass, rfl⟩ := map_eq_ok.1 hcompile
      obtain ⟨lowered, mc, e, layout, flow, types, opening, blocks, hcompiled⟩ :=
        compiled_of_compileClass hclass
      exact ⟨entry, c, lowered, mc, e, layout, flow, types, opening, blocks, rfl, rfl, hcompiled⟩

/-- Class files follow runs on a text. Where a run succeeds on the integers of a text, the class
file prints the same integers on the text itself, as long as no line that it takes is empty or has
blanks at an end. At the `READ` that takes the first such line it throws, with what the run writes
up to there. -/
theorem classFile_follows_text {program : Program} {settings : Settings} {bytes : Bytes}
    {text : String} {values output : List Int32}
    (hcompile : program.compile .classFile settings = .ok (.classFile bytes))
    (hparse : InputText.parse text = .ok values) (hrun : program.run values = .ok output) :
    ∃ entry assembled e, program.entry? = some entry ∧
      assembleMain settings.managed.className entry.body = .ok assembled ∧
      loaded? bytes = some e ∧
      FollowsText program entry e assembled.main.labelOffsets text values output := by
  obtain ⟨entry, c, lowered, mc, e, layout, flow, types, opening, blocks, hentry, rfl, hcompiled⟩ :=
    compiled_of_classFile hcompile
  refine ⟨entry, ⟨lowered.classFile, lowered.slots, mc⟩, e, hentry, ?_, hcompiled.loaded_eq,
    hcompiled.followsText hentry hparse hrun⟩
  exact bind_eq_ok.2 ⟨lowered, hcompiled.lowered_eq,
    bind_eq_ok.2 ⟨mc, hcompiled.assembled_eq, rfl⟩⟩

/-- A routine that prints two integers that it reads. -/
def relayRoutine : Body :=
  #[.call (.intrinsic .read), .call (.intrinsic .write), .call (.intrinsic .read),
    .call (.intrinsic .write)]

theorem exists_compiled_relay : ∃ bytes, (Program.ofRoutine relayRoutine).compile .classFile
    { Settings.standard with debugInfo := false } = .ok (.classFile bytes) := by
  obtain ⟨bytes, hbytes⟩ := exists_ok_of_toBool
    (by decide +kernel : (compile ⟨"Program", false⟩ relayRoutine).toBool = true)
  exact ⟨bytes, map_eq_ok.2 ⟨bytes, hbytes, rfl⟩⟩

/-- On lines that end in different ways, and with a blank line that is never read, both integers
are printed. With a blank line between them the class file throws at a `READ` after it has printed
the first. -/
theorem relay_follows_text :
    ∃ bytes assembled e,
      (Program.ofRoutine relayRoutine).compile .classFile
          { Settings.standard with debugInfo := false } = .ok (.classFile bytes) ∧
        assembleMain "Program" relayRoutine = .ok assembled ∧ loaded? bytes = some e ∧
        e.Prints (readerLines "+5\r\n7\n\n 8".toList) [5, 7] ∧
        ∃ index pc, relayRoutine[index]? = some (.call (.intrinsic .read)) ∧
          InBlock assembled.main.labelOffsets index pc ∧
          e.ThrowsAt (readerLines "5\n\n7\n".toList) pc [5] := by
  obtain ⟨bytes, hbytes⟩ := exists_compiled_relay
  obtain ⟨entry, assembled, e, hentry, hassembled, hloaded, hfollows⟩ :=
    classFile_follows_text hbytes
      (by decide +kernel : InputText.parse "+5\r\n7\n\n 8" = .ok [5, 7, 8])
      (by decide +kernel : (Program.ofRoutine relayRoutine).run [5, 7, 8] = .ok [5, 7])
  obtain ⟨entry', assembled', e', hentry', hassembled', hloaded', hfollows'⟩ :=
    classFile_follows_text hbytes
      (by decide +kernel : InputText.parse "5\n\n7\n" = .ok [5, 7])
      (by decide +kernel : (Program.ofRoutine relayRoutine).run [5, 7] = .ok [5, 7])
  cases hentry.symm.trans hentry'
  cases hassembled.symm.trans hassembled'
  cases hloaded.symm.trans hloaded'
  have hbody : entry.body = relayRoutine := by
    cases hentry
    rfl
  refine ⟨bytes, assembled, e, hbytes, hbody ▸ hassembled, hloaded, ?_, ?_⟩
  · refine hfollows.prints ?_
    rw [show (Program.ofRoutine relayRoutine).valuesTaken [5, 7, 8] = 2 by decide +kernel]
    decide +kernel
  · obtain ⟨m, last, pc, hresult, -, hread, hin, hthrows⟩ :=
      hfollows'.throws ["5".toList] [] ["7".toList] (by decide +kernel) (by decide +kernel)
        (.inl rfl) (by decide +kernel)
    have houtput : m.output.toList = [5] := by
      have hwritten : (Machine.runEntry .standard (Program.ofRoutine relayRoutine)
          (.ofInput [5])).1.output.toList = [5] := by decide +kernel
      exact (congrArg (fun result => result.1.output.toList) hresult).symm.trans hwritten
    rw [houtput] at hthrows
    exact ⟨last.active.next, pc, hbody ▸ hread, hin, hthrows⟩

/-- Blanks around an integer do not count for a run, but the class file does not print the integer
of such a line. -/
theorem padded_line_not_printed :
    ∃ bytes e,
      (Program.ofRoutine relayRoutine).compile .classFile
          { Settings.standard with debugInfo := false } = .ok (.classFile bytes) ∧
        loaded? bytes = some e ∧ InputText.parse " 5\n7\n" = .ok [5, 7] ∧
        (Program.ofRoutine relayRoutine).run [5, 7] = .ok [5, 7] ∧
        ¬ e.Prints (readerLines " 5\n7\n".toList) [5, 7] := by
  obtain ⟨bytes, hbytes⟩ := exists_compiled_relay
  have hparse : InputText.parse " 5\n7\n" = .ok [5, 7] := by decide +kernel
  have hrun : (Program.ofRoutine relayRoutine).run [5, 7] = .ok [5, 7] := by decide +kernel
  obtain ⟨entry, c, lowered, mc, e, layout, flow, types, opening, blocks, hentry, rfl, hcompiled⟩ :=
    compiled_of_classFile hbytes
  obtain ⟨m, last, pc, -, -, -, -, hthrows⟩ :=
    (hcompiled.followsText hentry hparse hrun).throws [] " 5".toList ["7".toList]
      (by decide +kernel) (by simp) (by decide +kernel) (by decide +kernel)
  exact ⟨_, e, hbytes, hcompiled.loaded_eq, hparse, hrun, hthrows.not_prints _⟩

end StackCodegen.Managed
