import StackCodegen.Proofs.ClassFile.Paths
import StackCodegen.Proofs.Managed.StackDiscipline

/-!
# Stack heights of compiled methods

The heights of an analysis are numbers without a bound, and the height that a method declares is a
16-bit word. No height of a method that the target assembles is too large for one: the code is
measured before it is analysed, and no instruction that the target emits adds more words than it has
bytes. How the jumps of the code lead is of no account.

Main statement: the heights that are computed for the constructor and the main method are bounded by
the bytes of their code, and the declared height is the largest on any path (`stack_heights_fit`).
-/

set_option autoImplicit false

namespace StackCodegen.Managed

open ClassFile
open ClassFile.ConstantPool (Asks IsPrefix)

/-- The methods that a compilation assembles. -/
inductive AssembledIn (className : String) (body : Body) : SymbolicCode → Prop where
  | constructor {created named : ClassFile} {code : SymbolicCode}
      (create : ClassFile.create className objectClass = .ok created)
      (names : interned created lowerConstructor = .ok (code, named)) :
      AssembledIn className body code
  | main {lowered : Lowered} (lower : lowerClass className body = .ok lowered) :
      AssembledIn className body lowered.main

/-- What the bound rests on: operands that belong to their opcodes, modest instructions, and jumps
to labels of the method. -/
structure Measured (method : SymbolicCode) : Prop where
  regular : ∀ insn ∈ method.instructions.toList, insn.Regular
  modest : ∀ insn ∈ method.instructions.toList, insn.Modest
  target_lt : ∀ op label, .jump op label ∈ method.instructions → label < method.labelCount

section Methods

variable {className : String} {body : Body} {method : SymbolicCode} {layout : Layout}
  {code : Array UInt8}

theorem measured_of_assembledIn (h : AssembledIn className body method) : Measured method := by
  cases h with
  | constructor _ hnames =>
      have hasks : Asks _ (fun _ => False) _ _ := asks_lowerConstructor
      obtain ⟨-, -, -, hcode⟩ := grown_of_interned hasks hnames
      obtain ⟨⟨init, rfl⟩, -⟩ := hcode _ (IsPrefix.refl _)
      refine ⟨regular_constructorCode init, ?_, fun op label hmem => ?_⟩
      · simp [constructorCode, Instruction.Modest, Instruction.stackEffect, Opcode.stackEffect,
          Instruction.size]
      · simp [constructorCode] at hmem
  | main hlower =>
      obtain ⟨constructor, hsettled⟩ := settled_of_lowerClass hlower
      obtain ⟨⟨opening, blocks, hemitted⟩, -⟩ := hsettled.emitted _ (IsPrefix.refl _)
      refine ⟨regular_of_emitted hsettled.laid hemitted, modest_of_emitted hsettled.laid hemitted,
        fun op label hmem => ?_⟩
      exact hemitted.labelled.target_lt op label (Array.mem_toList_iff.2 hmem)

namespace Measured

/-- Encoded code has as many bytes as the layout counts. -/
theorem size_eq (h : Measured method) (hlayout : Layout.of method = .ok layout)
    (hcode : encodeBody layout method.instructions = .ok code) :
    code.size = codeSize method.instructions.toList := by
  have hfit : ∀ insn ∈ method.instructions.toList, insn.Fitting :=
    fun insn hinsn => (h.regular insn hinsn).fitting
  rw [← Array.length_toList]
  exact (encodes_of_encodeBody hlayout hfit hcode).length_eq hfit

/-- The declared height of an assembled method is the largest on any path. -/
theorem isGreatest_maxStack (h : Measured method) {m : MethodCode} (hm : method.assemble = .ok m) :
    IsGreatest {height | Attains method.instructions height} m.maxStack.toNat := by
  obtain ⟨layout, code, flow, hlayout, -, hflow, rfl⟩ := assemble_eq_ok hm
  have hle : flow.highest ≤ 65535 :=
    (analyse_spec h.modest hflow).highest_le.trans (Layout.codeSize_le hlayout)
  have htoNat : (UInt16.ofNat flow.highest).toNat = flow.highest := by
    rw [UInt16.toNat_ofNat']
    exact Nat.mod_eq_of_lt (by omega)
  rw [htoNat]
  obtain ⟨hthrough, hpending⟩ := Flow.goesThrough_of_settle .start hflow
  have hscanned := Layout.scanned_of_eq_ok hlayout
  exact isGreatest_highest hscanned h.target_lt hthrough hpending

end Measured

/-- Stack heights of a compilation cannot overflow. For either method, every height that its
analysis computes, whether or not the analysis accepts it, is at most the number of bytes of the
code; so it fits 16 bits, and so the 16-bit sum is the true one. The height that an assembled method
declares is the largest on any path. -/
theorem stack_heights_fit (hmethod : AssembledIn className body method)
    (hlayout : Layout.of method = .ok layout)
    (hcode : encodeBody layout method.instructions = .ok code) :
    code.size ≤ 65535 ∧
      (∀ insn height, Flow.Computes method.instructions layout insn height →
        height ≤ code.size ∧ insn.heightAfter height ≤ code.size ∧
          (insn.wordAfter (.ofNat height)).toNat = insn.heightAfter height) ∧
      ∀ m, method.assemble = .ok m → m.code = code.toList ∧
        IsGreatest {height | Attains method.instructions height} m.maxStack.toNat := by
  have hmeasured := measured_of_assembledIn hmethod
  have hsize := hmeasured.size_eq hlayout hcode
  have hfits : code.size ≤ 65535 := hsize ▸ Layout.codeSize_le hlayout
  refine ⟨hfits, fun insn height hcomputes => ?_, fun m hm => ⟨?_, ?_⟩⟩
  · obtain ⟨hheight, hafter⟩ := le_codeSize_of_computes hmeasured.modest hcomputes
    rw [← hsize] at hheight hafter
    obtain ⟨-, -, -, -, hpops⟩ := hcomputes
    exact ⟨hheight, hafter,
      toNat_wordAfter hpops (hheight.trans hfits) (hafter.trans hfits)⟩
  · obtain ⟨layout', code', flow, hlayout', hcode', -, rfl⟩ := assemble_eq_ok hm
    rw [hlayout] at hlayout'
    cases hlayout'
    rw [hcode] at hcode'
    cases hcode'
    rfl
  · exact hmeasured.isGreatest_maxStack hm

end Methods

/-- The main method of the countdown, whose loop jumps back, declares the five words that its
opening needs, and no path attains more. -/
theorem countdown_heights_fit :
    ∃ lowered layout code m, lowerClass "Program" countdownRoutine = .ok lowered ∧
      Layout.of lowered.main = .ok layout ∧
      encodeBody layout lowered.main.instructions = .ok code ∧ code.size ≤ 65535 ∧
      lowered.main.assemble = .ok m ∧ m.maxStack = 5 ∧
      IsGreatest {height | Attains lowered.main.instructions height} 5 := by
  have hdeclared : (assembleMain "Program" countdownRoutine).toOption.map
      (fun a => a.main.maxStack) = some 5 := by decide +kernel
  obtain ⟨assembled, hassembled⟩ : ∃ a, assembleMain "Program" countdownRoutine = .ok a := by
    refine exists_ok_of_toBool ?_
    cases h : assembleMain "Program" countdownRoutine with
    | error e =>
        rw [h] at hdeclared
        cases hdeclared
    | ok a => rfl
  rw [hassembled] at hdeclared
  unfold assembleMain at hassembled
  obtain ⟨lowered, hlowered, hassembled⟩ := bind_eq_ok.1 hassembled
  obtain ⟨m, hm, hassembled⟩ := bind_eq_ok.1 hassembled
  cases hassembled
  have hfive : m.maxStack = 5 := Option.some.inj hdeclared
  obtain ⟨layout, code, flow, hlayout, hcode, -, -⟩ := assemble_eq_ok hm
  obtain ⟨hsize, -, hdeclares⟩ := stack_heights_fit (.main hlowered) hlayout hcode
  have hgreatest := (hdeclares m hm).2
  rw [hfive] at hgreatest
  exact ⟨lowered, layout, code, m, hlowered, hlayout, hcode, hsize, hm, hfive, hgreatest⟩

end StackCodegen.Managed
