import StackCodegen.Proofs.ClassFile.Safety

/-!
# Running rows of instructions

A row of instructions without jumps and returns has one effect on a frame, computed instruction by
instruction (`Frame.runLine`). A checked method that reaches the row steps through it to that
effect, or throws on the way (`Checked.lineEnds`); it is never refused, since located frames are
not. Jumps lead to the one place where their label is bound (`Checked.step_goto`,
`Checked.step_branch`).
-/

set_option autoImplicit false

namespace StackCodegen.ClassFile

/-- Recogniser for the instructions that go on to the next one or throw. -/
def Instruction.straight : Instruction → Bool
  | .jump _ _ | .plain .returnVoid => false
  | _ => true

/-- The effect of a row of instructions that starts at the frame's program counter. -/
def Frame.runLine (e : Executable) : List Instruction → Frame → Outcome
  | [], f => .running f
  | insn :: code, f =>
    match f.execute e (f.pc + insn.size) (insn.operation 0) with
    | .running g => g.runLine e code
    | outcome => outcome

/-- An outcome of a frame that goes on to the next instruction, or throws in the same frame. -/
def Outcome.StraightOn (f : Frame) (next : Nat) : Outcome → Prop
  | .running g => g.pc = next
  | .thrown g => g = f
  | .returned _ => False
  | .violation _ => True

namespace Frame

variable {e : Executable} {f g : Frame} {next : Nat}

/-! ## Effects of single instructions -/

theorem execute_push {index : UInt16} {value : Int32}
    (h : e.constants.integer? index = some value) :
    f.execute e next (.short .ldcW index) = f.resume next (.int value :: f.stack) := by
  simp only [execute, useConstant, h]

theorem execute_pushByte {index : UInt8} {value : Int32}
    (h : e.constants.integer? index.toUInt16 = some value) :
    f.execute e next (.byte .ldc index) = f.resume next (.int value :: f.stack) := by
  simp only [execute, useConstant, h]

theorem execute_new {index : UInt16} {kind : ObjectKind}
    (h : e.constants.allocated? index = some kind) :
    f.execute e next (.short .new index) = f.resume next (.fresh kind f.pc :: f.stack) := by
  simp only [execute, useConstant, h]

theorem execute_use {index : UInt16} {m : Member} (h : e.constants.member? index = some m) :
    f.execute e next (.short m.opcode index) = f.use next m := by
  cases m <;> simp only [execute, useConstant, Member.opcode, h, if_pos]

theorem execute_iload {slot : UInt16} {value : Int32} (hslot : slot < e.maxLocals)
    (h : f.locals slot = some (.int value)) :
    f.execute e next (.slot .iload slot) = f.resume next (.int value :: f.stack) := by
  simp only [execute, access, if_neg (UInt16.not_le.2 hslot), h]

theorem execute_aload {slot : UInt16} {kind : ObjectKind} (hslot : slot < e.maxLocals)
    (h : f.locals slot = some (.object kind)) :
    f.execute e next (.slot .aload slot) = f.resume next (.object kind :: f.stack) := by
  simp only [execute, access, if_neg (UInt16.not_le.2 hslot), h]

theorem execute_istore {slot : UInt16} {value : Int32} {stack : List Value}
    (hslot : slot < e.maxLocals) (h : f.stack = .int value :: stack) :
    f.execute e next (.slot .istore slot) =
      .running { f with
        pc := next, stack := stack,
        locals := Function.update f.locals slot (some (.int value)) } := by
  simp only [execute, access, if_neg (UInt16.not_le.2 hslot), h]

theorem execute_astore {slot : UInt16} {kind : ObjectKind} {stack : List Value}
    (hslot : slot < e.maxLocals) (h : f.stack = .object kind :: stack) :
    f.execute e next (.slot .astore slot) =
      .running { f with
        pc := next, stack := stack,
        locals := Function.update f.locals slot (some (.object kind)) } := by
  simp only [execute, access, if_neg (UInt16.not_le.2 hslot), h]

theorem straightOn_use (m : Member) : (f.use next m).StraightOn f next := by
  unfold use
  split <;> first | exact rfl | trivial

theorem straightOn_useConstant (op : Opcode) (index : UInt16) :
    (useConstant e f next op index).StraightOn f next := by
  unfold useConstant
  split
  · rfl
  · rfl
  · rfl
  · split
    · exact straightOn_use _
    · trivial
  · trivial

/-- An operator goes on with its result, or throws. -/
theorem straightOn_result (result : Option Int32) (stack : List Value) :
    Outcome.StraightOn f next
      (match result with
      | some value => f.resume next (.int value :: stack)
      | none => .thrown f) := by
  cases result <;> rfl

theorem straightOn_plain {op : Opcode} (hop : op ≠ .returnVoid) :
    (f.plain next op).StraightOn f next := by
  obtain ⟨pc, stack, locals, input, output⟩ := f
  cases op
  case returnVoid => exact absurd rfl hop
  case pop | dup => cases stack <;> first | exact rfl | exact True.intro
  case swap => rcases stack with _ | ⟨_, _ | _⟩ <;> first | exact rfl | exact True.intro
  case ineg =>
    rcases stack with _ | ⟨v, _⟩
    · exact True.intro
    · cases v <;> first | exact rfl | exact True.intro
  case iadd | isub | imul | idiv | irem | iand | ior =>
    rcases stack with _ | ⟨v, _ | ⟨w, _⟩⟩
    · exact True.intro
    · cases v <;> exact True.intro
    · cases v <;> cases w <;> first | exact True.intro | exact rfl | exact straightOn_result _ _
  all_goals first | exact rfl | exact True.intro

theorem straightOn_access (op : Opcode) (number : UInt16) :
    (access e f next op number).StraightOn f next := by
  unfold access
  split
  · trivial
  · split <;> first | exact rfl | trivial

/-- An instruction that neither jumps nor returns goes on to the next one or throws where it
stands. -/
theorem straightOn_execute {insn : Instruction} (h : insn.straight = true) (distance : Int) :
    (f.execute e next (insn.operation distance)).StraightOn f next := by
  cases insn with
  | jump op target => cases h
  | plain op =>
      refine straightOn_plain ?_
      rintro rfl
      cases h
  | byte op operand =>
      cases op <;> first | exact straightOn_useConstant _ _ | exact rfl
  | short op operand =>
      cases op <;> first | exact straightOn_useConstant _ _ | exact rfl
  | member op index =>
      cases op <;> first | exact straightOn_useConstant _ _ | exact rfl
  | slot op number => exact straightOn_access op number
  | bind label => exact rfl

end Frame

/-! ## Steps of a checked method -/

/-- How a row of instructions between two offsets ends. -/
def Executable.LineEnds (e : Executable) (f : Frame) (first last : Nat) : Outcome → Prop
  | .running g => e.Steps f g ∧ g.pc = last
  | .thrown g => e.Steps f g ∧ e.step g = .thrown g ∧ first ≤ g.pc ∧ g.pc < last
  | .returned _ => False
  | .violation _ => False

/-- Steps before a row. -/
theorem Executable.LineEnds.after {e : Executable} {f g : Frame} {first mid last : Nat}
    {outcome : Outcome} (h : e.LineEnds g mid last outcome) (hsteps : e.Steps f g)
    (hle : first ≤ mid) : e.LineEnds f first last outcome := by
  cases outcome with
  | running g' => exact ⟨hsteps.trans h.1, h.2⟩
  | thrown g' => exact ⟨hsteps.trans h.1, h.2.1, hle.trans h.2.2.1, h.2.2.2⟩
  | returned g' => exact h
  | violation cause => exact h

theorem Instruction.size_pos {insn : Instruction} (hbind : insn.isBind = false) : 0 < insn.size := by
  cases insn with
  | slot op number => exact Types.size_slot_pos op number
  | bind label => cases hbind
  | _ => exact Nat.succ_pos _

namespace Checked

variable {e : Executable} {c : TypeContext} {body : SymbolicCode} {m : MethodCode}
  {layout : Layout} {flow : Flow} {types : Nat → FrameType} {input : List Int32}
  {done todo : List Instruction} {f : Frame}

/-- A row of straight instructions has its effect, or throws within the row. -/
theorem lineEnds (h : Checked e c body m layout flow types) (hf : e.Reaches input f)
    {line : List Instruction} (hcode : body.instructions.toList = done ++ line ++ todo)
    (hpc : f.pc = codeSize done) (hline : ∀ insn ∈ line, insn.straight = true) :
    e.LineEnds f (codeSize done) (codeSize (done ++ line)) (f.runLine e line) := by
  induction line generalizing done f with
  | nil => exact ⟨.refl, by rw [List.append_nil, hpc]⟩
  | cons insn line ih =>
      have hsplit : body.instructions.toList = done ++ insn :: (line ++ todo) := by
        rw [hcode, List.append_assoc]
        rfl
      have hrest : body.instructions.toList = (done ++ [insn]) ++ line ++ todo := by
        rw [hcode]
        simp
      have hlast : done ++ insn :: line = done ++ [insn] ++ line := by simp
      have hnext : codeSize done + insn.size = codeSize (done ++ [insn]) := by
        rw [codeSize_append]
        rfl
      have hstraight := hline insn List.mem_cons_self
      -- the rest of the row, from a frame behind the instruction
      have hgo : ∀ g, e.Steps f g → g.pc = codeSize (done ++ [insn]) →
          e.LineEnds f (codeSize done) (codeSize (done ++ insn :: line)) (g.runLine e line) := by
        intro g hsteps hgpc
        have hends := ih (hf.trans hsteps) hrest hgpc fun i hi =>
          hline i (List.mem_cons_of_mem _ hi)
        rw [hlast]
        exact hends.after hsteps (by rw [← hnext]; exact Nat.le_add_right _ _)
      cases hbind : insn.isBind with
      | true =>
          obtain ⟨label, rfl⟩ : ∃ label, insn = .bind label := by
            cases insn <;> first | cases hbind; done | exact ⟨_, rfl⟩
          exact hgo f .refl (by rw [hpc, codeSize_append]; rfl)
      | false =>
          obtain ⟨distance, hstep, -⟩ := h.step_eq hsplit hbind hpc
          have hoperation : insn.operation distance = insn.operation 0 := by
            cases insn <;> first | rfl | cases hstraight
          rw [hoperation] at hstep
          have hexecute : (f.execute e (codeSize done + insn.size)
              (insn.operation 0)).StraightOn f (codeSize done + insn.size) :=
            Frame.straightOn_execute hstraight 0
          rw [Frame.runLine, hpc]
          cases hout : f.execute e (codeSize done + insn.size) (insn.operation 0) with
          | running g =>
              rw [hout] at hexecute
              have hrun := h.running_of_step (h.located_of_reaches hf) hstep hout
              exact hgo g (.single hrun) (hexecute.trans hnext)
          | thrown g =>
              rw [hout] at hexecute hstep
              subst hexecute
              have hpos := Instruction.size_pos hbind
              refine ⟨.refl, hstep, Nat.le_of_eq hpc.symm, ?_⟩
              rw [hpc, codeSize_append, codeSize_cons]
              omega
          | returned g =>
              rw [hout] at hexecute
              exact hexecute.elim
          | violation cause =>
              rw [hout] at hstep
              exact h.step_ne_violation (h.located_of_reaches hf) cause hstep

/-- A row whose effect goes on is stepped through. -/
theorem steps_of_runLine (h : Checked e c body m layout flow types) (hf : e.Reaches input f)
    {line : List Instruction} (hcode : body.instructions.toList = done ++ line ++ todo)
    (hpc : f.pc = codeSize done) (hline : ∀ insn ∈ line, insn.straight = true) {g : Frame}
    (hrun : f.runLine e line = .running g) : e.Steps f g ∧ g.pc = codeSize (done ++ line) := by
  have hends := h.lineEnds hf hcode hpc hline
  rw [hrun] at hends
  exact hends

/-- Where a label is bound once, its jumps have the distance to that place. -/
theorem jump_lands (h : Checked e c body m layout flow types)
    (hnodup : (boundLabels body.instructions.toList).Nodup) {label : Label} {b : Binding}
    (hb : layout.bindings[label]? = some b) {done' todo' : List Instruction}
    (hlabel : body.instructions.toList = done' ++ .bind label :: todo') :
    b.offset = codeSize done' := by
  have hlt : label < body.labelCount := by
    rw [← Layout.size_bindings h.assembly.layout_eq]
    exact (Array.getElem?_eq_some_iff.1 hb).1
  rw [Layout.binding_of_nodup h.assembly.layout_eq hnodup hlt hlabel] at hb
  cases hb
  rfl

/-- An unconditional jump leads to the place of its label. -/
theorem step_goto (h : Checked e c body m layout flow types) (hf : e.Reaches input f)
    (hnodup : (boundLabels body.instructions.toList).Nodup) {label : Label}
    (hcode : body.instructions.toList = done ++ .jump .goto label :: todo)
    (hpc : f.pc = codeSize done) {done' todo' : List Instruction}
    (hlabel : body.instructions.toList = done' ++ .bind label :: todo') :
    e.Step f { f with pc := codeSize done' } := by
  obtain ⟨distance, hstep, hjump⟩ := h.step_eq hcode rfl hpc
  obtain ⟨b, hb, hdistance⟩ := hjump _ _ rfl
  have hoffset := h.jump_lands hnodup hb hlabel
  refine h.running_of_step (h.located_of_reaches hf) hstep ?_
  have hland : (f.pc : Int) + distance = codeSize done' := by
    rw [hdistance, hoffset, hpc]
    omega
  simp only [Instruction.operation, Frame.execute, Frame.branch, Frame.jump, hland]
  rw [if_neg (by omega)]
  rfl

/-- A branch finds two integers. -/
theorem operands_of_branch (h : Checked e c body m layout flow types) (hf : e.Reaches input f)
    {op : Opcode} {label : Label}
    (hcode : body.instructions.toList = done ++ .jump op label :: todo)
    (hpc : f.pc = codeSize done) {condition : Int32 → Int32 → Bool}
    (hop : op.condition? = some condition) :
    ∃ right left stack, f.stack = .int right :: .int left :: stack := by
  obtain ⟨distance, hstep, -⟩ := h.step_eq hcode rfl hpc
  have hne := h.step_ne_violation (h.located_of_reaches hf) .operands
  rw [hstep] at hne
  by_contra hnot
  refine hne ?_
  have hviolation : f.branch (codeSize done + 3) op distance = .violation .operands := by
    unfold Frame.branch
    split
    · cases hop
    next hstack _ => exact absurd ⟨_, _, _, hstack⟩ hnot
    · rfl
  change e.bounded (f.branch (codeSize done + 3) op distance) = _
  rw [hviolation]
  rfl

/-- A branch leads to the place of its label where its condition holds, else to the next
instruction. -/
theorem step_branch (h : Checked e c body m layout flow types) (hf : e.Reaches input f)
    (hnodup : (boundLabels body.instructions.toList).Nodup) {op : Opcode} {label : Label}
    (hcode : body.instructions.toList = done ++ .jump op label :: todo)
    (hpc : f.pc = codeSize done) {condition : Int32 → Int32 → Bool} {right left : Int32}
    {stack : List Value} (hop : op.condition? = some condition)
    (hstack : f.stack = .int right :: .int left :: stack) {done' todo' : List Instruction}
    (hlabel : body.instructions.toList = done' ++ .bind label :: todo') :
    e.Step f { f with
      pc := if condition left right then codeSize done' else codeSize done + 3
      stack := stack } := by
  obtain ⟨distance, hstep, hjump⟩ := h.step_eq hcode rfl hpc
  obtain ⟨b, hb, hdistance⟩ := hjump _ _ rfl
  have hoffset := h.jump_lands hnodup hb hlabel
  refine h.running_of_step (h.located_of_reaches hf) hstep ?_
  have hland : (f.pc : Int) + distance = codeSize done' := by
    rw [hdistance, hoffset, hpc]
    omega
  rw [Instruction.operation, Frame.execute, Frame.branch_eq hop hstack]
  cases condition left right with
  | true =>
      simp only [if_true, Frame.jump, hland]
      rw [if_neg (by omega)]
      rfl
  | false => rfl

end Checked

end StackCodegen.ClassFile
