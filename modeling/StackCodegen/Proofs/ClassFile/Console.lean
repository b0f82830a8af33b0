import StackCodegen.Proofs.ClassFile.StraightLine
import StackCodegen.Proofs.Machine.InputLines

/-!
# Methods on a text

A method that runs on a text is handed the lines of the text by `readLine`, and `parseInt` makes an
integer of a line or throws. The machine of `Executable.step` knows lines by the integers they hold;
so before each step it is offered the integer of the next line, and the line is gone if the step was
a `readLine` (`Executable.ConsoleStep`). A line that is no integer is offered like the end of the
text, since `parseInt` throws on both.

Where every `readLine` is followed by a `parseInt` (`Executable.ParsesLines`), a method on a text
does what it does on the integers of the lines up to the first line that is none. Every frame that
it meets on those is met on the text (`exists_console`), and there it returns or throws alike
(`prints_of_returned`, `throwsAt_of_thrown`). Whether the lines are parsed is seen from the code
(`Checked.parsesLines`).
-/

set_option autoImplicit false

namespace StackCodegen.ClassFile

open InputText (integer? frontIntegers head?_frontIntegers)

/-! ## Frames with another input -/

/-- The frame with another input. -/
def Frame.withInput (f : Frame) (input : List Int32) : Frame := { f with input := input }

/-- The outcome with another input. -/
def Outcome.withInput (input : List Int32) : Outcome → Outcome
  | .running g => .running (g.withInput input)
  | .returned g => .returned (g.withInput input)
  | .thrown g => .thrown (g.withInput input)
  | .violation cause => .violation cause

/-- The library member that an operation uses. -/
def Operation.member? (constants : StoredPool) : Operation → Option Member
  | .byte op index => (constants.member? index.toUInt16).filter fun m => m.opcode = op
  | .short op index => (constants.member? index).filter fun m => m.opcode = op
  | _ => none

namespace Frame

variable {e : Executable} (f : Frame) (next : Nat) (input : List Int32)

theorem use_withInput {m : Member} (hm : m ≠ .readLine) :
    (f.withInput input).use next m = (f.use next m).withInput input := by
  obtain ⟨pc, stack, locals, input', output⟩ := f
  unfold use
  dsimp only [withInput]
  split <;> first | rfl | exact absurd rfl hm

/-- Reading a line looks at the next line alone. -/
theorem use_readLine_withInput (hhead : input.head? = f.input.head?) :
    (f.withInput input).use next .readLine = (f.use next .readLine).withInput input.tail := by
  obtain ⟨pc, stack, locals, input', output⟩ := f
  dsimp only [withInput] at hhead ⊢
  unfold use
  dsimp only
  split
  all_goals first | rfl | cases ‹Member.readLine = _›
  simp only [hhead, Outcome.withInput, withInput]

/-- What a line that is read leads to. -/
theorem running_readLine {f g : Frame} {next : Nat} (h : f.use next .readLine = .running g) :
    g.pc = next ∧ ∃ stack, g.stack = .line f.input.head? :: stack := by
  obtain ⟨pc, stack, locals, input, output⟩ := f
  unfold use at h
  dsimp only at h
  split at h
  all_goals first | cases ‹Member.readLine = _›; done | cases h
  exact ⟨rfl, _, rfl⟩

theorem access_withInput (op : Opcode) (number : UInt16) :
    access e (f.withInput input) next op number = (access e f next op number).withInput input := by
  unfold access
  split
  · rfl
  · dsimp only [withInput]
    split <;> rfl

theorem result_withInput (result : Option Int32) (stack : List Value) :
    (match result with
      | some value => (f.withInput input).resume next (.int value :: stack)
      | none => .thrown (f.withInput input)) =
      (match result with
      | some value => f.resume next (.int value :: stack)
      | none => .thrown f : Outcome).withInput input := by
  cases result <;> rfl

theorem plain_withInput (op : Opcode) :
    (f.withInput input).plain next op = (f.plain next op).withInput input := by
  obtain ⟨pc, stack, locals, input', output⟩ := f
  cases op
  case pop | dup => cases stack <;> rfl
  case swap => rcases stack with _ | ⟨_, _ | _⟩ <;> rfl
  case ineg =>
    rcases stack with _ | ⟨v, _⟩
    · rfl
    · cases v <;> rfl
  case iadd | isub | imul | idiv | irem | iand | ior =>
    rcases stack with _ | ⟨v, _ | ⟨w, _⟩⟩
    · rfl
    · cases v <;> rfl
    · cases v <;> cases w <;> first | rfl | exact result_withInput _ _ _ _ _
  all_goals rfl

theorem jump_withInput (distance : Int) (stack : List Value) :
    (f.withInput input).jump distance stack = (f.jump distance stack).withInput input := by
  unfold jump
  by_cases h : (f.pc : Int) + distance < 0
  · rw [if_pos h]
    exact if_pos h
  · rw [if_neg h]
    exact if_neg h

theorem branch_withInput (op : Opcode) (distance : Int) :
    (f.withInput input).branch next op distance = (f.branch next op distance).withInput input := by
  obtain ⟨pc, stack, locals, input', output⟩ := f
  unfold branch
  dsimp only [withInput]
  split
  · exact jump_withInput ⟨pc, _, locals, input', output⟩ ..
  · split
    · exact jump_withInput ⟨pc, _, locals, input', output⟩ ..
    · rfl
  · rfl

theorem useConstant_withInput {op : Opcode} {index : UInt16}
    (h : (e.constants.member? index).filter (fun m => m.opcode = op) ≠ some .readLine) :
    useConstant e (f.withInput input) next op index =
      (useConstant e f next op index).withInput input := by
  unfold useConstant
  dsimp only [withInput]
  split
  case h_4 m hm _ _ _ =>
    split
    next hop =>
        refine use_withInput f next input ?_
        rintro rfl
        rw [hm] at h
        exact h (Option.filter_some_pos (decide_eq_true hop))
    next => rfl
  all_goals rfl

/-- An operation that reads no line does not look at the input. -/
theorem execute_withInput {operation : Operation}
    (h : operation.member? e.constants ≠ some .readLine) :
    (f.withInput input).execute e next operation =
      (f.execute e next operation).withInput input := by
  unfold execute
  split
  next op => exact plain_withInput ..
  next => rfl
  next op operand _ => exact useConstant_withInput f next input h
  next => rfl
  next op operand _ => exact useConstant_withInput f next input h
  next => exact access_withInput ..
  next => exact branch_withInput ..

/-- An operation that uses a member does what the member does. -/
theorem execute_of_member? {operation : Operation} {m : Member}
    (h : operation.member? e.constants = some m) :
    f.execute e next operation = f.use next m := by
  unfold Operation.member? at h
  split at h
  next op operand =>
      obtain ⟨hm, hop⟩ := Option.filter_eq_some_iff.1 h
      obtain rfl := of_decide_eq_true hop
      cases m <;> simp only [execute, useConstant, Member.opcode, hm, if_pos]
  next op operand =>
      obtain ⟨hm, hop⟩ := Option.filter_eq_some_iff.1 h
      obtain rfl := of_decide_eq_true hop
      exact execute_use hm
  next => cases h

end Frame

/-! ## Steps with another input -/

namespace Executable

variable {e : Executable} {f g : Frame} {m : Member}

/-- The library member that the next operation uses. -/
def member? (e : Executable) (f : Frame) : Option Member :=
  (decode? (e.code.drop f.pc)).bind fun (operation, _) => operation.member? e.constants

/-- What a step leaves unread of some lines, or of the values they hold. -/
def unread {α : Type} (e : Executable) (f : Frame) (lines : List α) : List α :=
  if e.member? f = some .readLine then lines.tail else lines

theorem unread_readLine {α : Type} (h : e.member? f = some .readLine) (lines : List α) :
    e.unread f lines = lines.tail := if_pos h

theorem unread_of_ne {α : Type} (h : e.member? f ≠ some .readLine) (lines : List α) :
    e.unread f lines = lines := if_neg h

theorem exists_decoded (h : e.member? f = some m) :
    ∃ operation size, decode? (e.code.drop f.pc) = some (operation, size) ∧
      operation.member? e.constants = some m := by
  obtain ⟨⟨operation, size⟩, hdecode, hmember⟩ := Option.bind_eq_some_iff.1 h
  exact ⟨operation, size, hdecode, hmember⟩

/-- A step that uses a member does what the member does. -/
theorem step_use {operation : Operation} {size : Nat}
    (hdecode : decode? (e.code.drop f.pc) = some (operation, size))
    (hmember : operation.member? e.constants = some m) :
    e.step f = e.bounded (f.use (f.pc + size) m) := by
  rw [step, hdecode]
  dsimp only
  rw [Frame.execute_of_member? f _ hmember]

theorem bounded_withInput (input : List Int32) (outcome : Outcome) :
    e.bounded (outcome.withInput input) = (e.bounded outcome).withInput input := by
  cases outcome with
  | running g =>
      simp only [Outcome.withInput, bounded]
      by_cases hroom : g.stack.length ≤ e.maxStack.toNat
      · rw [if_pos hroom]
        exact if_pos hroom
      · rw [if_neg hroom]
        exact if_neg hroom
  | returned g | thrown g | violation cause => rfl

/-- A step looks at the next line alone, and only to read it. -/
theorem step_withInput {input : List Int32}
    (hhead : e.member? f = some .readLine → input.head? = f.input.head?) :
    e.step (f.withInput input) = (e.step f).withInput (e.unread f input) := by
  by_cases hreads : e.member? f = some .readLine
  · obtain ⟨operation, size, hdecode, hmember⟩ := exists_decoded hreads
    rw [unread_readLine hreads, step, step]
    dsimp only [Frame.withInput]
    rw [hdecode]
    dsimp only
    rw [← bounded_withInput, Frame.execute_of_member? f _ hmember,
      ← Frame.use_readLine_withInput f _ input (hhead hreads)]
    exact congrArg e.bounded (Frame.execute_of_member? (f.withInput input) _ hmember)
  · rw [unread_of_ne hreads, step, step]
    dsimp only [Frame.withInput]
    cases hdecode : decode? (e.code.drop f.pc) with
    | none => rfl
    | some decoded =>
        obtain ⟨operation, size⟩ := decoded
        have hmember : operation.member? e.constants ≠ some .readLine := by
          rw [member?, hdecode] at hreads
          exact hreads
        dsimp only
        rw [← bounded_withInput, ← Frame.execute_withInput f _ input hmember]
        rfl

/-- What a step leaves of the input. -/
theorem input_of_step (h : e.Step f g) : g.input = e.unread f f.input := by
  have hstep : e.step f = (e.step f).withInput (e.unread f f.input) := step_withInput fun _ => rfl
  have hg : e.step f = .running g := h
  rw [hg] at hstep
  injection hstep with hsame
  exact congrArg Frame.input hsame

/-- Reading a line puts its integer on the operand stack and goes on behind the operation. -/
theorem readLine_of_step {operation : Operation} {size : Nat}
    (hdecode : decode? (e.code.drop f.pc) = some (operation, size))
    (hmember : operation.member? e.constants = some .readLine) (h : e.Step f g) :
    g.pc = f.pc + size ∧ ∃ stack, g.stack = .line f.input.head? :: stack := by
  have hg : e.step f = .running g := h
  rw [step_use hdecode hmember] at hg
  exact Frame.running_readLine (running_of_bounded hg)

/-- Where the last line held no integer, `parseInt` throws. -/
theorem thrown_of_parseInt (hparses : e.member? f = some .parseInt) {stack : List Value}
    (hstack : f.stack = .line none :: stack) : e.step f = .thrown f := by
  obtain ⟨operation, size, hdecode, hmember⟩ := exists_decoded hparses
  have hstep := step_use hdecode hmember
  obtain ⟨pc, _, locals, input, output⟩ := f
  cases hstack
  exact hstep

/-- Every line that is read is parsed in the next step. -/
def ParsesLines (e : Executable) : Prop :=
  ∀ input f g, e.Reaches input f → e.member? f = some .readLine → e.Step f g →
    e.member? g = some .parseInt

end Executable

/-! ## Consoles -/

/-- A method that runs on a text: its frame, and the lines of the text that are not read yet. The
frame's own input has no part in this. -/
structure Console where
  frame : Frame
  lines : List (List Char)

/-- The frame that is offered the integer of the next line. -/
def Console.offered (c : Console) : Frame := c.frame.withInput (c.lines.head?.bind integer?).toList

namespace Executable

variable {e : Executable} {f g : Frame} {lines : List (List Char)} {c : Console}

/-- One step on a text. -/
def ConsoleStep (e : Executable) (c c' : Console) : Prop :=
  e.step c.offered = .running c'.frame ∧ c'.lines = e.unread c.frame c.lines

/-- The consoles that a method meets on the lines of a text. -/
def ConsoleReaches (e : Executable) (lines : List (List Char)) (c : Console) : Prop :=
  Relation.ReflTransGen e.ConsoleStep ⟨start [], lines⟩ c

/-- A console that stands for a frame. They differ in what they have not read: the frame's input is
what the lines start with, unless the console has just read a line that is no integer and the method
is about to throw. -/
structure Mirrors (e : Executable) (c : Console) (f : Frame) : Prop where
  frame_eq : c.frame.withInput f.input = f
  input_eq : f.input = frontIntegers c.lines ∨
    e.member? f = some .parseInt ∧ e.step f = .thrown f

theorem Mirrors.member?_eq (h : e.Mirrors c f) : e.member? c.frame = e.member? f := by
  rw [← h.frame_eq]
  rfl

theorem Mirrors.offered_eq (h : e.Mirrors c f) :
    c.offered = f.withInput (c.lines.head?.bind integer?).toList := by
  rw [← h.frame_eq]
  rfl

/-- A mirrored frame takes the step of its console, but for the input. -/
theorem Mirrors.step_offered (h : e.Mirrors c f) :
    ∃ input, e.step c.offered = (e.step f).withInput input := by
  rw [h.offered_eq]
  refine ⟨_, step_withInput fun hreads => ?_⟩
  rcases h.input_eq with hinput | ⟨hparses, -⟩
  · rw [hinput, head?_frontIntegers]
    cases c.lines.head?.bind integer? <;> rfl
  · rw [hparses] at hreads
    cases hreads

/-- A step of a mirrored frame is a step of its console. -/
theorem Mirrors.exists_step (hparses : e.ParsesLines) {input : List Int32}
    (hreach : e.Reaches input f) (h : e.Mirrors c f) (hg : e.Step f g) :
    ∃ c', e.ConsoleStep c c' ∧ e.Mirrors c' g := by
  obtain ⟨input', hstep⟩ := h.step_offered
  have hrunning : e.step f = .running g := hg
  rw [hrunning] at hstep
  refine ⟨⟨g.withInput input', e.unread c.frame c.lines⟩, ⟨hstep, rfl⟩, rfl, ?_⟩
  have hleft := input_of_step hg
  dsimp only
  rw [unread, h.member?_eq, hleft, unread]
  rcases h.input_eq with hinput | ⟨-, hthrown⟩
  · rw [hinput]
    split
    next hreads =>
        -- the line that was read decides: an integer, none, or the end of the text
        cases hlines : c.lines with
        | nil => exact .inl rfl
        | cons line lines =>
            rw [frontIntegers]
            cases hline : integer? line with
            | some value => exact .inl rfl
            | none =>
                obtain ⟨operation, size, hdecode, hmember⟩ := exists_decoded hreads
                obtain ⟨-, stack, hstack⟩ := readLine_of_step hdecode hmember hg
                rw [hinput, hlines, head?_frontIntegers, List.head?_cons, Option.bind_some, hline]
                  at hstack
                have hparse := hparses input f g hreach hreads hg
                exact .inr ⟨hparse, thrown_of_parseInt hparse hstack⟩
    next => exact .inl rfl
  · rw [hrunning] at hthrown
    cases hthrown

/-- Every frame that is met on the integers of some lines is met on the lines. -/
theorem exists_console (hparses : e.ParsesLines) (h : e.Reaches (frontIntegers lines) f) :
    ∃ c, e.ConsoleReaches lines c ∧ e.Mirrors c f := by
  induction h with
  | refl => exact ⟨_, .refl, rfl, .inl rfl⟩
  | tail hreach hstep ih =>
      obtain ⟨c, hc, hmirrors⟩ := ih
      obtain ⟨c', hc', hmirrors'⟩ := hmirrors.exists_step hparses hreach hstep
      exact ⟨c', hc.tail hc', hmirrors'⟩

/-- A method that returns on some lines with these integers printed. -/
def Prints (e : Executable) (lines : List (List Char)) (output : List Int32) : Prop :=
  ∃ c g, e.ConsoleReaches lines c ∧ e.step c.offered = .returned g ∧ g.output = output

/-- A method that throws on some lines at a place of its code with these integers printed. -/
def ThrowsAt (e : Executable) (lines : List (List Char)) (pc : Nat) (output : List Int32) : Prop :=
  ∃ c g, e.ConsoleReaches lines c ∧ e.step c.offered = .thrown g ∧ c.frame.pc = pc ∧
    g.output = output

/-- What returns on the integers of some lines returns on the lines. -/
theorem prints_of_returned (hparses : e.ParsesLines) (h : e.Reaches (frontIntegers lines) f)
    (hreturned : e.step f = .returned g) : e.Prints lines g.output := by
  obtain ⟨c, hc, hmirrors⟩ := exists_console hparses h
  obtain ⟨input, hstep⟩ := hmirrors.step_offered
  rw [hreturned] at hstep
  exact ⟨c, _, hc, hstep, rfl⟩

/-- What throws on the integers of some lines throws on the lines. -/
theorem throwsAt_of_thrown (hparses : e.ParsesLines) (h : e.Reaches (frontIntegers lines) f)
    (hthrown : e.step f = .thrown g) : e.ThrowsAt lines f.pc g.output := by
  obtain ⟨c, hc, hmirrors⟩ := exists_console hparses h
  obtain ⟨input, hstep⟩ := hmirrors.step_offered
  rw [hthrown] at hstep
  refine ⟨c, _, hc, hstep, ?_, rfl⟩
  rw [← hmirrors.frame_eq]
  rfl

/-- A method takes one way through a text: where it throws it does not return. -/
theorem ThrowsAt.not_prints {pc : Nat} {output : List Int32} (h : e.ThrowsAt lines pc output)
    (output' : List Int32) : ¬ e.Prints lines output' := by
  have hunique : Relator.RightUnique e.ConsoleStep := by
    rintro c ⟨frame, unread⟩ ⟨frame', unread'⟩ ⟨hstep, hlines⟩ ⟨hstep', hlines'⟩
    dsimp only at hstep hlines hstep' hlines'
    rw [hstep] at hstep'
    cases hstep'
    rw [hlines, hlines']
  have hends : ∀ {c c' : Console} {outcome : Outcome}, Relation.ReflTransGen e.ConsoleStep c c' →
      e.step c.offered = outcome → (∀ g, outcome ≠ .running g) → c = c' := by
    intro c c' outcome hsteps houtcome hne
    rcases hsteps.cases_head with hsame | ⟨next, hnext, -⟩
    · exact hsame
    · exact absurd (houtcome.symm.trans hnext.1) (hne _)
  rintro ⟨c', g', hc', hreturned, -⟩
  obtain ⟨c, g, hc, hthrown, -, -⟩ := h
  have hsame : c = c' := by
    rcases Relation.ReflTransGen.total_of_right_unique hunique hc hc' with hsteps | hsteps
    · exact hends hsteps hthrown (by simp)
    · exact (hends hsteps hreturned (by simp)).symm
  rw [hsame, hreturned] at hthrown
  cases hthrown

end Executable

/-! ## Code that parses every line -/

/-- The library member that an instruction uses. -/
def Instruction.member? (constants : StoredPool) (insn : Instruction) : Option Member :=
  (insn.operation 0).member? constants

namespace Instruction

@[simp]
theorem member?_plain (constants : StoredPool) (op : Opcode) :
    (plain op).member? constants = none := rfl

@[simp]
theorem member?_slot (constants : StoredPool) (op : Opcode) (number : UInt16) :
    (slot op number).member? constants = none := rfl

@[simp]
theorem member?_jump (constants : StoredPool) (op : Opcode) (target : Label) :
    (jump op target).member? constants = none := rfl

@[simp]
theorem member?_bind (constants : StoredPool) (label : Label) :
    (bind label).member? constants = none := rfl

/-- Lines are read by `invokevirtual` alone. -/
theorem filter_ne_readLine {op : Opcode} (hop : op ≠ .invokevirtual) (found : Option Member) :
    found.filter (fun m => m.opcode = op) ≠ some .readLine := by
  intro hreads
  exact hop (of_decide_eq_true (Option.filter_eq_some_iff.1 hreads).2).symm

@[simp]
theorem member?_byte_ne (constants : StoredPool) {op : Opcode} (hop : op ≠ .invokevirtual)
    (operand : UInt8) : (byte op operand).member? constants ≠ some .readLine :=
  filter_ne_readLine hop _

@[simp]
theorem member?_short_ne (constants : StoredPool) {op : Opcode} (hop : op ≠ .invokevirtual)
    (operand : UInt16) : (short op operand).member? constants ≠ some .readLine :=
  filter_ne_readLine hop _

end Instruction

theorem Instruction.member?_operation (constants : StoredPool) (insn : Instruction)
    (distance : Int) : (insn.operation distance).member? constants = insn.member? constants := by
  cases insn <;> rfl

/-- Rows of instructions in which a `parseInt` follows every `readLine`. -/
def ReadsParsed (constants : StoredPool) : List Instruction → Prop
  | [] => True
  | insn :: code =>
    (insn.member? constants = some .readLine →
      ∃ next ∈ code.head?, next.member? constants = some .parseInt) ∧ ReadsParsed constants code

section ReadsParsed

variable {constants : StoredPool} {front back code : List Instruction}

theorem readsParsed_of_ne (h : ∀ insn ∈ code, insn.member? constants ≠ some .readLine) :
    ReadsParsed constants code := by
  induction code with
  | nil => trivial
  | cons insn code ih =>
      rw [List.forall_mem_cons] at h
      exact ⟨fun hreads => absurd hreads h.1, ih h.2⟩

theorem ReadsParsed.append (h : ReadsParsed constants front) (h' : ReadsParsed constants back) :
    ReadsParsed constants (front ++ back) := by
  induction front with
  | nil => exact h'
  | cons insn front ih =>
      obtain ⟨hfirst, hrest⟩ := h
      refine ⟨fun hreads => ?_, ih hrest⟩
      obtain ⟨next, hnext, hparse⟩ := hfirst hreads
      exact ⟨next, List.mem_head?_append_of_mem_head? hnext, hparse⟩

/-- What stands behind a `readLine`. -/
theorem ReadsParsed.next {done todo : List Instruction} {insn : Instruction}
    (h : ReadsParsed constants (done ++ insn :: todo))
    (hreads : insn.member? constants = some .readLine) :
    ∃ next rest, todo = next :: rest ∧ next.member? constants = some .parseInt := by
  induction done with
  | nil =>
      obtain ⟨next, hnext, hparse⟩ := h.1 hreads
      cases todo with
      | nil => cases hnext
      | cons first rest =>
          cases hnext
          exact ⟨_, rest, rfl, hparse⟩
  | cons _ done ih => exact ih h.2

/-- A method parses every line that it reads if its code does. -/
theorem Checked.parsesLines {e : Executable} {c : TypeContext} {body : SymbolicCode}
    {m : MethodCode} {layout : Layout} {flow : Flow} {types : Nat → FrameType}
    (h : Checked e c body m layout flow types)
    (hcode : ReadsParsed e.constants body.instructions.toList) : e.ParsesLines := by
  have hmember : ∀ {f : Frame} {done todo : List Instruction} {insn : Instruction},
      body.instructions.toList = done ++ insn :: todo → insn.isBind = false →
      f.pc = codeSize done → ∃ operation, decode? (e.code.drop f.pc) = some (operation, insn.size) ∧
        operation.member? e.constants = insn.member? e.constants ∧
        e.member? f = insn.member? e.constants := by
    intro f done todo insn hsplit hbind hpc
    obtain ⟨distance, hdecode, -⟩ := h.decode?_eq hsplit hbind
    rw [← hpc] at hdecode
    refine ⟨_, hdecode, insn.member?_operation _ _, ?_⟩
    rw [Executable.member?, hdecode]
    exact insn.member?_operation _ _
  intro input f g hreach hreads hg
  obtain ⟨done, insn, todo, hf, hbind⟩ := h.located_of_reaches hreach
  obtain ⟨operation, hdecode, hoperation, hinsn⟩ := hmember hf.split hbind hf.pc_eq
  rw [hinsn] at hreads
  obtain ⟨hpc, -⟩ := Executable.readLine_of_step hdecode (hoperation.trans hreads) hg
  rw [hf.split] at hcode
  obtain ⟨next, rest, rfl, hparse⟩ := hcode.next hreads
  have hnextBind : next.isBind = false := by
    cases next with
    | bind label => cases hparse
    | _ => rfl
  have hsplit : body.instructions.toList = (done ++ [insn]) ++ next :: rest := by
    rw [hf.split, List.append_assoc]
    rfl
  obtain ⟨-, -, -, hnext⟩ := hmember (f := g) hsplit hnextBind (by
    rw [hpc, hf.pc_eq, codeSize_append]
    rfl)
  exact hnext.trans hparse

end ReadsParsed

end StackCodegen.ClassFile
