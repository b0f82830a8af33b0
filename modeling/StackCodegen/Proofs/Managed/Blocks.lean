import StackCodegen.Machine.Basic
import StackCodegen.Proofs.ClassFile.StraightLine
import StackCodegen.Proofs.Managed.CompiledClass

/-!
# Effects of blocks

A frame agrees with an activation of the reference machine if its stack holds the operands, its
slots the variables, and its lines and printed integers are the machine's input and output
(`Agrees`). The block of a statement without jumps does to the frame what the statement does to the
activation (`corresponds_of_emits`): where the statement goes on the block leaves a frame that
agrees, where it divides by zero or reads past the input the block throws, and where it lacks
operands the block would be refused.
-/

set_option autoImplicit false

namespace StackCodegen.Managed

open ClassFile

/-! ## Places of blocks -/

section Places

variable {pool : StoredPool} {slots : List (String × UInt16)} {length : Nat}

/-- The blocks from a statement on, with the label behind them, start with the statement's label. -/
theorem head_of_emitsAll {index next last : Nat} {statements : List Statement}
    {blocks : List (List Instruction)}
    (h : EmitsAll pool slots length index statements next blocks last) (back : List Instruction) :
    ∃ back', blocks.flatten ++ .bind (index + statements.length) :: back =
      .bind index :: back' := by
  cases h with
  | nil => exact ⟨back, rfl⟩
  | cons head tail => exact ⟨_, rfl⟩

/-- The block of a statement lies between its label and the next. -/
theorem block_of_emitsAll {index next last : Nat} {statements : List Statement}
    {blocks : List (List Instruction)}
    (h : EmitsAll pool slots length index statements next blocks last) (back : List Instruction)
    {i : Nat} {statement : Statement} (hi : statements[i]? = some statement) :
    ∃ front block back' first mid, Emits pool slots length statement first block mid ∧
      blocks.flatten ++ .bind (index + statements.length) :: back =
        front ++ .bind (index + i) :: (block ++ .bind (index + i + 1) :: back') := by
  induction h generalizing i with
  | nil => cases hi
  | @cons index statement' statements next mid last block blocks head tail ih =>
      rw [List.flatten_cons, List.append_assoc, List.length_cons,
        Nat.add_comm statements.length 1, ← Nat.add_assoc]
      cases i with
      | zero =>
          cases hi
          obtain ⟨back', hback⟩ := head_of_emitsAll tail back
          exact ⟨[], block, back', _, _, head, by rw [hback]; rfl⟩
      | succ i =>
          obtain ⟨front, block', back', first, mid', hemits, hcode⟩ := ih hi
          have hindex : index + (i + 1) = index + 1 + i := by omega
          refine ⟨(.bind index :: block) ++ front, block', back', first, mid', hemits, ?_⟩
          rw [hcode, hindex, List.append_assoc]

variable {body : Body} {opening : List Instruction} {blocks : List (List Instruction)}
  {code : SymbolicCode}

theorem Emitted.code_split (h : Emitted pool slots body opening blocks code) :
    code.instructions.toList =
      (opening ++ zeroVariables slots) ++
        (blocks.flatten ++ .bind (0 + body.toList.length) :: [.plain .returnVoid]) := by
  rw [h.code_eq, Nat.zero_add, Array.length_toList, List.append_assoc]

/-- The first label lies behind the opening and the zeroing. -/
theorem Emitted.head (h : Emitted pool slots body opening blocks code) :
    ∃ back, code.instructions.toList = (opening ++ zeroVariables slots) ++ .bind 0 :: back := by
  obtain ⟨back, hback⟩ := head_of_emitsAll h.blocks_emitted [.plain .returnVoid]
  exact ⟨back, by rw [h.code_split, hback]⟩

/-- The block of a statement lies between its label and the next one. -/
theorem Emitted.block (h : Emitted pool slots body opening blocks code) {k : Nat}
    {statement : Statement} (hk : body[k]? = some statement) :
    ∃ front block back first mid, Emits pool slots body.size statement first block mid ∧
      code.instructions.toList = front ++ .bind k :: (block ++ .bind (k + 1) :: back) := by
  rw [← Array.getElem?_toList] at hk
  obtain ⟨front, block, back, first, mid, hemits, hcode⟩ :=
    block_of_emitsAll h.blocks_emitted [.plain .returnVoid] hk
  refine ⟨opening ++ zeroVariables slots ++ front, block, back, first, mid, hemits, ?_⟩
  rw [h.code_split, hcode, List.append_assoc _ front, Nat.zero_add]

/-- Behind the last label there is the `return`. -/
theorem Emitted.last (h : Emitted pool slots body opening blocks code) :
    ∃ front, code.instructions.toList =
      front ++ .bind body.size :: [.plain .returnVoid] :=
  ⟨_, h.code_eq⟩

/-- Every label of a statement, and that of the end, is bound. -/
theorem Emitted.label (h : Emitted pool slots body opening blocks code) {k : Nat}
    (hk : k ≤ body.size) :
    ∃ front back, code.instructions.toList = front ++ .bind k :: back := by
  rcases Nat.lt_or_eq_of_le hk with hlt | rfl
  · obtain ⟨front, block, back, -, -, -, hcode⟩ := h.block (Array.getElem?_eq_getElem hlt)
    exact ⟨front, _, hcode⟩
  · obtain ⟨front, hcode⟩ := h.last
    exact ⟨front, _, hcode⟩

theorem Emitted.size_lt_labelCount (h : Emitted pool slots body opening blocks code) :
    body.size < code.labelCount :=
  (boundLabels_emitsAll h.blocks_emitted (by simp) (Nat.lt_succ_self _)).1

end Places

/-! ## Agreement -/

/-- A frame holds the state of the reference machine. -/
structure Agrees (slots : List (String × UInt16)) (m : Machine) (a : Machine.Activation)
    (f : Frame) : Prop where
  stack_eq : f.stack = a.stack.map .int
  reader_eq : f.locals readerSlot = some (.object .reader)
  locals_eq : ∀ name slot, (name, slot) ∈ slots →
    f.locals slot = some (.int (a.values.getD name 0))
  input_eq : f.input = m.input
  output_eq : f.output = m.output.toList

/-- The faults at a statement that a compiled routine answers by throwing. -/
def Throws (index : Nat) : Fault → Prop
  | .divisionByZero _ index' => index' = index
  | .inputExhausted => True
  | _ => False

/-- What the block of a statement leads to, next to what the statement does. -/
def Corresponds (slots : List (String × UInt16)) (body : Body) (index next : Nat) :
    Machine.Progress → Outcome → Prop
  | .running r, .running g =>
    r.callers = [] ∧ r.active.body = body ∧ r.active.next = next ∧
      Agrees slots r.machine r.active g
  | .stopped m (.error fault), .thrown g => Throws index fault ∧ g.output = m.output.toList
  | .stopped _ (.error _), .violation _ => True
  | _, _ => False

/-! ## Single instructions -/

section Instructions

variable {e : Executable} {f : Frame} {next : Nat}

theorem execute_iconst {value : Int32} {op : Opcode} (h : Opcode.iconst? value = some op) :
    f.execute e next (.plain op) = f.resume next (.int value :: f.stack) := by
  unfold Opcode.iconst? at h
  repeat' split at h
  all_goals first
    | cases h; done
    | cases h
      subst value
      rfl

/-- Every form of a constant push pushes its value. -/
theorem execute_pushes {value : Int32} {insn : Instruction}
    (h : Pushes e.constants value insn) :
    f.execute e next (insn.operation 0) = f.resume next (.int value :: f.stack) := by
  cases h with
  | iconst h => exact execute_iconst h
  | bipush _ h =>
      have hround : value.toInt8.toUInt8.toInt8.toInt32 = value := by
        apply Int32.toInt_inj.1
        rw [Int8.toInt8_toUInt8, Int8.toInt_toInt32, Int32.toInt_toInt8]
        exact Int.bmod_eq_of_le (by omega) (by omega)
      change f.resume next (.int value.toInt8.toUInt8.toInt8.toInt32 :: f.stack) = _
      rw [hround]
  | sipush _ h =>
      have hround : value.toInt16.toUInt16.toInt16.toInt32 = value := by
        apply Int32.toInt_inj.1
        rw [Int16.toInt16_toUInt16, Int16.toInt_toInt32, Int32.toInt_toInt16]
        exact Int.bmod_eq_of_le (by omega) (by omega)
      change f.resume next (.int value.toInt16.toUInt16.toInt16.toInt32 :: f.stack) = _
      rw [hround]
  | ldc _ h => exact Frame.execute_pushByte h
  | ldcW _ _ h => exact Frame.execute_push h

theorem straight_of_pushes {pool : StoredPool} {value : Int32} {insn : Instruction}
    (h : Pushes pool value insn) : insn.straight = true := by
  cases h with
  | iconst h =>
      unfold Opcode.iconst? at h
      repeat' split at h
      all_goals first
        | cases h; done
        | cases h
          rfl
  | _ => rfl

theorem straight_of_opens {pool : StoredPool} {opening : List Instruction}
    (h : Opens pool opening) : ∀ insn ∈ opening, insn.straight = true := by
  cases h
  simp [Instruction.straight]

theorem straight_zeroVariables (slots : List (String × UInt16)) :
    ∀ insn ∈ zeroVariables slots, insn.straight = true := by
  intro insn hinsn
  obtain ⟨entry, -, hinsn⟩ := List.mem_flatMap.1 hinsn
  simp only [List.mem_cons, List.not_mem_nil, or_false] at hinsn
  rcases hinsn with rfl | rfl <;> rfl

/-- The opcode of an arithmetic operator has its meaning. -/
theorem operator?_of_arithmetic? {op : BinaryOp} {opcode : Opcode}
    (h : arithmetic? op = some opcode) : opcode.operator? = some op.eval := by
  cases op <;> cases h <;> rfl

end Instructions

/-! ## Blocks without jumps -/

theorem runLine_single (e : Executable) (f : Frame) (insn : Instruction) :
    f.runLine e [insn] = f.execute e (f.pc + insn.size) (insn.operation 0) := by
  rw [Frame.runLine]
  split
  next g heq => rw [heq]; rfl
  next => rfl

theorem runLine_cons {e : Executable} {f g : Frame} {insn : Instruction} {code : List Instruction}
    (h : f.execute e (f.pc + insn.size) (insn.operation 0) = .running g) :
    f.runLine e (insn :: code) = g.runLine e code := by
  rw [Frame.runLine, h]

section Straight

variable {e : Executable} {slots : List (String × UInt16)} {limits : Limits} {program : Program}
  {m : Machine} {a : Machine.Activation} {f : Frame}

/-- The effect of a straight statement that goes on: the stack and the variables change, and with
them the frame. -/
theorem Agrees.resume (h : Agrees slots m a f) (pc : Nat) (stack : List Int32) :
    Agrees slots m { a with stack := stack } { f with pc := pc, stack := stack.map .int } :=
  ⟨rfl, h.reader_eq, h.locals_eq, h.input_eq, h.output_eq⟩

/-- A variable is stored in its own slot. -/
theorem Agrees.store (hslots : Laid slots) (h : Agrees slots m a f) (pc : Nat) {name : String}
    {slot : UInt16} (hmem : (name, slot) ∈ slots) (value : Int32) (stack : List Int32) :
    Agrees slots m { a with stack := stack, values := a.values.insert name value }
      { f with
        pc := pc, stack := stack.map .int,
        locals := Function.update f.locals slot (some (.int value)) } := by
  refine ⟨rfl, ?_, ?_, h.input_eq, h.output_eq⟩
  · have hne : readerSlot ≠ slot := by
      rintro rfl
      exact absurd (hslots.slot_bounds hmem).1 (by decide)
    exact (Function.update_of_ne hne _ _).trans h.reader_eq
  · intro name' slot' hmem'
    dsimp only
    by_cases hslot : slot' = slot
    · subst hslot
      rw [hslots.slot_injective hmem' hmem, Function.update_self, Std.TreeMap.getD_insert_self]
    · have hname : name' ≠ name := by
        rintro rfl
        exact hslot (hslots.slot_unique hmem' hmem)
      have hcompare : compare name name' ≠ .eq := by
        rw [ne_eq, Std.compare_eq_iff_eq]
        exact hname.symm
      rw [Function.update_of_ne hslot, Std.TreeMap.getD_insert, if_neg hcompare]
      exact h.locals_eq name' slot' hmem'

/-- Reading: a line is read and parsed, or parsing throws at the end of the input. -/
theorem corresponds_read (hslots : Laid slots) (hmax : e.maxLocals =
      (mainContext e.constants slots.length).maxLocals) {line parse : UInt16}
    (hline : e.constants.member? line = some .readLine)
    (hparse : e.constants.member? parse = some .parseInt) (h : Agrees slots m a f) (index : Nat) :
    Corresponds slots a.body index a.next
      (Machine.execute limits program m a [] index (.call (.intrinsic .read)))
      (f.runLine e [.slot .aload readerSlot, useOf .readLine line, useOf .parseInt parse]) := by
  rw [runLine_cons (Frame.execute_aload (hmax ▸ readerSlot_lt hslots) h.reader_eq),
    runLine_cons (g := _) ((Frame.execute_use hline).trans rfl), runLine_single]
  change Corresponds slots a.body index a.next _
    (Frame.execute e _ _ (.short Member.parseInt.opcode parse))
  rw [Frame.execute_use hparse]
  have hinput := h.input_eq
  cases hm : m.input with
  | nil =>
      rw [hm] at hinput
      simp only [Machine.execute, Machine.call, Callee.arity, Intrinsic.arity,
        Machine.splitArguments, hm, Frame.use, hinput]
      exact ⟨trivial, h.output_eq⟩
  | cons value input =>
      rw [hm] at hinput
      simp only [Machine.execute, Machine.call, Callee.arity, Intrinsic.arity,
        Machine.splitArguments, hm, Frame.use, hinput]
      refine ⟨rfl, rfl, rfl, ?_, h.reader_eq, h.locals_eq, rfl, h.output_eq⟩
      exact congrArg (Value.int value :: ·) h.stack_eq

/-- Writing: the topmost integer is printed. -/
theorem corresponds_write {out print : UInt16} (hout : e.constants.member? out = some .stdout)
    (hprint : e.constants.member? print = some .println) (h : Agrees slots m a f) (index : Nat) :
    Corresponds slots a.body index a.next
      (Machine.execute limits program m a [] index (.call (.intrinsic .write)))
      (f.runLine e [useOf .stdout out, .plain .swap, useOf .println print]) := by
  rw [runLine_cons (g := _) ((Frame.execute_use hout).trans rfl)]
  have hstack := h.stack_eq
  cases hs : a.stack with
  | nil =>
      rw [hs] at hstack
      have hrefused : Frame.runLine e [.plain .swap, useOf .println print]
          { f with
            pc := f.pc + (useOf .stdout out).size, stack := .object .printStream :: f.stack } =
          .violation .operands := by
        rw [Frame.runLine, Instruction.operation, hstack, List.map_nil]
        rfl
      rw [hrefused]
      simp only [Machine.execute, Machine.call, Callee.arity, Intrinsic.arity,
        Machine.splitArguments, hs]
      trivial
  | cons value stack =>
      rw [hs, List.map_cons] at hstack
      rw [runLine_cons (g := _) ((Frame.execute_swap (by rw [hstack])).trans rfl), runLine_single]
      change Corresponds slots a.body index a.next _
        (Frame.execute e _ _ (.short Member.println.opcode print))
      rw [Frame.execute_use hprint]
      simp only [Machine.execute, Machine.call, Callee.arity, Intrinsic.arity,
        Machine.splitArguments, hs, Frame.use]
      refine ⟨rfl, rfl, rfl, rfl, h.reader_eq, h.locals_eq, h.input_eq, ?_⟩
      dsimp only
      rw [h.output_eq, Array.toList_appendList]

/-- A store takes off the value of its variable. -/
theorem corresponds_store (hslots : Laid slots)
    (hmax : e.maxLocals = (mainContext e.constants slots.length).maxLocals) {name : String}
    {slot : UInt16} (hmem : (name, slot) ∈ slots) (h : Agrees slots m a f) (index : Nat) :
    Corresponds slots a.body index a.next
      (Machine.execute limits program m a [] index (.store name))
      (f.runLine e [.slot .istore slot]) := by
  have hslot := hmax ▸ (slot_settled e.constants hslots hmem).1
  have hstack := h.stack_eq
  rw [runLine_single]
  change Corresponds slots a.body index a.next _ (Frame.execute e f _ (.slot .istore slot))
  cases hs : a.stack with
  | nil =>
      rw [hs, List.map_nil] at hstack
      simp only [Machine.execute, hs, Frame.execute, Frame.access,
        if_neg (UInt16.not_le.2 hslot), hstack]
      trivial
  | cons value stack =>
      rw [hs, List.map_cons] at hstack
      rw [Frame.execute_istore hslot hstack]
      simp only [Machine.execute, hs]
      exact ⟨rfl, rfl, rfl, h.store hslots _ hmem value stack⟩

/-- An arithmetic operator takes off two words and leaves its result, or throws. -/
theorem corresponds_arithmetic {op : BinaryOp} {opcode : Opcode}
    (hopcode : arithmetic? op = some opcode) (h : Agrees slots m a f) (index : Nat) :
    Corresponds slots a.body index a.next
      (Machine.execute limits program m a [] index (.binary op))
      (f.runLine e [.plain opcode]) := by
  have hoperator := operator?_of_arithmetic? hopcode
  have hstack := h.stack_eq
  rw [runLine_single]
  change Corresponds slots a.body index a.next _ (f.plain _ opcode)
  rcases hs : a.stack with _ | ⟨right, _ | ⟨left, stack⟩⟩
  · rw [Frame.plain_operator_short hoperator (by rw [hstack, hs]; simp)]
    simp only [Machine.execute, hs]
    trivial
  · rw [Frame.plain_operator_short hoperator (by rw [hstack, hs]; simp)]
    simp only [Machine.execute, hs]
    trivial
  · rw [hs, List.map_cons, List.map_cons] at hstack
    rw [Frame.plain_operator hoperator hstack]
    simp only [Machine.execute, hs]
    cases op.eval left right with
    | some value => exact ⟨rfl, rfl, rfl, h.resume _ (value :: stack)⟩
    | none => exact ⟨rfl, h.output_eq⟩

/-- A block without jumps does what its statement does. -/
theorem corresponds_of_emits (limits : Limits) (program : Program) (hslots : Laid slots)
    (hmax : e.maxLocals = (mainContext e.constants slots.length).maxLocals) {length next mid : Nat}
    {statement : Statement} {block : List Instruction}
    (hemits : Emits e.constants slots length statement next block mid)
    (hstraight : ∀ insn ∈ block, insn.straight = true) (h : Agrees slots m a f) (index : Nat) :
    Corresponds slots a.body index a.next
      (Machine.execute limits program m a [] index statement) (f.runLine e block) := by
  have hstack := h.stack_eq
  cases hemits with
  | nop =>
      exact ⟨rfl, rfl, rfl, h.stack_eq, h.reader_eq, h.locals_eq, h.input_eq, h.output_eq⟩
  | @push next value insn hpushes =>
      rw [runLine_single, execute_pushes hpushes, hstack]
      exact ⟨rfl, rfl, rfl, h.resume _ (value :: a.stack)⟩
  | @load next name slot hmem =>
      have hslot := hmax ▸ (slot_settled e.constants hslots hmem).1
      rw [runLine_single]
      change Corresponds slots a.body index a.next _ (Frame.execute e f _ (.slot .iload slot))
      rw [Frame.execute_iload hslot (h.locals_eq name slot hmem), hstack]
      exact ⟨rfl, rfl, rfl, h.resume _ (a.values.getD name 0 :: a.stack)⟩
  | store hmem => exact corresponds_store hslots hmax hmem h index
  | negate =>
      rw [runLine_single]
      cases hs : a.stack with
      | nil =>
          rw [hs, List.map_nil] at hstack
          rw [Instruction.operation, Frame.execute_of_empty (by decide) hstack]
          simp only [Machine.execute, hs]
          trivial
      | cons value stack =>
          rw [hs, List.map_cons] at hstack
          rw [Instruction.operation, Frame.execute_ineg hstack]
          simp only [Machine.execute, hs]
          exact ⟨rfl, rfl, rfl, h.resume _ (-value :: stack)⟩
  | arithmetic hopcode => exact corresponds_arithmetic hopcode h index
  | read hline hparse => exact corresponds_read hslots hmax hline hparse h index
  | write hout hprint => exact corresponds_write hout hprint h index
  | pop =>
      rw [runLine_single]
      cases hs : a.stack with
      | nil =>
          rw [hs, List.map_nil] at hstack
          rw [Instruction.operation, Frame.execute_of_empty (by decide) hstack]
          simp only [Machine.execute, hs]
          trivial
      | cons value stack =>
          rw [hs, List.map_cons] at hstack
          rw [Instruction.operation, Frame.execute_pop hstack]
          simp only [Machine.execute, hs]
          exact ⟨rfl, rfl, rfl, h.resume _ stack⟩
  | comparison | jump | jumpIfZero => simp [comparison, Instruction.straight] at hstraight

end Straight

end StackCodegen.Managed
