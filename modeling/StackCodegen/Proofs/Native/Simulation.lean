import StackCodegen.Proofs.Native.Calls

/-!
# Native code does what the statements do

Between two statements the reference machine's run is met by a processor that stands at the label of
the active call's next statement, with `%ebp` at the base of the call's frame, `%esp` at the end of
its operands, and the frames of all callers above (`Meets`). Each step of the reference machine is
followed by the code of one statement (`follows`), if a load finds 0 where the variable was not
stored, and if no quotient overflows (`Regular`).
-/

set_option autoImplicit false

namespace StackCodegen.Native

/-- A processor that stands where a run of the reference machine stands. The active call is of `f`,
its frame lies at `base`, and it was entered by `entered`. -/
structure Meets (x : Executable) (program : Program) (start : Cpu) (r : Machine.Run) (c : Cpu)
    (f : Function) (base : Int) (entered : Cpu) : Prop where
  running : Running program f r.active
  at_label : x.position? (statementLabel f.name r.active.next) = some c.pc
  esp_eq : c.registers .esp = .address (operandTop f base r.active.stack.length)
  ebp_eq : c.registers .ebp = .address base
  holds : Holds c.memory f base entered r.active.stack r.active.values
  chain : Chain x program start c.memory entered f base r.callers
  steps : x.Steps entered c
  input_eq : c.input = r.machine.input
  output_eq : c.output = r.machine.output.toList

/-- What native code asks of a statement: a variable that was not stored reads 0, and a quotient has
32 bits. -/
structure Regular (memory : Memory) (f : Function) (base : Int) (a : Machine.Activation) :
    Prop where
  load : ∀ name offset, f.body[a.next]? = some (.load name) → a.values[name]? = none →
    f.frame.offset? name = some offset → memory (base + offset) = .data 0
  quotient : ∀ op right left rest, f.body[a.next]? = some (.binary op) → op = .div ∨ op = .rem →
    a.stack = right :: left :: rest → ¬ Overflows left right

/-! ## Where a call goes on -/

/-- The end of a body is reached where its last statement is no return. -/
theorem needsImplicitReturn_of_last {body : Body} {s : Statement} {k : Nat}
    (hk : body[k]? = some s) (hs : s.isReturn = false) (hend : k + 1 = body.size) :
    needsImplicitReturn body = true := by
  have hback : body.back? = some s := by
    rw [Array.back?_eq_getElem?, ← hend, Nat.add_sub_cancel]
    exact hk
  rw [needsImplicitReturn, hback, Option.any_some, hs]
  rfl

/-- The end of a body is reached where something jumps there. -/
theorem needsImplicitReturn_of_target {body : Body} {s : Statement} {k : Nat} {target : UInt64}
    (hk : body[k]? = some s) (hs : s.jumpTarget? = some target) (hend : target.toNat = body.size) :
    needsImplicitReturn body = true := by
  have hmem : (k, target) ∈ body.jumpTargets := Body.mem_jumpTargets.2 ⟨s, hk, hs⟩
  rw [needsImplicitReturn, Bool.or_eq_true]
  exact .inr (List.any_eq_true.2 ⟨_, hmem, by simpa using hend⟩)

/-- The end of an empty body is reached. -/
theorem needsImplicitReturn_of_empty {body : Body} (hend : 0 = body.size) :
    needsImplicitReturn body = true := by
  have hback : body.back? = none := by
    rw [Array.back?_eq_getElem?, Array.getElem?_eq_none_iff]
    omega
  rw [needsImplicitReturn, hback]
  rfl

namespace Running

variable {program : Program} {f : Function} {a : Machine.Activation}

theorem mem (h : Running program f a) : f ∈ program.functions :=
  List.mem_of_find?_eq_some h.function_eq

/-- Behind a statement that is no return there is another one, or an end that is reached. -/
theorem next_statement (h : Running program f a) {s : Statement} {k : Nat}
    (hk : f.body[k]? = some s) (hs : s.isReturn = false) (stack : List Int32)
    (values : Std.TreeMap String Int32) :
    Running program f { a with next := k + 1, stack := stack, values := values } :=
  ⟨h.function_eq, h.body_eq, (Array.getElem?_eq_some_iff.1 hk).1,
    needsImplicitReturn_of_last hk hs⟩

/-- The target of a jump is a statement, or an end that is reached. -/
theorem next_target (h : Running program f a) {s : Statement} {k : Nat} {target : UInt64}
    (hk : f.body[k]? = some s) (hs : s.jumpTarget? = some target)
    (htarget : target.toNat ≤ f.body.size) (stack : List Int32) :
    Running program f { a with next := target.toNat, stack := stack } :=
  ⟨h.function_eq, h.body_eq, htarget, needsImplicitReturn_of_target hk hs⟩

/-- A call starts at its first statement, or at an end that is reached. -/
theorem first (hf : program.function? f.name = some f) (depth : Nat)
    (values : Std.TreeMap String Int32) :
    Running program f ⟨f.name, f.body, 0, depth, [], values⟩ :=
  ⟨hf, rfl, Nat.zero_le _, needsImplicitReturn_of_empty⟩

end Running

/-! ## Statements without jumps and calls -/

section Straight

variable {x : Executable} {program : Program} {start c d entered : Cpu} {r : Machine.Run}
  {f : Function} {base : Int} {k : Nat} {s : Statement}

/-- The code of the statement at a label, and where the one behind it lies. -/
theorem Loads.located (h : Loads program x) (hf : f ∈ program.functions)
    (hlabel : x.position? (statementLabel f.name k) = some c.pc) (hk : f.body[k]? = some s) :
    ∃ code front back, lowerStatement x.platform program f f.frame.table k s = .ok code ∧
      front.length = c.pc + 1 ∧ x.Step c (c.goto (c.pc + 1)) ∧
      x.items = front ++ (code.map .code ++
        .label (statementLabel f.name (k + 1)) none :: back) ∧
      x.position? (statementLabel f.name (k + 1)) = some (c.pc + 1 + code.length) := by
  obtain ⟨code, front, back, hcode, hitems⟩ := h.statement hf hk
  have hpc : front.length = c.pc := by
    have hposition := position?_eq h.nodup hitems
    rw [hlabel] at hposition
    exact (Option.some.inj hposition).symm
  have hitems' : x.items = (front ++ [.label (statementLabel f.name k) none]) ++
      (code.map .code ++ .label (statementLabel f.name (k + 1)) none :: back) := by
    rw [hitems]
    simp
  have hitems'' : x.items = (front ++ [.label (statementLabel f.name k) none] ++
      code.map .code) ++ .label (statementLabel f.name (k + 1)) none :: back := by
    rw [hitems']
    simp
  refine ⟨code, _, back, hcode, ?_, ?_, hitems', ?_⟩
  · rw [List.length_append, hpc]
    rfl
  · rw [← hpc]
    exact Executable.step_of_label hitems hpc.symm
  · rw [position?_eq h.nodup hitems'', List.length_append, List.length_append, hpc,
      List.length_map]
    rfl

/-- The code of the next statement, and where the one behind it lies. -/
theorem Meets.statement (h : Linked program x) (hmeets : Meets x program start r c f base entered)
    (hk : f.body[r.active.next]? = some s) :
    ∃ code front back,
      lowerStatement x.platform program f f.frame.table r.active.next s = .ok code ∧
      front.length = c.pc + 1 ∧ x.Step c (c.goto (c.pc + 1)) ∧
      x.items = front ++ (code.map .code ++
        .label (statementLabel f.name (r.active.next + 1)) none :: back) ∧
      x.position? (statementLabel f.name (r.active.next + 1)) = some (c.pc + 1 + code.length) :=
  h.loads.located hmeets.running.mem hmeets.at_label hk

/-- A row of straight instructions leads to the next statement. -/
theorem Meets.advance (h : Linked program x) (hmeets : Meets x program start r c f base entered)
    (hk : f.body[r.active.next]? = some s) (hs : s.isReturn = false) {code : List Instruction}
    (hcode : lowerStatement x.platform program f f.frame.table r.active.next s = .ok code)
    (hstraight : ∀ insn ∈ code, insn.straight = true) {stack : List Int32}
    {values : Std.TreeMap String Int32} {memory : Memory}
    (hholds : Holds memory f base entered stack values)
    (hchain : Chain x program start memory entered f base r.callers)
    (hrun : x.runLine code (c.goto (c.pc + 1)) = some d)
    (hd : (c.goto (c.pc + 1)).Became d (operandTop f base stack.length) memory) {m : Machine}
    (hinput : m.input = r.machine.input) (houtput : m.output = r.machine.output) :
    x.Steps c d ∧ Meets x program start
      ⟨m, { r.active with next := r.active.next + 1, stack := stack, values := values }, r.callers⟩
      d f base entered := by
  obtain ⟨code', front, back, hcode', hfront, hstep, hitems, hnext⟩ := hmeets.statement h hk
  cases hcode.symm.trans hcode'
  obtain ⟨hsteps, hpc⟩ := Executable.steps_of_runLine (c := c.goto (c.pc + 1)) hitems hfront.symm
    hstraight hrun
  have hsteps' : x.Steps c d := .head hstep hsteps
  refine ⟨hsteps', ⟨hmeets.running.next_statement hk hs stack values, ?_, hd.esp_eq, ?_, ?_, ?_,
    hmeets.steps.trans hsteps', ?_, ?_⟩⟩
  · rw [hnext, hpc, hfront]
  · exact hd.ebp_eq.trans hmeets.ebp_eq
  · rw [hd.memory_eq]
    exact hholds
  · rw [hd.memory_eq]
    exact hchain
  · rw [hd.input_eq, hinput]
    exact hmeets.input_eq
  · rw [hd.output_eq, houtput]
    exact hmeets.output_eq

/-- A row that leaves one more word on some of the operands leads to the next statement. -/
theorem Meets.advance_push (h : Linked program x)
    (hmeets : Meets x program start r c f base entered) (hk : f.body[r.active.next]? = some s)
    (hs : s.isReturn = false) {code : List Instruction}
    (hcode : lowerStatement x.platform program f f.frame.table r.active.next s = .ok code)
    (hstraight : ∀ insn ∈ code, insn.straight = true) {rest : List Int32} {value : Int32}
    (hholds : Holds c.memory f base entered rest r.active.values)
    (hrun : x.runLine code (c.goto (c.pc + 1)) = some d)
    (hd : (c.goto (c.pc + 1)).Became d (operandTop f base rest.length - 4)
      (c.memory.store (operandTop f base rest.length - 4) (.data value))) {m : Machine}
    (hinput : m.input = r.machine.input) (houtput : m.output = r.machine.output) :
    x.Steps c d ∧ Meets x program start
      ⟨m, { r.active with next := r.active.next + 1, stack := value :: rest }, r.callers⟩
      d f base entered := by
  -- the word lies below the locals, so the frames of the callers are as they were
  have hlow : operandTop f base rest.length - 4 + 4 ≤ base := by
    have htop := operandTop_le f base rest.length
    have hsize := f.localsSize_nonneg
    omega
  exact hmeets.advance h hk hs hcode hstraight (hholds.push value)
    (hmeets.chain.storeBelow hlow _) hrun ((operandTop_succ f base rest.length).symm ▸ hd)
    hinput houtput

/-- A variable is found in its word, where a load of it asks nothing else of memory. -/
theorem Meets.value?_variable (hmeets : Meets x program start r c f base entered)
    (hregular : Regular c.memory f base r.active) {name : String} {offset : Int}
    (hk : f.body[r.active.next]? = some (.load name))
    (hoffset : f.frame.offset? name = some offset) :
    (c.goto (c.pc + 1)).value? (.memory offset .ebp) =
      some (.data (r.active.values.getD name 0)) := by
  have hebp : (c.goto (c.pc + 1)).registers .ebp = .address base := hmeets.ebp_eq
  rw [Cpu.value?, Cpu.address?_eq hebp, Option.map_some, Cpu.memory_goto,
    Std.TreeMap.getD_eq_getD_getElem?]
  cases hstored : r.active.values[name]? with
  | some value =>
      rw [hmeets.holds.stored name value offset hstored hoffset]
      rfl
  | none =>
      rw [hregular.load name offset hk hstored hoffset]
      rfl

/-- What a step of the reference machine leads to is met again, in the same frame. -/
def MeetsAgain (x : Executable) (program : Program) (start c : Cpu) (f : Function) (base : Int)
    (entered : Cpu) : Machine.Progress → Prop
  | .running r => ∃ d, x.Steps c d ∧ Meets x program start r d f base entered
  | .stopped _ (.ok _) => False
  | .stopped _ (.error _) => True

theorem wordOf_eq_ok {function : String} {frame : Frame} {name : String} {operand : Operand}
    (h : wordOf function frame.table name = .ok operand) :
    ∃ offset, frame.offset? name = some offset ∧ operand = .memory offset .ebp := by
  unfold wordOf at h
  split at h
  next offset hoffset =>
      cases h
      exact ⟨offset, hoffset, rfl⟩
  next => cases h

theorem straight_lowerBinary (op : BinaryOp) :
    ∀ insn ∈ lowerBinary op, insn.straight = true := by
  cases op <;> decide

/-- Code without jumps and calls follows its statement. -/
theorem follows_straight (h : Linked program x)
    (hmeets : Meets x program start r c f base entered)
    (hregular : Regular c.memory f base r.active) (hk : f.body[r.active.next]? = some s)
    (hs : s.jumpTarget? = none ∧ s.isReturn = false ∧ ∀ callee, s ≠ .call callee)
    {limits : Limits} {m : Machine} (hinput : m.input = r.machine.input)
    (houtput : m.output = r.machine.output) :
    MeetsAgain x program start c f base entered
      (Machine.execute limits program m { r.active with next := r.active.next + 1 } r.callers
        r.active.next s) := by
  have hesp : (c.goto (c.pc + 1)).registers .esp =
      .address (operandTop f base r.active.stack.length) := hmeets.esp_eq
  have hebp : (c.goto (c.pc + 1)).registers .ebp = .address base := hmeets.ebp_eq
  have hholds := hmeets.holds
  cases s with
  | nop =>
      exact ⟨_, hmeets.advance h hk rfl rfl (by simp) hholds hmeets.chain rfl
        ⟨hesp, rfl, rfl, rfl, rfl⟩ hinput houtput⟩
  | push value =>
      obtain ⟨d, hrun, hd⟩ := Executable.runLine_push (x := x)
        (.immediate value.toInt) hesp rfl
      rw [Int32.ofInt_toInt] at hd
      exact ⟨d, hmeets.advance_push h hk rfl rfl (by simp [Instruction.straight]) hholds hrun hd
        hinput houtput⟩
  | load name =>
      obtain ⟨code, front, back, hcode, -⟩ := hmeets.statement h hk
      have hlower := hcode
      obtain ⟨operand, hword, hcode⟩ := bind_eq_ok.1 hcode
      cases hcode
      obtain ⟨offset, hoffset, rfl⟩ := wordOf_eq_ok hword
      obtain ⟨d, hrun, hd⟩ := Executable.runLine_push (x := x) _ hesp
        (hmeets.value?_variable hregular hk hoffset)
      exact ⟨d, hmeets.advance_push h hk rfl hlower (by simp [Instruction.straight]) hholds hrun
        hd hinput houtput⟩
  | store name =>
      obtain ⟨code, front, back, hcode, -⟩ := hmeets.statement h hk
      have hlower := hcode
      obtain ⟨operand, hword, hcode⟩ := bind_eq_ok.1 hcode
      cases hcode
      obtain ⟨offset, hoffset, rfl⟩ := wordOf_eq_ok hword
      cases hstack : r.active.stack with
      | nil => simp only [Machine.execute, hstack]; trivial
      | cons value rest =>
          rw [hstack] at hholds hesp
          obtain ⟨d, hrun, hd⟩ := Executable.runLine_popVariable (x := x) offset hesp hebp
          rw [Cpu.memory_goto, List.length_cons, hholds.top, operandTop_succ,
            Int.sub_add_cancel] at hd
          simp only [Machine.execute, hstack]
          exact ⟨d, hmeets.advance h hk rfl hlower (by simp [Instruction.straight])
            (hholds.pop.store hoffset value)
            (hmeets.chain.storeVariable hoffset _) hrun hd
            hinput houtput⟩
  | negate =>
      cases hstack : r.active.stack with
      | nil => simp only [Machine.execute, hstack]; trivial
      | cons value rest =>
          rw [hstack] at hholds hesp
          obtain ⟨d, hrun, hd⟩ := Executable.runLine_negate (x := x) hesp hholds.top
          rw [List.length_cons, operandTop_succ] at hd
          simp only [Machine.execute, hstack]
          exact ⟨d, hmeets.advance_push h hk rfl rfl (by simp [Instruction.straight]) hholds.pop
            hrun hd hinput houtput⟩
  | binary op =>
      rcases hstack : r.active.stack with _ | ⟨right, _ | ⟨left, rest⟩⟩
      · simp only [Machine.execute, hstack]
        trivial
      · simp only [Machine.execute, hstack]
        trivial
      · simp only [Machine.execute, hstack]
        cases heval : op.eval left right with
        | none => trivial
        | some value =>
            rw [hstack] at hholds hesp
            -- the left operand lies one word above the right one, where the result goes
            have htop : operandTop f base (rest.length + 1) =
                operandTop f base (rest.length + 1 + 1) + 4 := by
              rw [operandTop_succ _ _ (rest.length + 1)]
              omega
            have hleft := hholds.pop.top
            rw [htop] at hleft
            obtain ⟨d, hrun, hd⟩ := Executable.runLine_lowerBinary (x := x) hesp hholds.top hleft
              heval fun hop => hregular.quotient op right left rest hk hop hstack
            rw [List.length_cons, List.length_cons, ← htop, operandTop_succ] at hd
            exact ⟨d, hmeets.advance_push h hk rfl rfl (straight_lowerBinary op) hholds.pop.pop
              hrun hd hinput houtput⟩
  | pop =>
      cases hstack : r.active.stack with
      | nil => simp only [Machine.execute, hstack]; trivial
      | cons value rest =>
          rw [hstack] at hholds hesp
          obtain ⟨d, hrun, -, -, hd⟩ := Executable.runLine_pop (x := x) (r := .eax) hesp
            (by decide) (by decide)
          rw [List.length_cons, operandTop_succ, Int.sub_add_cancel] at hd
          simp only [Machine.execute, hstack]
          exact ⟨d, hmeets.advance h hk rfl rfl (by simp [Instruction.straight]) hholds.pop
            hmeets.chain hrun hd hinput houtput⟩
  | jump target | jumpIfZero target => cases hs.1
  | call callee => exact absurd rfl (hs.2.2 callee)
  | returnZero | returnTop => cases hs.2.1
  | prepareArguments => trivial

theorem jumpLabel_eq_ok {target : UInt64} {label : String}
    (h : lowerStatement.jumpLabel f k target = .ok label) :
    target.toNat ≤ f.body.size ∧ label = statementLabel f.name target.toNat := by
  obtain ⟨position, hposition, rfl⟩ := map_eq_ok.1 h
  obtain ⟨hle, rfl⟩ := resolveJump_eq_ok.1 hposition
  exact ⟨hle, rfl⟩

/-- A jump leads to its target. -/
theorem follows_jump (h : Linked program x) (hmeets : Meets x program start r c f base entered)
    {target : UInt64} (hk : f.body[r.active.next]? = some (.jump target)) {limits : Limits}
    {m : Machine} (hinput : m.input = r.machine.input) (houtput : m.output = r.machine.output) :
    MeetsAgain x program start c f base entered
      (Machine.execute limits program m { r.active with next := r.active.next + 1 } r.callers
        r.active.next (.jump target)) := by
  obtain ⟨code, front, back, hcode, hfront, hstep, hitems, -⟩ := hmeets.statement h hk
  obtain ⟨label, hlabel, hcode⟩ := bind_eq_ok.1 hcode
  cases hcode
  obtain ⟨htarget, rfl⟩ := jumpLabel_eq_ok hlabel
  obtain ⟨position, hposition⟩ := h.loads.label hmeets.running.mem htarget
  have hinside : ¬ r.active.body.size < target.toNat := by
    rw [hmeets.running.body_eq]
    omega
  simp only [Machine.execute, if_neg hinside]
  have hjmp : x.Step (c.goto (c.pc + 1)) (c.goto position) := by
    refine Executable.step_of_execute? (c := c.goto (c.pc + 1)) hitems hfront.symm ?_
    rw [Executable.execute?, hposition]
    rfl
  have hsteps : x.Steps c (c.goto position) := (Relation.ReflTransGen.single hstep).tail hjmp
  exact ⟨_, hsteps, hmeets.running.next_target hk rfl htarget _, hposition, hmeets.esp_eq,
    hmeets.ebp_eq, hmeets.holds, hmeets.chain, hmeets.steps.trans hsteps,
    hmeets.input_eq.trans hinput.symm, hmeets.output_eq.trans (congrArg _ houtput.symm)⟩

/-- A conditional jump leads to its target on 0, else to the next statement. -/
theorem follows_jumpIfZero (h : Linked program x)
    (hmeets : Meets x program start r c f base entered) {target : UInt64}
    (hk : f.body[r.active.next]? = some (.jumpIfZero target)) {limits : Limits} {m : Machine}
    (hinput : m.input = r.machine.input) (houtput : m.output = r.machine.output) :
    MeetsAgain x program start c f base entered
      (Machine.execute limits program m { r.active with next := r.active.next + 1 } r.callers
        r.active.next (.jumpIfZero target)) := by
  obtain ⟨code, front, back, hcode, hfront, hstep, hitems, hnext⟩ := hmeets.statement h hk
  obtain ⟨label, hlabel, hcode⟩ := bind_eq_ok.1 hcode
  cases hcode
  obtain ⟨htarget, rfl⟩ := jumpLabel_eq_ok hlabel
  obtain ⟨position, hposition⟩ := h.loads.label hmeets.running.mem htarget
  have hinside : ¬ r.active.body.size < target.toNat := by
    rw [hmeets.running.body_eq]
    omega
  cases hstack : r.active.stack with
  | nil => simp only [Machine.execute, hstack]; trivial
  | cons value rest =>
      have hesp : (c.goto (c.pc + 1)).registers .esp =
          .address (operandTop f base r.active.stack.length) := hmeets.esp_eq
      have hholds := hmeets.holds
      rw [hstack] at hholds hesp
      obtain ⟨d, hrun, hflags, hd⟩ := Executable.runLine_test (x := x) hesp hholds.top
      rw [List.length_cons, operandTop_succ, Int.sub_add_cancel] at hd
      have hitems' : x.items = front ++ ([.pop (reg .eax), .cmp (.immediate 0) (reg .eax)].map
          .code ++ .code (.jz (statementLabel f.name target.toNat)) ::
            .label (statementLabel f.name (r.active.next + 1)) none :: back) := hitems
      obtain ⟨hsteps, hpc⟩ := Executable.steps_of_runLine (c := c.goto (c.pc + 1)) hitems'
        hfront.symm (by simp [Instruction.straight]) hrun
      have hzero : (Flags.ofSub value 0).zero = decide (value = 0) := zero_ofSub value 0
      have hitems'' : x.items = (front ++ [.pop (reg .eax), .cmp (.immediate 0) (reg .eax)].map
          .code) ++ .code (.jz (statementLabel f.name target.toNat)) ::
            .label (statementLabel f.name (r.active.next + 1)) none :: back := by
        rw [hitems']
        simp
      -- what holds wherever the processor goes on in the same frame
      have hmeet : ∀ position next, x.Step d (d.goto position) →
          x.position? (statementLabel f.name next) = some position →
          Running program f { r.active with next := next, stack := rest } →
          ∃ e, x.Steps c e ∧ Meets x program start
            ⟨m, { r.active with next := next, stack := rest }, r.callers⟩ e f base entered := by
        intro position next hjz hposition hrunning
        have hall : x.Steps c (d.goto position) :=
          (Relation.ReflTransGen.head hstep hsteps).tail hjz
        refine ⟨_, hall, hrunning, hposition, hd.esp_eq, hd.ebp_eq.trans hmeets.ebp_eq, ?_, ?_,
          hmeets.steps.trans hall, ?_, ?_⟩
        · rw [Cpu.memory_goto, hd.memory_eq]
          exact hholds.pop
        · rw [Cpu.memory_goto, hd.memory_eq]
          exact hmeets.chain
        · rw [Cpu.input_goto, hd.input_eq, hinput]
          exact hmeets.input_eq
        · rw [Cpu.output_goto, hd.output_eq, houtput]
          exact hmeets.output_eq
      have hexecute : ∀ e, (if (Flags.ofSub value 0).zero = true then
            (x.position? (statementLabel f.name target.toNat)).map (d.goto (d.pc + 1)).goto
          else some (d.goto (d.pc + 1))) = some e → x.Step d e := by
        intro e he
        refine Executable.step_of_execute? hitems'' (by rw [hpc]; simp) ?_
        rw [Executable.execute?, Cpu.flags_goto, hflags, Option.bind_eq_bind, Option.bind_some,
          ← he, hpc]
        simp
      simp only [Machine.execute, hstack, if_neg hinside]
      by_cases hvalue : value = 0
      · rw [if_pos hvalue]
        rw [hzero, if_pos (by simpa using hvalue), hposition] at hexecute
        exact hmeet position _ (hexecute _ rfl) hposition
          (hmeets.running.next_target hk rfl htarget _)
      · rw [if_neg hvalue]
        rw [hzero, if_neg (by simpa using hvalue)] at hexecute
        refine hmeet _ _ (hexecute _ rfl) ?_
          (hmeets.running.next_statement hk rfl rest r.active.values)
        rw [hnext, hpc, hfront]
        rfl

end Straight

end StackCodegen.Native
