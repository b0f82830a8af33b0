import StackCodegen.Proofs.Machine.Runs
import StackCodegen.Proofs.Native.Simulation

/-!
# Native code does what calls and returns do

A call of the runtime leaves the operands of the caller alone, since it may only touch what lies
below them (`follows_read`, `follows_write`). A call of a function puts the caller's frame on the
chain and starts a frame of its own (`follows_function`), and a return takes the innermost frame off
the chain again (`follows_return`). With these every statement is followed by its code, and so every
step of the reference machine is (`follows`).
-/

set_option autoImplicit false

namespace StackCodegen.Native

variable {x : Executable} {program : Program} {start c d entered : Cpu} {r : Machine.Run}
  {f : Function} {base : Int} {limits : Limits} {m : Machine}

/-- The code of a call comes to the call itself, with copies of the arguments on the stack. -/
theorem steps_copies {n : Nat} {front rest : List Item} {top : Int}
    (hitems : x.items = front ++ ((copiesCode n).map .code ++ rest)) (hpc : c.pc = front.length)
    (hesp : c.registers .esp = .address top) :
    ∃ d, x.Steps c d ∧ d.pc = (front ++ (copiesCode n).map Item.code).length ∧
      c.Became d (top - 4 * n) d.memory ∧ (∀ p, top ≤ p → d.memory p = c.memory p) ∧
      ∀ j : Nat, j < n → d.memory (top - 4 * (j + 1)) = c.memory (top + 4 * j) := by
  obtain ⟨d, hrun, hd, habove, hcopied⟩ := Executable.runLine_copies (x := x) hesp n
  obtain ⟨hsteps, hend⟩ := Executable.steps_of_runLine hitems hpc (Executable.straight_copiesCode n)
    hrun
  refine ⟨d, hsteps, ?_, hd, habove, hcopied⟩
  rw [hend, List.length_append, List.length_map]

/-- A call of code comes to its symbol, with the place behind the call on the stack. -/
theorem step_call {symbol : String} {position : Nat} {front back : List Item} {top : Int}
    (hitems : x.items = front ++ .code (.call symbol) :: back) (hpc : c.pc = front.length)
    (hesp : c.registers .esp = .address top) (hposition : x.position? symbol = some position) :
    ∃ d, x.Step c d ∧ d.pc = position ∧
      c.Became d (top - 4) (c.memory.store (top - 4) (.code (front.length + 1))) := by
  have hcall : x.execute? (c.goto (front.length + 1)) (.call symbol) =
      some ((((c.goto (front.length + 1)).set .esp (.address (top - 4))).store (top - 4)
        (.code (front.length + 1))).goto position) := by
    rw [Executable.execute?, Executable.call?, hposition,
      Cpu.push?_eq (c := c.goto (front.length + 1)) hesp]
    rfl
  exact ⟨_, Executable.step_of_execute? hitems hpc hcall, rfl, by simp, by simp, rfl, rfl, rfl⟩

/-- A call of a function comes to its symbol, with copies of the arguments and the place behind
the call on the stack. -/
theorem steps_call {g : Function} {next position : Nat} {front back : List Item} {top : Int}
    (hitems : x.items = front ++ ((copiesCode g.arity ++
      Instruction.call (x.platform.symbol g.name) ::
        (releaseCode g.arity ++ [Instruction.push (reg .eax)])).map .code ++
        .label (statementLabel f.name next) none :: back))
    (hpc : c.pc = front.length) (hesp : c.registers .esp = .address top)
    (hposition : x.position? (x.platform.symbol g.name) = some position) :
    ∃ d place, x.Steps c d ∧ d.pc = position ∧
      d.registers .esp = .address (top - 4 * g.arity - 4) ∧ d.registers .ebp = c.registers .ebp ∧
      d.memory (top - 4 * g.arity - 4) = .code place ∧ ReturnsTo x g f next place ∧
      (∀ p, top ≤ p → d.memory p = c.memory p) ∧
      (∀ j : Nat, j < g.arity → d.memory (top - 4 * (j + 1)) = c.memory (top + 4 * j)) ∧
      d.input = c.input ∧ d.output = c.output := by
  have hcopy : x.items = front ++ ((copiesCode g.arity).map .code ++
      (.code (.call (x.platform.symbol g.name)) ::
        ((releaseCode g.arity ++ [Instruction.push (reg .eax)]).map .code ++
          .label (statementLabel f.name next) none :: back))) := by
    rw [hitems]
    simp
  obtain ⟨d, hsteps, hlength, hd, habove, hcopied⟩ := steps_copies hcopy hpc hesp
  rw [← List.append_assoc] at hcopy
  obtain ⟨e, hcall, hepc, he⟩ := step_call hcopy hlength hd.esp_eq hposition
  have hreturns : x.items = (front ++ (copiesCode g.arity).map .code ++
      [.code (.call (x.platform.symbol g.name))]) ++
        ((releaseCode g.arity ++ [Instruction.push (reg .eax)]).map .code ++
          .label (statementLabel f.name next) none :: back) := by
    rw [hcopy]
    simp
  have hkept : ∀ p, top - 4 * g.arity ≤ p → e.memory p = d.memory p := by
    intro p hp
    rw [he.memory_eq]
    exact Memory.store_of_apart (.inr (by omega))
  refine ⟨e, _, hsteps.tail hcall, hepc, he.esp_eq, he.ebp_eq.trans hd.ebp_eq,
    by rw [he.memory_eq, Memory.store_self], ⟨_, back, ?_, hreturns⟩, ?_, ?_,
    he.input_eq.trans hd.input_eq, he.output_eq.trans hd.output_eq⟩
  · rw [List.length_append]
    rfl
  · intro p hp
    exact (hkept p (by omega)).trans (habove p hp)
  · intro j hj
    exact (hkept _ (by omega)).trans (hcopied j hj)

/-! ## Services -/

/-- A call of the runtime is one step, to the place behind it. -/
theorem step_service (h : Linked program x) {service : Intrinsic} {front back : List Item}
    (hitems : x.items = front ++ .code (.call (x.platform.symbol service.symbol)) :: back)
    (hpc : c.pc = front.length)
    (hservice :
      (c.goto (front.length + 1)).service? (x.runtime (c.goto (front.length + 1))) service =
      some d) : x.Step c d := by
  refine Executable.step_of_execute? hitems hpc ?_
  rw [Executable.execute?, Executable.call?, h.position?_service, Linked.service?_eq]
  exact hservice

theorem pc_service? {residue : Residue} {service : Intrinsic}
    (h : c.service? residue service = some d) : d.pc = c.pc := by
  unfold Cpu.service? at h
  repeat' split at h
  all_goals cases h
  all_goals rfl

/-- Operands and frames stay where nothing at or above the operands is changed. -/
theorem Meets.kept (hmeets : Meets x program start r c f base entered) (memory : Memory)
    {stack : List Int32} (hholds : Holds c.memory f base entered stack r.active.values)
    (hkept : ∀ p, operandTop f base stack.length ≤ p → memory p = c.memory p) :
    Holds memory f base entered stack r.active.values ∧
      Chain x program start memory entered f base r.callers := by
  have htop := operandTop_le f base stack.length
  have hsize := f.localsSize_nonneg
  refine ⟨hholds.congr (fun p hp _ => hkept p hp) fun p hp _ => hkept p (by omega), ?_⟩
  exact hmeets.chain.congr (hkept _ (by omega)) (hkept _ (by omega))
    fun p hp => hkept p (by omega)

/-- The code behind a call releases both copies of the arguments, and pushes the answer if there
is one. -/
theorem steps_release {n : Nat} {returnsValue : Bool} {front rest : List Item} {top : Int}
    (hitems : x.items = front ++
      ((releaseCode n ++ if returnsValue then [Instruction.push (reg .eax)] else []).map .code ++
        rest))
    (hpc : c.pc = front.length) (hesp : c.registers .esp = .address (top - 8 * n)) :
    ∃ d, x.Steps c d ∧ d.pc = front.length +
        (releaseCode n ++ if returnsValue then [Instruction.push (reg .eax)] else []).length ∧
      c.Became d (if returnsValue then top - 4 else top)
        (if returnsValue then c.memory.store (top - 4) (c.registers .eax) else c.memory) := by
  obtain ⟨d, hrelease, heax, hd⟩ := Executable.runLine_release (x := x) hesp n
  rw [Int.sub_add_cancel] at hd
  cases returnsValue with
  | false =>
      rw [if_neg Bool.false_ne_true, List.append_nil] at hitems ⊢
      obtain ⟨hsteps, hend⟩ := Executable.steps_of_runLine hitems hpc
        (Executable.straight_releaseCode n) hrelease
      exact ⟨d, hsteps, hend, hd⟩
  | true =>
      rw [if_pos rfl] at hitems ⊢
      obtain ⟨e, hpush, he⟩ := Executable.runLine_push (x := x) (reg .eax) hd.esp_eq rfl
      obtain ⟨hsteps, hend⟩ := Executable.steps_of_runLine hitems hpc
        (fun insn hinsn => (List.mem_append.1 hinsn).elim (Executable.straight_releaseCode n insn)
          fun hpush => by cases List.mem_singleton.1 hpush; rfl)
        ((Executable.runLine_append hrelease).trans hpush)
      rw [hd.memory_eq, heax] at he
      exact ⟨e, hsteps, hend, hd.trans he⟩

/-- Behind a call the arguments are released and the answer is pushed, up to the next
statement. -/
theorem meets_of_release (h : Linked program x) {a : Machine.Activation}
    {callers : List Machine.Activation} {front back : List Item} (n : Nat) (returnsValue : Bool)
    (value : Int32) (running : Running program f a)
    (holds : Holds c.memory f base entered a.stack a.values)
    (chain : Chain x program start c.memory entered f base callers) (steps : x.Steps entered c)
    (hitems : x.items = front ++
      ((releaseCode n ++ if returnsValue then [Instruction.push (reg .eax)] else []).map .code ++
        .label (statementLabel f.name a.next) none :: back))
    (hpc : c.pc = front.length)
    (hesp : c.registers .esp = .address (operandTop f base a.stack.length - 8 * n))
    (hebp : c.registers .ebp = .address base)
    (hanswer : returnsValue = true → c.registers .eax = .data value)
    (hinput : c.input = m.input) (houtput : c.output = m.output.toList) :
    ∃ d, x.Steps c d ∧ Meets x program start
      ⟨m, { a with stack := if returnsValue then value :: a.stack else a.stack }, callers⟩ d f base
        entered := by
  have htop := operandTop_le f base a.stack.length
  have hsize := f.localsSize_nonneg
  obtain ⟨d, hsteps, hend, hd⟩ := steps_release hitems hpc hesp
  have hlabel : x.position? (statementLabel f.name a.next) = some d.pc := by
    rw [← List.append_assoc] at hitems
    rw [position?_eq h.loads.nodup hitems, hend, List.length_append, List.length_map]
  refine ⟨d, hsteps, ⟨running.function_eq, running.body_eq, running.next_le, running.ending⟩,
    hlabel, ?_, hd.ebp_eq.trans hebp, ?_, ?_, steps.trans hsteps, hd.input_eq.trans hinput,
    hd.output_eq.trans houtput⟩
  · cases returnsValue with
    | false => exact hd.esp_eq
    | true => exact hd.esp_eq.trans (congrArg _ (operandTop_succ f base a.stack.length).symm)
  · cases returnsValue with
    | false => exact hd.memory_eq ▸ holds
    | true =>
        rw [hd.memory_eq, if_pos rfl, hanswer rfl]
        exact holds.push value
  · cases returnsValue with
    | false => exact hd.memory_eq ▸ chain
    | true =>
        rw [hd.memory_eq, if_pos rfl]
        exact chain.storeBelow (by omega) _

/-- Behind a call of the runtime the run is met again, if the runtime kept what lies at or above
the operands that stay. -/
theorem Meets.behind_service (h : Linked program x)
    (hmeets : Meets x program start r c f base entered) {service : Intrinsic}
    (hk : f.body[r.active.next]? = some (.call (.intrinsic service))) {front back : List Item}
    {rest : List Int32} {value : Int32}
    (hitems : x.items = front ++ .code (.call (x.platform.symbol service.symbol)) ::
      ((releaseCode service.arity ++
        if service.returnsValue then [Instruction.push (reg .eax)] else []).map .code ++
          .label (statementLabel f.name (r.active.next + 1)) none :: back))
    (hsteps : x.Steps c d) (hpc : d.pc = front.length + 1)
    (hholds : Holds c.memory f base entered rest r.active.values)
    (hkept : ∀ p, operandTop f base rest.length ≤ p → d.memory p = c.memory p)
    (hesp : d.registers .esp = .address (operandTop f base rest.length - 8 * service.arity))
    (hebp : d.registers .ebp = .address base)
    (hanswer : service.returnsValue = true → d.registers .eax = .data value)
    (hinput : d.input = m.input) (houtput : d.output = m.output.toList) :
    ∃ e, x.Steps c e ∧ Meets x program start
      ⟨m, { r.active with
        next := r.active.next + 1
        stack := if service.returnsValue then value :: rest else rest }, r.callers⟩
      e f base entered := by
  obtain ⟨hholds', hchain⟩ := hmeets.kept d.memory hholds hkept
  have hbehind : x.items = (front ++ [.code (.call (x.platform.symbol service.symbol))]) ++
      ((releaseCode service.arity ++
        if service.returnsValue then [Instruction.push (reg .eax)] else []).map .code ++
          .label (statementLabel f.name (r.active.next + 1)) none :: back) := by
    rw [hitems, List.append_assoc]
    rfl
  have hlength : d.pc =
      (front ++ [Item.code (.call (x.platform.symbol service.symbol))]).length := by
    rw [hpc, List.length_append]
    rfl
  obtain ⟨e, hsteps', hmeets'⟩ := meets_of_release h service.arity service.returnsValue value
    (hmeets.running.next_statement hk rfl rest _) hholds' hchain (hmeets.steps.trans hsteps)
    hbehind hlength hesp hebp hanswer hinput houtput
  exact ⟨e, hsteps.trans hsteps', hmeets'⟩

/-- Reading puts the next integer on top. -/
theorem follows_read (h : Linked program x) (hmeets : Meets x program start r c f base entered)
    (hk : f.body[r.active.next]? = some (.call (.intrinsic .read)))
    (hinput : m.input = r.machine.input) (houtput : m.output = r.machine.output) :
    MeetsAgain x program start c f base entered
      (Machine.execute limits program m { r.active with next := r.active.next + 1 } r.callers
        r.active.next (.call (.intrinsic .read))) := by
  obtain ⟨code, front, back, hcode, hfront, hstep, hitems, hnext⟩ := hmeets.statement h hk
  cases hcode
  simp only [Machine.execute, Machine.call, Callee.arity, Intrinsic.arity, Machine.splitArguments]
  cases hqueue : m.input with
  | nil => trivial
  | cons value input =>
      have hesp : c.registers .esp = .address (operandTop f base r.active.stack.length) :=
        hmeets.esp_eq
      have hcinput : c.input = value :: input := by
        rw [hmeets.input_eq, ← hinput, hqueue]
      obtain ⟨d, hservice, hd⟩ : ∃ d, (c.goto (front.length + 1)).service?
            (x.runtime (c.goto (front.length + 1))) .read = some d ∧
          d = { (c.goto (front.length + 1)).returned (x.runtime (c.goto (front.length + 1)))
            (operandTop f base r.active.stack.length) (.data value) with input := input } := by
        refine ⟨_, ?_, rfl⟩
        simp only [Cpu.service?, Cpu.address?, Cpu.registers_goto, hesp, Cpu.input_goto, hcinput]
      have hsteps : x.Steps c d := (Relation.ReflTransGen.single hstep).tail
        (step_service h (c := c.goto (c.pc + 1)) hitems hfront.symm hservice)
      refine hmeets.behind_service (m := { m with input := input }) h hk hitems hsteps
        (pc_service? hservice) hmeets.holds (fun p hp => ?_) ?_ ?_ (fun _ => ?_) ?_ ?_ <;> rw [hd]
      · exact if_neg (by omega)
      · exact hesp.trans (by simp [Intrinsic.arity])
      · exact hmeets.ebp_eq
      · rfl
      · exact hmeets.output_eq.trans (congrArg _ houtput.symm)

/-- Writing takes the topmost integer off and hands it to the runtime. -/
theorem follows_write (h : Linked program x) (hmeets : Meets x program start r c f base entered)
    (hk : f.body[r.active.next]? = some (.call (.intrinsic .write)))
    (hinput : m.input = r.machine.input) (houtput : m.output = r.machine.output) :
    MeetsAgain x program start c f base entered
      (Machine.execute limits program m { r.active with next := r.active.next + 1 } r.callers
        r.active.next (.call (.intrinsic .write))) := by
  obtain ⟨code, front, back, hcode, hfront, hstep, hitems, hnext⟩ := hmeets.statement h hk
  obtain rfl : callSequence (x.platform.symbol Intrinsic.write.symbol) 1 false = code :=
    Except.ok.inj hcode
  simp only [Machine.execute, Machine.call, Callee.arity, Intrinsic.arity]
  cases hstack : r.active.stack with
  | nil => trivial
  | cons value rest =>
      simp only [Machine.splitArguments]
      have hesp : c.registers .esp = .address (operandTop f base (rest.length + 1)) := by
        rw [hmeets.esp_eq, hstack]
        rfl
      have hholds := hmeets.holds
      rw [hstack] at hholds
      -- the value is copied below the operands, and the runtime writes the copy
      rw [callSequence_eq, List.map_append, List.append_assoc] at hitems
      obtain ⟨d, hsteps, hdpc, hd, habove, hcopied⟩ :=
        steps_copies (c := c.goto (c.pc + 1)) hitems hfront.symm hesp
      have hvalue : d.memory (operandTop f base (rest.length + 1) - 4) = .data value := by
        have hcopy := hcopied 0 (by omega)
        simpa [hholds.top] using hcopy
      rw [← List.append_assoc] at hitems
      obtain ⟨e, hservice, he⟩ : ∃ e, (d.goto (d.pc + 1)).service?
            (x.runtime (d.goto (d.pc + 1))) .write = some e ∧
          e = { (d.goto (d.pc + 1)).returned (x.runtime (d.goto (d.pc + 1)))
            (operandTop f base (rest.length + 1) - 4 + 4) (x.runtime (d.goto (d.pc + 1))).eax with
              output := d.output ++ [value] } := by
        refine ⟨_, ?_, rfl⟩
        have hdesp : d.registers .esp = .address (operandTop f base (rest.length + 1) - 4) := by
          simpa using hd.esp_eq
        simp only [Cpu.service?, Cpu.address?, Cpu.registers_goto, hdesp, Cpu.memory_goto, hvalue,
          Cpu.output_goto]
      have hsteps' : x.Steps c e := (Relation.ReflTransGen.head hstep hsteps).tail
        (step_service h hitems hdpc (hdpc ▸ hservice))
      have htop := operandTop_succ f base rest.length
      have hanswer : Intrinsic.write.returnsValue = true → e.registers .eax = .data value :=
        fun hreturns => by cases hreturns
      refine hmeets.behind_service (m := { m with output := m.output ++ [value] }) h hk hitems
        hsteps' (hdpc ▸ pc_service? hservice) hholds.pop (fun p hp => ?_) ?_ ?_ hanswer ?_ ?_ <;>
        rw [he]
      · exact (if_neg (by omega)).trans (habove p (by omega))
      · refine hd.esp_eq.trans (congrArg _ ?_)
        simp only [Intrinsic.arity]
        omega
      · exact hd.ebp_eq.trans hmeets.ebp_eq
      · exact hd.input_eq.trans (hmeets.input_eq.trans hinput.symm)
      · have hwritten : d.output = r.machine.output.toList := hd.output_eq.trans hmeets.output_eq
        rw [houtput]
        simp [hwritten]

/-! ## Entering a function -/

/-- The frame of a function right behind its prologue holds the arguments. -/
theorem holds_entered {g : Function} (hnodup : g.declaration.parameters.Nodup)
    {arguments : List Int32} (hlength : arguments.length = g.arity)
    (harguments : ∀ (i : Nat) (value : Int32), arguments[i]? = some value →
      c.memory (base + 8 + 4 * i) = .data value) (w : Word) :
    Holds (c.memory.store base w) g base c []
      (.ofList (g.declaration.parameters.zip arguments)) := by
  have hnames : (g.declaration.parameters.zip arguments).map Prod.fst = g.declaration.parameters :=
    List.map_fst_zip (Nat.le_of_eq hlength.symm)
  have hslot : ∀ name offset, g.frame.offset? name = some offset →
      c.memory.store base w (base + offset) = c.memory (base + offset) := by
    intro name offset hoffset
    obtain ⟨-, hbounds⟩ := Function.offset?_bounds hoffset
    exact Memory.store_of_apart (by omega)
  refine ⟨fun i value hi => by simp at hi, ?_,
    fun name offset _ hoffset => hslot name offset hoffset,
    ?_⟩
  · intro name value offset hvalue hoffset
    rw [getElem?_ofList (by rwa [hnames])] at hvalue
    obtain ⟨i, hi⟩ := List.getElem?_of_mem hvalue
    rw [List.getElem?_zip_eq_some] at hi
    rw [Function.offset?_parameter (firstAt_of_nodup hnodup hi.1)] at hoffset
    cases hoffset
    have hplace : base + (8 + 4 * (i : Int)) = base + 8 + 4 * i := by omega
    rw [hslot name _ (Function.offset?_parameter (firstAt_of_nodup hnodup hi.1)), hplace]
    exact harguments i value hi.2
  · intro name hname
    rw [Std.TreeMap.mem_ofList, hnames, List.contains_eq_mem, decide_eq_true_iff]
    exact hname

/-- From its symbol a function comes to its first statement, with `%ebp` saved at the base of
its frame and room for its locals. -/
theorem Loads.steps_prologue (h : Loads program x) {g : Function} (hg : g ∈ program.functions)
    (hentered : Entered x g base c) :
    ∃ d, x.Steps c d ∧ x.position? (statementLabel g.name 0) = some d.pc ∧
      d.registers .esp = .address (base - g.frame.localsSize) ∧ d.registers .ebp = .address base ∧
      d.memory = c.memory.store base (c.registers .ebp) ∧ d.input = c.input ∧
      d.output = c.output := by
  obtain ⟨front, back, hitems⟩ := h.opening hg
  have hpc : c.pc = front.length := by
    have hposition := position?_eq h.nodup hitems
    rw [hentered.at_symbol] at hposition
    exact Option.some.inj hposition
  have hstep := Executable.step_of_label hitems hpc
  have hprologue : x.items = (front ++ [.label (x.platform.symbol g.name) none]) ++
      ((prologue g.frame).map .code ++ .label (statementLabel g.name 0) none :: back) := by
    rw [hitems]
    simp [Function.frame]
  obtain ⟨d, hrun, hd⟩ := Executable.runLine_prologue (x := x) (f := g)
    (c := c.goto (front.length + 1)) hentered.esp_eq
  obtain ⟨hsteps, hdpc⟩ := Executable.steps_of_runLine hprologue (by simp)
    (Executable.straight_prologue _) hrun
  rw [← List.append_assoc] at hprologue
  refine ⟨d, .head hstep hsteps, ?_, hd⟩
  rw [position?_eq h.nodup hprologue, hdpc, List.length_append, List.length_map]

/-- A function that is entered comes to its first statement. -/
theorem meets_of_entered (h : Linked program x) {g : Function}
    (hg : program.function? g.name = some g) (hentered : Entered x g base c)
    {arguments : List Int32} (hlength : arguments.length = g.arity)
    (harguments : ∀ (i : Nat) (value : Int32), arguments[i]? = some value →
      c.memory (base + 8 + 4 * i) = .data value)
    {callers : List Machine.Activation}
    (chain : Chain x program start (c.memory.store base (c.registers .ebp)) c g base callers)
    (depth : Nat) (hinput : c.input = m.input) (houtput : c.output = m.output.toList) :
    ∃ d, x.Steps c d ∧ Meets x program start
      ⟨m, ⟨g.name, g.body, 0, depth, [], .ofList (g.declaration.parameters.zip arguments)⟩, callers⟩
        d g base c := by
  have hmem : g ∈ program.functions := List.mem_of_find?_eq_some hg
  obtain ⟨d, hsteps, hlabel, hesp, hebp, hmemory, hdinput, hdoutput⟩ :=
    h.loads.steps_prologue hmem hentered
  refine ⟨d, hsteps, Running.first hg depth _, hlabel, ?_, hebp, ?_, ?_, hsteps,
    hdinput.trans hinput, hdoutput.trans houtput⟩
  · rw [hesp, operandTop]
    simp
  · rw [hmemory]
    exact holds_entered (h.nodup g hmem) hlength harguments _
  · rw [hmemory]
    exact chain

/-! ## Calling a function -/

/-- A processor that went back to where the entry was called from, the return address having lain at
`top`: the value is in `%eax`, `%esp` and `%ebp` are as before the call, and so is all memory of the
caller. -/
structure Returned (start : Cpu) (top : Int) (d : Cpu) (value : Int32) : Prop where
  pc_eq : start.memory top = .code d.pc
  eax_eq : d.registers .eax = .data value
  esp_eq : d.registers .esp = .address (top + 4)
  ebp_eq : d.registers .ebp = start.registers .ebp
  memory_eq : ∀ p, top + 4 ≤ p → d.memory p = start.memory p

/-- What a step of the reference machine leads to is met by the processor: a run in some frame, and
the end with the value returned. Faults of the reference machine are left open. -/
def Followed (x : Executable) (program : Program) (start : Cpu) (top : Int) (c : Cpu) :
    Machine.Progress → Prop
  | .running r => ∃ d f base entered, x.Steps c d ∧ Meets x program start r d f base entered
  | .stopped m (.ok value) =>
    ∃ d, x.Steps c d ∧ Returned start top d value ∧ d.output = m.output.toList
  | .stopped _ (.error _) => True

theorem MeetsAgain.followed {top : Int} {progress : Machine.Progress}
    (h : MeetsAgain x program start c f base entered progress) :
    Followed x program start top c progress := by
  cases progress with
  | running r =>
      obtain ⟨d, hsteps, hmeets⟩ := h
      exact ⟨d, f, base, entered, hsteps, hmeets⟩
  | stopped m outcome =>
      cases outcome with
      | ok value => exact h.elim
      | error fault => trivial

/-- A call of a function comes to its first statement, the caller's frame being on the chain. -/
theorem follows_function (h : Linked program x) (hmeets : Meets x program start r c f base entered)
    {declaration : Declaration}
    (hk : f.body[r.active.next]? = some (.call (.function declaration))) {top : Int}
    (hinput : m.input = r.machine.input) (houtput : m.output = r.machine.output) :
    Followed x program start top c
      (Machine.execute limits program m { r.active with next := r.active.next + 1 } r.callers
        r.active.next (.call (.function declaration))) := by
  obtain ⟨code, front, back, hcode, hfront, hstep, hitems, hnext⟩ := hmeets.statement h hk
  obtain ⟨g, hg, harity, rfl⟩ := lowerCall_function_eq_ok hcode
  have hname := name_of_function? hg
  have hmem : g ∈ program.functions := List.mem_of_find?_eq_some hg
  rw [← harity, ← hname, callSequence_eq] at hitems
  simp only [Machine.execute, Machine.call, Callee.arity]
  cases hsplit : Machine.splitArguments declaration.arity r.active.stack [] with
  | none => trivial
  | some split =>
      obtain ⟨arguments, rest⟩ := split
      obtain ⟨hle, rfl, rfl⟩ := Machine.splitArguments_eq hsplit
      simp only [hg]
      rw [if_pos (show g.declaration.arity = declaration.arity from harity), Machine.enter]
      split
      · trivial
      obtain ⟨position, hposition⟩ := h.loads.symbol hmem
      rw [← harity] at hle ⊢
      obtain ⟨d, place, hsteps, hdpc, hdesp, hdebp, hplace, hreturns, habove, hcopied, hdinput,
        hdoutput⟩ := steps_call (c := c.goto (c.pc + 1)) hitems hfront.symm hmeets.esp_eq hposition
      have hsteps' : x.Steps c d := .head hstep hsteps
      have hdrop := operandTop_drop f base hle
      -- the base of the new frame lies below the return address
      obtain ⟨base', hbase⟩ : ∃ base', base' + 4 =
          operandTop f base r.active.stack.length - 4 * g.arity - 4 := ⟨_, Int.sub_add_cancel _ 4⟩
      rw [← hbase] at hdesp hplace
      have hkept : ∀ p, operandTop f base (r.active.stack.drop g.arity).length ≤ p →
          d.memory.store base' (d.registers .ebp) p = c.memory p := by
        intro p hp
        rw [Memory.store_of_apart (.inr (by omega))]
        exact habove p (by omega)
      obtain ⟨hholds, hchain⟩ := hmeets.kept _ (hmeets.holds.drop hle) hkept
      have hentered : Entered x g base' d := ⟨by rw [hdpc, hposition], hdesp⟩
      have hchain' : Chain x program start (d.memory.store base' (d.registers .ebp)) d g base'
          ({ r.active with next := r.active.next + 1, stack := r.active.stack.drop g.arity } ::
            r.callers) := by
        refine .caller hentered ?_ ?_ hreturns (hmeets.running.next_statement hk rfl _ _) hholds ?_
          (hmeets.steps.trans hsteps') hchain
        · rw [Memory.store_self]
          exact hdebp.trans hmeets.ebp_eq
        · rw [Memory.store_of_apart (.inr (by omega)), hplace]
        · change _ = operandTop f base (r.active.stack.drop g.arity).length
          omega
      have harguments : ∀ (i : Nat) (value : Int32),
          ((r.active.stack.take g.arity).reverse ++ [])[i]? = some value →
            d.memory (base' + 8 + 4 * i) = .data value := by
        intro i value hi
        rw [List.append_nil] at hi
        have hlt : i < g.arity := by
          have := (List.getElem?_eq_some_iff.1 hi).1
          rw [List.length_reverse, List.length_take] at this
          omega
        rw [List.getElem?_reverse (by rw [List.length_take]; omega), List.length_take,
          Nat.min_eq_left hle, List.getElem?_take_of_lt (by omega)] at hi
        rw [← hmeets.holds.operand _ value hi]
        refine Eq.trans (congrArg _ ?_) (hcopied (g.arity - 1 - i) (by omega))
        omega
      obtain ⟨e, hsteps'', hmeets'⟩ := meets_of_entered (m := m.note (.enter g.name
        (r.active.depth + 1))) h (hname ▸ hg) hentered (by simp [hle]) harguments hchain'
          (r.active.depth + 1) (hdinput.trans (hmeets.input_eq.trans hinput.symm))
          (hdoutput.trans (hmeets.output_eq.trans (congrArg _ houtput.symm)))
      exact ⟨e, g, base', d, hsteps'.trans hsteps'', hmeets'⟩

/-! ## Returning -/

/-- A return leads behind the call: with the value on the caller's operands, or back to where
the entry was called from. -/
theorem follows_leave (h : Linked program x) {callers : List Machine.Activation}
    (chain : Chain x program start c.memory entered f base callers) (steps : x.Steps entered c)
    {front back : List Item} (hitems : x.items = front ++ (epilogue.map .code ++ back))
    (hpc : c.pc = front.length) {value : Int32} (heax : c.registers .eax = .data value)
    (hebp : c.registers .ebp = .address base) {top : Int} {place : Nat}
    (hstart : start.registers .esp = .address top) (hplace : start.memory top = .code place)
    (hinput : c.input = m.input) (houtput : c.output = m.output.toList) :
    Followed x program start top c (Machine.leave m value callers) := by
  cases chain with
  | outermost isEntered arity saved back above =>
      have htop : top = base + 4 := Word.address.inj (hstart.symm.trans isEntered.esp_eq)
      subst htop
      obtain ⟨d, hsteps, hdpc, hdesp, hdebp, hdeax, hdmemory, hdinput, hdoutput⟩ :=
        Executable.steps_epilogue hitems hpc hebp (back.trans hplace)
      refine ⟨d, hsteps, ⟨by rw [hdpc, hplace], hdeax.trans heax, ?_, hdebp.trans saved, ?_⟩,
        hdoutput.trans houtput⟩
      · rw [hdesp]
        congr 1
        omega
      · intro p hp
        rw [hdmemory]
        exact above p (by omega)
  | @caller _ g _ base' _ entered' a callers position isEntered saved back returns running holds top
      steps' tail =>
      obtain ⟨d, hsteps, hdpc, hdesp, hdebp, hdeax, hdmemory, hdinput, hdoutput⟩ :=
        Executable.steps_epilogue hitems hpc hebp back
      obtain ⟨front', back', hlength, hreturns⟩ := returns
      rw [← hdmemory] at holds tail
      have hesp :
          d.registers .esp = .address (operandTop g base' a.stack.length - 8 * f.arity) := by
        rw [hdesp, ← top, Int.add_sub_cancel]
      obtain ⟨e, hsteps', hmeets⟩ :=
        meets_of_release (m := m) h f.arity true value running holds tail
          ((steps'.trans steps).trans hsteps) hreturns (hdpc.trans hlength.symm) hesp
          (hdebp.trans saved)
        (fun _ => hdeax.trans heax) (hdinput.trans hinput) (hdoutput.trans houtput)
      exact ⟨e, g, base', entered', hsteps.trans hsteps', hmeets⟩

/-- What a return goes back to: the processor where the entry was entered, and the return address
that lay on top of its stack. -/
structure CalledFrom (start : Cpu) (top : Int) (place : Nat) : Prop where
  esp_eq : start.registers .esp = .address top
  back : start.memory top = .code place

/-- A return whose value is put into `%eax` by one instruction. -/
theorem Meets.leave (h : Linked program x) (hmeets : Meets x program start r c f base entered)
    {front back : List Item} {insn : Instruction} (hstraight : insn.straight = true)
    (hitems : x.items = front ++ ((insn :: epilogue).map .code ++ back))
    (hfront : front.length = c.pc + 1) (hstep : x.Step c (c.goto (c.pc + 1)))
    (hrun : x.runLine [insn] (c.goto (c.pc + 1)) = some d) {value : Int32}
    (heax : d.registers .eax = .data value) (hebp : d.registers .ebp = c.registers .ebp)
    (hmemory : d.memory = c.memory) {top : Int} {place : Nat} (hstart : CalledFrom start top place)
    (hinput : d.input = m.input) (houtput : d.output = m.output.toList) :
    Followed x program start top c (Machine.leave m value r.callers) := by
  have hsingle : x.items = front ++ ([insn].map .code ++ (epilogue.map .code ++ back)) := hitems
  obtain ⟨hsteps, hdpc⟩ := Executable.steps_of_runLine (c := c.goto (c.pc + 1)) hsingle hfront.symm
    (fun insn' hmem => by rw [List.mem_singleton.1 hmem]; exact hstraight) hrun
  have hsteps' : x.Steps c d := .head hstep hsteps
  have hepilogue : x.items = (front ++ [.code insn]) ++ (epilogue.map .code ++ back) := by
    rw [hsingle]
    simp
  have hchain := hmeets.chain
  rw [← hmemory] at hchain
  have hfollowed := follows_leave h hchain (hmeets.steps.trans hsteps') hepilogue
    (by rw [hdpc, List.length_append]; rfl) heax (hebp.trans hmeets.ebp_eq) hstart.esp_eq
    hstart.back hinput houtput
  revert hfollowed
  cases Machine.leave m value r.callers with
  | running r' =>
      rintro ⟨e, f', base', entered', hsteps'', hmeets'⟩
      exact ⟨e, f', base', entered', hsteps'.trans hsteps'', hmeets'⟩
  | stopped m' outcome =>
      cases outcome with
      | ok value' =>
          rintro ⟨e, hsteps'', hreturned, houtput'⟩
          exact ⟨e, hsteps'.trans hsteps'', hreturned, houtput'⟩
      | error fault => exact fun _ => trivial

/-- A return of 0. -/
theorem Meets.leaveZero (h : Linked program x) (hmeets : Meets x program start r c f base entered)
    {front back : List Item}
    (hitems : x.items =
      front ++ ((Instruction.mov (.immediate 0) (reg .eax) :: epilogue).map .code ++
      back))
    (hfront : front.length = c.pc + 1) (hstep : x.Step c (c.goto (c.pc + 1)))
    {top : Int} {place : Nat}
    (hstart : CalledFrom start top place) (hinput : m.input = r.machine.input)
    (houtput : m.output = r.machine.output) :
    Followed x program start top c (Machine.leave m 0 r.callers) :=
  hmeets.leave h (d := ((c.goto (c.pc + 1)).goto (c.pc + 1 + 1)).set .eax (.data 0)) rfl hitems
    hfront
    hstep (Executable.runLine_single _) (by simp) (by simp) rfl hstart
    (hmeets.input_eq.trans hinput.symm) (hmeets.output_eq.trans (congrArg _ houtput.symm))

/-- A return with a value leads behind the call. -/
theorem follows_returnTop (h : Linked program x) (hmeets : Meets x program start r c f base entered)
    (hk : f.body[r.active.next]? = some .returnTop) {top : Int} {place : Nat}
    (hstart : CalledFrom start top place) (hinput : m.input = r.machine.input)
    (houtput : m.output = r.machine.output) :
    Followed x program start top c
      (Machine.execute limits program m { r.active with next := r.active.next + 1 } r.callers
        r.active.next .returnTop) := by
  obtain ⟨code, front, back, hcode, hfront, hstep, hitems, hnext⟩ := hmeets.statement h hk
  cases hcode
  simp only [Machine.execute]
  cases hstack : r.active.stack with
  | nil => trivial
  | cons value rest =>
      have hesp : (c.goto (c.pc + 1)).registers .esp =
          .address (operandTop f base (rest.length + 1)) := by
        rw [Cpu.registers_goto, hmeets.esp_eq, hstack]
        rfl
      have hholds := hmeets.holds
      rw [hstack] at hholds
      obtain ⟨d, hrun, hvalue, -, hd⟩ := Executable.runLine_pop (x := x) (r := .eax) hesp
        (by decide)
        (by decide)
      exact hmeets.leave h rfl hitems hfront hstep hrun (hvalue.trans hholds.top) hd.ebp_eq
        hd.memory_eq hstart (hd.input_eq.trans (hmeets.input_eq.trans hinput.symm))
        (hd.output_eq.trans (hmeets.output_eq.trans (congrArg _ houtput.symm)))

/-- A return of 0 leads behind the call. -/
theorem follows_returnZero (h : Linked program x)
    (hmeets : Meets x program start r c f base entered)
    (hk : f.body[r.active.next]? = some .returnZero) {top : Int} {place : Nat}
    (hstart : CalledFrom start top place) (hinput : m.input = r.machine.input)
    (houtput : m.output = r.machine.output) :
    Followed x program start top c
      (Machine.execute limits program m { r.active with next := r.active.next + 1 } r.callers
        r.active.next .returnZero) := by
  obtain ⟨code, front, back, hcode, hfront, hstep, hitems, hnext⟩ := hmeets.statement h hk
  cases hcode
  exact hmeets.leaveZero h hitems hfront hstep hstart hinput houtput

/-- The end of a body leads behind the call. -/
theorem follows_end (h : Linked program x) (hmeets : Meets x program start r c f base entered)
    (hk : r.active.next = f.body.size) {top : Int} {place : Nat}
    (hstart : CalledFrom start top place) (hinput : m.input = r.machine.input)
    (houtput : m.output = r.machine.output) :
    Followed x program start top c (Machine.leave m 0 r.callers) := by
  obtain ⟨front, back, hitems⟩ := h.loads.ending hmeets.running.mem (hmeets.running.ending hk)
  have hpc : c.pc = front.length := by
    have hposition := position?_eq h.loads.nodup hitems
    rw [← hk, hmeets.at_label] at hposition
    exact Option.some.inj hposition
  have hcode : x.items = (front ++ [.label (statementLabel f.name f.body.size) none]) ++
      ((Instruction.mov (.immediate 0) (reg .eax) :: epilogue).map .code ++ back) := by
    rw [hitems]
    simp
  refine hmeets.leaveZero h hcode (by rw [hpc, List.length_append]; rfl) ?_ hstart hinput houtput
  rw [hpc]
  exact Executable.step_of_label hitems hpc

/-! ## Steps -/

/-- Every step of the reference machine is followed by the processor, where a load finds 0 in a
variable that was not stored and no quotient overflows. -/
theorem follows (limits : Limits) (h : Linked program x)
    (hmeets : Meets x program start r c f base entered)
    (hregular : Regular c.memory f base r.active) {top : Int} {place : Nat}
    (hstart : CalledFrom start top place) :
    Followed x program start top c (Machine.step limits program r) := by
  obtain ⟨m, a, callers⟩ := r
  simp only [Machine.step]
  have hbody := hmeets.running.body_eq
  dsimp only at hbody
  cases hk : a.body[a.next]? with
  | none =>
      have hge := Array.getElem?_eq_none_iff.1 hk
      rw [hbody] at hge
      exact follows_end h hmeets (Nat.le_antisymm hmeets.running.next_le hge) hstart rfl rfl
  | some s =>
      rw [hbody] at hk
      dsimp only
      split
      · trivial
      · have hstraight : s.jumpTarget? = none ∧ s.isReturn = false ∧ (∀ callee, s ≠ .call callee) →
            Followed x program start top c
              (Machine.execute limits program m.count { a with next := a.next + 1 } callers
                a.next s) :=
          fun hs => (follows_straight (m := m.count) h hmeets hregular hk hs rfl rfl).followed
        cases s with
        | jump target => exact (follows_jump (m := m.count) h hmeets hk rfl rfl).followed
        | jumpIfZero target =>
            exact (follows_jumpIfZero (m := m.count) h hmeets hk rfl rfl).followed
        | call callee =>
            cases callee with
            | intrinsic service =>
                cases service with
                | read => exact (follows_read (m := m.count) h hmeets hk rfl rfl).followed
                | write => exact (follows_write (m := m.count) h hmeets hk rfl rfl).followed
            | function declaration => exact follows_function h hmeets hk rfl rfl
        | returnZero => exact follows_returnZero h hmeets hk hstart rfl rfl
        | returnTop => exact follows_returnTop h hmeets hk hstart rfl rfl
        | nop | push | load | store | negate | binary | pop | prepareArguments =>
            exact hstraight ⟨rfl, rfl, by simp⟩

end StackCodegen.Native
