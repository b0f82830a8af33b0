import StackCodegen.Machine.Arithmetic
import StackCodegen.Program.Basic
import Std.Data.TreeMap

/-!
# The reference stack machine

A run executes one statement at a time on a stack of activations. Each activation has its own
operand stack and variables; a variable that was never stored reads 0. The input queue, the output
and the step count belong to the machine, so they go on from one run to the next, whether it ends
in a value or in a fault.

Two limits cut runs short. The nesting depth is compared when an activation is entered, before
anything else happens in it. Every statement counts one step of the machine, and the count is
compared before the statement takes effect. An activation that falls off the end of its body
returns 0 and counts no step.

Main statement: a step that goes on lowers `Run.measure` (`measure_lt_of_step`), so every run ends.
-/

set_option autoImplicit false

namespace StackCodegen

/-- Bounds on the nesting of activations and on the number of executed statements. -/
structure Limits where
  maxCallDepth : Nat
  maxSteps : Nat
  deriving DecidableEq

/-- The bounds of an ordinary run. -/
def Limits.standard : Limits := ⟨1024, 10000000⟩

/-- Why a run stopped without a value. -/
inductive Fault where
  | stackUnderflow (function : String) (index : Nat)
  | divisionByZero (function : String) (index : Nat)
  | inputExhausted
  | unknownFunction (name : String)
  | jumpOutOfRange (function : String) (target : UInt64)
  | unsupported (function : String) (index : Nat) (statement : Statement)
  | callDepthExceeded (limit : Nat)
  | stepLimitExceeded (limit : Nat)
  deriving DecidableEq

/-- The text of a fault. -/
def Fault.message : Fault → String
  | stackUnderflow function index => s!"Stack underflow in {function} at #{index}"
  | divisionByZero function index => s!"Division by zero in {function} at #{index}"
  | inputExhausted => "Input exhausted"
  | unknownFunction name => s!"Unknown function: {name}"
  | jumpOutOfRange function target => s!"Jump target {target.toNat} out of range in {function}"
  | unsupported function index statement =>
    s!"Unsupported opcode in {function} at #{index}: {statement.text}"
  | callDepthExceeded limit => s!"Call depth limit ({limit}) exceeded"
  | stepLimitExceeded limit => s!"Step limit ({limit}) exceeded"

/-- What an observer of calls sees: an activation entered at a nesting depth, or one left by
falling off the end of its body. -/
inductive CallEvent where
  | enter (function : String) (depth : Nat)
  | fallOff (function : String)
  deriving DecidableEq

/-- The text of an event. -/
def CallEvent.message : CallEvent → String
  | enter function depth => s!"enter {function} (depth {depth})"
  | fallOff function => s!"leave {function} by falling off the end"

/-- What lasts from run to run. Events are recorded only where `events` holds a list. -/
structure Machine where
  input : List Int32
  output : Array Int32
  steps : Nat
  events : Option (Array CallEvent)

namespace Machine

/-- A fresh machine with the given input and no record of events. -/
def ofInput (input : List Int32) : Machine := ⟨input, #[], 0, none⟩

/-- The machine after an event. -/
def note (m : Machine) (event : CallEvent) : Machine :=
  { m with events := m.events.map (·.push event) }

/-- The machine with one more step counted. -/
def count (m : Machine) : Machine := { m with steps := m.steps + 1 }

/-- One call in progress: the function's name and body, the index of the next statement, the nesting
depth, the operand stack with its top first, and the variables stored so far. -/
structure Activation where
  function : String
  body : Body
  next : Nat
  depth : Nat
  stack : List Int32
  values : Std.TreeMap String Int32

/-- A run in progress: the active call on top of its callers. -/
structure Run where
  machine : Machine
  active : Activation
  callers : List Activation

/-- What a step leads to. -/
inductive Progress where
  | running (run : Run)
  | stopped (machine : Machine) (outcome : Except Fault Int32)

/-- The run entering `function` with the given arguments, unless it is nested too deeply. Of several
parameters of one name the last one holds. -/
def enter (limits : Limits) (m : Machine) (function : Function) (arguments : List Int32)
    (depth : Nat) (callers : List Activation) : Progress :=
  if limits.maxCallDepth ≤ depth then
    .stopped m (.error (.callDepthExceeded limits.maxCallDepth))
  else
    .running
      { machine := m.note (.enter function.name depth)
        active :=
          { function := function.name
            body := function.body
            next := 0
            depth := depth
            stack := []
            values := .ofList (function.declaration.parameters.zip arguments) }
        callers := callers }

/-- The end of the active call with a value: the caller goes on with it, or the run stops. -/
def leave (m : Machine) (value : Int32) : List Activation → Progress
  | [] => .stopped m (.ok value)
  | caller :: callers => .running ⟨m, { caller with stack := value :: caller.stack }, callers⟩

/-- The `n` topmost words, the deepest of them first, put before `arguments`; and the words below
them. -/
def splitArguments : Nat → List Int32 → List Int32 → Option (List Int32 × List Int32)
  | 0, stack, arguments => some (arguments, stack)
  | _ + 1, [], _ => none
  | n + 1, word :: stack, arguments => splitArguments n stack (word :: arguments)

/-- The effect of a call. The operands are taken off first; the function is looked up by its name
and must have as many parameters as the call has operands. -/
def call (limits : Limits) (program : Program) (m : Machine) (a : Activation)
    (callers : List Activation) (index : Nat) (callee : Callee) : Progress :=
  match splitArguments callee.arity a.stack [] with
  | none => .stopped m (.error (.stackUnderflow a.function index))
  | some (arguments, stack) =>
    match callee with
    | .intrinsic .read =>
      match m.input with
      | [] => .stopped m (.error .inputExhausted)
      | value :: input =>
        .running ⟨{ m with input := input }, { a with stack := value :: stack }, callers⟩
    | .intrinsic .write =>
      .running ⟨{ m with output := m.output ++ arguments }, { a with stack := stack }, callers⟩
    | .function declaration =>
      match program.function? declaration.name with
      | none => .stopped m (.error (.unknownFunction declaration.name))
      | some function =>
        if function.declaration.arity = declaration.arity then
          enter limits m function arguments (a.depth + 1) ({ a with stack := stack } :: callers)
        else
          .stopped m (.error (.unknownFunction declaration.name))

/-- The effect of one statement, the step already counted and `a.next` already behind it. -/
def execute (limits : Limits) (program : Program) (m : Machine) (a : Activation)
    (callers : List Activation) (index : Nat) : Statement → Progress
  | .nop => .running ⟨m, a, callers⟩
  | .push value => .running ⟨m, { a with stack := value :: a.stack }, callers⟩
  | .load name =>
    .running ⟨m, { a with stack := a.values.getD name 0 :: a.stack }, callers⟩
  | .store name =>
    match a.stack with
    | value :: stack =>
      .running ⟨m, { a with stack := stack, values := a.values.insert name value }, callers⟩
    | [] => underflow
  | .negate =>
    match a.stack with
    | value :: stack => .running ⟨m, { a with stack := -value :: stack }, callers⟩
    | [] => underflow
  | .binary op =>
    match a.stack with
    | right :: left :: stack =>
      match op.eval left right with
      | some value => .running ⟨m, { a with stack := value :: stack }, callers⟩
      | none => .stopped m (.error (.divisionByZero a.function index))
    | _ => underflow
  | .jump target =>
    if a.body.size < target.toNat then
      outOfRange target
    else
      .running ⟨m, { a with next := target.toNat }, callers⟩
  | .jumpIfZero target =>
    match a.stack with
    | value :: stack =>
      if a.body.size < target.toNat then
        outOfRange target
      else if value = 0 then
        .running ⟨m, { a with next := target.toNat, stack := stack }, callers⟩
      else
        .running ⟨m, { a with stack := stack }, callers⟩
    | [] => underflow
  | .call callee => call limits program m a callers index callee
  | .returnZero => leave m 0 callers
  | .returnTop =>
    match a.stack with
    | value :: _ => leave m value callers
    | [] => underflow
  | .pop =>
    match a.stack with
    | _ :: stack => .running ⟨m, { a with stack := stack }, callers⟩
    | [] => underflow
  | .prepareArguments => .stopped m (.error (.unsupported a.function index .prepareArguments))
where
  underflow : Progress := .stopped m (.error (.stackUnderflow a.function index))
  outOfRange (target : UInt64) : Progress :=
    .stopped m (.error (.jumpOutOfRange a.function target))

/-- One step: the next statement of the active call, or its end. -/
def step (limits : Limits) (program : Program) : Run → Progress
  | ⟨m, a, callers⟩ =>
    match a.body[a.next]? with
    | none => leave (m.note (.fallOff a.function)) 0 callers
    | some statement =>
      if limits.maxSteps ≤ m.steps then
        .stopped m.count (.error (.stepLimitExceeded limits.maxSteps))
      else
        execute limits program m.count { a with next := a.next + 1 } callers a.next statement

/-- Bound on the remaining steps: two for each statement the limit still allows, one for each caller
that may yet be returned to. -/
def Run.measure (limits : Limits) (r : Run) : Nat :=
  2 * (limits.maxSteps + 1 - r.machine.steps) + r.callers.length

theorem enter_running {limits : Limits} {m : Machine} {f : Function} {arguments : List Int32}
    {depth : Nat} {callers : List Activation} {r : Run}
    (h : enter limits m f arguments depth callers = .running r) :
    r.machine.steps = m.steps ∧ r.callers = callers := by
  unfold enter at h
  split at h
  · cases h
  · cases h
    exact ⟨rfl, rfl⟩

theorem leave_running {m : Machine} {value : Int32} {callers : List Activation} {r : Run}
    (h : leave m value callers = .running r) :
    r.machine = m ∧ r.callers.length + 1 = callers.length := by
  cases callers with
  | nil => cases h
  | cons caller callers =>
    cases h
    exact ⟨rfl, rfl⟩

theorem call_running {limits : Limits} {program : Program} {m : Machine} {a : Activation}
    {callers : List Activation} {index : Nat} {callee : Callee} {r : Run}
    (h : call limits program m a callers index callee = .running r) :
    r.machine.steps = m.steps ∧ r.callers.length ≤ callers.length + 1 := by
  unfold call at h
  repeat' split at h
  all_goals first
    | cases h; done
    | cases h; exact ⟨rfl, Nat.le_succ _⟩
    | obtain ⟨hs, hc⟩ := enter_running h
      exact ⟨hs, by rw [hc]; exact Nat.le_refl _⟩

theorem execute_running {limits : Limits} {program : Program} {m : Machine} {a : Activation}
    {callers : List Activation} {index : Nat} {s : Statement} {r : Run}
    (h : execute limits program m a callers index s = .running r) :
    r.machine.steps = m.steps ∧ r.callers.length ≤ callers.length + 1 := by
  unfold execute at h
  repeat' split at h
  all_goals first
    | cases h; done
    | cases h; exact ⟨rfl, Nat.le_succ _⟩
    | exact call_running h
    | obtain ⟨hm, hc⟩ := leave_running h
      exact ⟨by rw [hm], by omega⟩

/-- A step that goes on lowers the measure. -/
theorem measure_lt_of_step {limits : Limits} {program : Program} {r r' : Run}
    (h : step limits program r = .running r') : r'.measure limits < r.measure limits := by
  obtain ⟨m, a, callers⟩ := r
  simp only [step] at h
  split at h
  · obtain ⟨hm, hc⟩ := leave_running h
    simp only [Run.measure, hm, note]
    omega
  · split at h
    · cases h
    · obtain ⟨hs, hc⟩ := execute_running h
      simp only [Run.measure, hs, count]
      omega

/-- Steps until the run stops. -/
def finish (limits : Limits) (program : Program) (r : Run) : Machine × Except Fault Int32 :=
  match _h : step limits program r with
  | .stopped m outcome => (m, outcome)
  | .running r' => finish limits program r'
termination_by r.measure limits
decreasing_by exact measure_lt_of_step ‹_›

/-- The machine and the outcome a first step leads to. -/
def Progress.finish (limits : Limits) (program : Program) :
    Progress → Machine × Except Fault Int32
  | .stopped m outcome => (m, outcome)
  | .running r => Machine.finish limits program r

/-- A function run as the outermost call, without arguments. -/
def runFunction (limits : Limits) (program : Program) (function : Function) (m : Machine) :
    Machine × Except Fault Int32 :=
  (enter limits m function [] 0 []).finish limits program

/-- The entry routine of a program, run with its parameters unset. -/
def runEntry (limits : Limits) (program : Program) (m : Machine) :
    Machine × Except Fault Int32 :=
  match program.entry? with
  | none => (m, .error (.unknownFunction Program.entryName))
  | some function => runFunction limits program function m

/-- A free-standing routine, which may call the functions of `program`. -/
def runRoutine (limits : Limits) (program : Program) (body : Body) (m : Machine) :
    Machine × Except Fault Int32 :=
  runFunction limits program ⟨⟨Program.entryName, []⟩, body⟩ m

end Machine

/-- Everything a finished run wrote, or its fault. -/
def outputOf : Machine × Except Fault Int32 → Except Fault (List Int32)
  | (m, .ok _) => .ok m.output.toList
  | (_, .error fault) => .error fault

/-- The output of the entry routine on an input, within the standard limits. -/
def Program.run (program : Program) (input : List Int32) : Except Fault (List Int32) :=
  outputOf (Machine.runEntry .standard program (.ofInput input))

/-- The output of a free-standing routine on an input, within the standard limits. -/
def Body.run (body : Body) (input : List Int32) : Except Fault (List Int32) :=
  outputOf (Machine.runRoutine .standard .empty body (.ofInput input))

end StackCodegen
