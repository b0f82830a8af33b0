import StackCodegen.Proofs.Program.StackDiscipline

/-!
# How runs stop

A run stops at the end of its outermost call, at the limit of steps, or in a statement. `Stops`
lists what a statement may stop a run with and what is then known of the statement, so that faults
are ruled out without another look at the machine. It is to the statements that stop a run what
`Continues` is to those that do not.

Main statement: nothing else stops a run (`stops_of_step`).
-/

set_option autoImplicit false

namespace StackCodegen.Machine

/-- The outcome that a statement stops a run with, by its cause. -/
inductive Stops (limits : Limits) (program : Program) (a : Activation) (callers : List Activation)
    (index : Nat) : Statement → Except Fault Int32 → Prop where
  | underflow {statement} (h : a.stack.length < statement.pops) :
      Stops limits program a callers index statement
        (.error (.stackUnderflow a.function index))
  | division {op} (h : op = .div ∨ op = .rem) :
      Stops limits program a callers index (.binary op)
        (.error (.divisionByZero a.function index))
  | noInput :
      Stops limits program a callers index (.call (.intrinsic .read)) (.error .inputExhausted)
  | unknown {declaration} (h : ∀ f, program.function? declaration.name = some f →
        f.declaration.arity ≠ declaration.arity) :
      Stops limits program a callers index (.call (.function declaration))
        (.error (.unknownFunction declaration.name))
  | tooDeep {declaration} (h : limits.maxCallDepth ≤ a.depth + 1) :
      Stops limits program a callers index (.call (.function declaration))
        (.error (.callDepthExceeded limits.maxCallDepth))
  | outOfRange {statement target} (htarget : statement.jumpTarget? = some target)
      (h : a.body.size < target.toNat) :
      Stops limits program a callers index statement (.error (.jumpOutOfRange a.function target))
  | unsupported :
      Stops limits program a callers index .prepareArguments
        (.error (.unsupported a.function index .prepareArguments))
  | returned {statement} (value : Int32) (h : statement.isReturn = true) (hcallers : callers = []) :
      Stops limits program a callers index statement (.ok value)

variable {limits : Limits} {program : Program} {m m' : Machine} {a : Activation}
  {callers : List Activation} {index : Nat} {statement : Statement}
  {outcome : Except Fault Int32}

/-- Only the outermost call ends a run. -/
theorem leave_stopped {value : Int32} (h : leave m value callers = .stopped m' outcome) :
    callers = [] ∧ outcome = .ok value := by
  cases callers with
  | nil =>
      cases h
      exact ⟨rfl, rfl⟩
  | cons caller callers => cases h

/-- Only the nesting depth keeps a function from being entered. -/
theorem enter_stopped {function : Function} {arguments : List Int32} {depth : Nat}
    (h : enter limits m function arguments depth callers = .stopped m' outcome) :
    limits.maxCallDepth ≤ depth ∧ outcome = .error (.callDepthExceeded limits.maxCallDepth) := by
  unfold enter at h
  split at h
  next hdepth =>
      cases h
      exact ⟨hdepth, rfl⟩
  next => cases h

theorem stops_of_call {callee : Callee}
    (h : call limits program m a callers index callee = .stopped m' outcome) :
    Stops limits program a callers index (.call callee) outcome := by
  -- operands are looked at first, then the function, then the depth
  rw [call] at h
  split at h
  next hsplit =>
      cases h
      exact .underflow (splitArguments_eq_none_iff.1 hsplit)
  next arguments stack hsplit =>
      cases callee with
      | intrinsic service =>
          cases service with
          | read =>
              dsimp only at h
              split at h <;> cases h
              exact .noInput
          | write => cases h
      | function declaration =>
          dsimp only at h
          split at h
          next hnone =>
              cases h
              refine .unknown fun f hf => ?_
              cases hnone.symm.trans hf
          next found hfound =>
              split at h
              next =>
                  obtain ⟨hdepth, rfl⟩ := enter_stopped h
                  exact .tooDeep hdepth
              next harity =>
                  cases h
                  refine .unknown fun f hf => ?_
                  cases hfound.symm.trans hf
                  exact harity

/-- A statement stops a run for one of the listed causes. -/
theorem stops_of_execute
    (h : execute limits program m a callers index statement = .stopped m' outcome) :
    Stops limits program a callers index statement outcome := by
  cases statement with
  | call callee => exact stops_of_call h
  | binary op =>
      match hs : a.stack with
      | [] | [_] =>
          simp only [execute, execute.underflow, hs] at h
          cases h
          exact .underflow (by simp [hs, Statement.pops])
      | right :: left :: stack =>
          simp only [execute, hs] at h
          split at h
          · cases h
          next hnone =>
              cases h
              exact .division ((op.eval_eq_none_iff left right).1 hnone).1
  | returnZero =>
      obtain ⟨hcallers, rfl⟩ := leave_stopped h
      exact .returned 0 rfl hcallers
  | returnTop =>
      rw [execute] at h
      split at h
      next =>
          obtain ⟨hcallers, rfl⟩ := leave_stopped h
          exact .returned _ rfl hcallers
      next hs =>
          cases h
          exact .underflow (by simp [hs, Statement.pops])
  | jump target =>
      rw [execute] at h
      split at h <;> cases h
      next htarget => exact .outOfRange rfl htarget
  | jumpIfZero target =>
      rw [execute] at h
      repeat' split at h
      all_goals cases h
      next htarget => exact .outOfRange rfl htarget
      next hs => exact .underflow (by simp [hs, Statement.pops])
  | prepareArguments =>
      cases h
      exact .unsupported
  | store | negate | pop =>
      rw [execute] at h
      split at h <;> cases h
      next hs => exact .underflow (by simp [hs, Statement.pops])
  | nop | push | load => cases h

/-- The place that the activation goes on at has no part in it. -/
theorem Stops.of_next {next : Nat}
    (h : Stops limits program { a with next := next } callers index statement outcome) :
    Stops limits program a callers index statement outcome := by
  cases h with
  | underflow h => exact .underflow h
  | division h => exact .division h
  | noInput => exact .noInput
  | unknown h => exact .unknown h
  | tooDeep h => exact .tooDeep h
  | outOfRange htarget h => exact .outOfRange htarget h
  | unsupported => exact .unsupported
  | returned value h hcallers => exact .returned value h hcallers

/-- A run stops at the end of its outermost call, at the limit of steps, or in a statement. -/
theorem stops_of_step {r : Run} (h : step limits program r = .stopped m' outcome) :
    r.active.body[r.active.next]? = none ∧ r.callers = [] ∧ outcome = .ok 0 ∨
      limits.maxSteps ≤ r.machine.steps ∧ outcome = .error (.stepLimitExceeded limits.maxSteps) ∨
      ∃ statement, r.active.body[r.active.next]? = some statement ∧
        Stops limits program r.active r.callers r.active.next statement outcome := by
  obtain ⟨m, a, callers⟩ := r
  rw [step] at h
  split at h
  next hend => exact .inl ⟨hend, leave_stopped h⟩
  next statement hstatement =>
      split at h
      next hlimit =>
          cases h
          exact .inr (.inl ⟨hlimit, rfl⟩)
      next => exact .inr (.inr ⟨statement, hstatement, (stops_of_execute h).of_next⟩)

/-- A run that finds no input stops in a `READ`. -/
theorem read_of_inputExhausted {r : Run}
    (h : step limits program r = .stopped m' (.error .inputExhausted)) :
    r.active.body[r.active.next]? = some (.call (.intrinsic .read)) := by
  rcases stops_of_step h with ⟨-, -, hend⟩ | ⟨-, hlimit⟩ | ⟨statement, hstatement, hstops⟩
  · cases hend
  · cases hlimit
  · cases hstops
    exact hstatement

end StackCodegen.Machine
