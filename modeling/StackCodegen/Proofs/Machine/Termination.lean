import StackCodegen.Proofs.Machine.Effects
import StackCodegen.Proofs.Machine.Stops
import Mathlib.Algebra.GroupWithZero.Nat

/-!
# Runs end within their limits

A run goes through a row of states and stops (`Traces`). In each state it executes the statement
that comes next, is cut short in front of it by the limit of steps, or falls off the end of a body.
The statements are what the step counter counts, once they are begun; falling off counts nothing,
but it takes an activation away. So the counter bounds the statements of all activations together,
and the two bound the states.

A statement that is executed need not be complete: the run may fail in it, or in the function that
it calls. `executed` counts the statements that the limit let pass, `completed` those that took
their effect, a call when the function it entered is left.

Main statement: `run_within_limits`.
-/

set_option autoImplicit false

namespace StackCodegen.Machine

/-! ## States of a run -/

/-- The states that a run goes through until it stops, and what it stops with. -/
inductive Run.Traces (limits : Limits) (program : Program) :
    Run → List Run → Machine × Except Fault Int32 → Prop where
  | stops {r : Run} {m : Machine} {outcome : Except Fault Int32}
      (hstep : step limits program r = .stopped m outcome) :
      Traces limits program r [r] (m, outcome)
  | goesOn {r r' : Run} {states : List Run} {result : Machine × Except Fault Int32}
      (hstep : step limits program r = .running r')
      (rest : Traces limits program r' states result) :
      Traces limits program r (r :: states) result

/-- The states behind a first step; there are none if it stops. -/
def Progress.Traces (limits : Limits) (program : Program) :
    Progress → List Run → Machine × Except Fault Int32 → Prop
  | .stopped m outcome, states, result => states = [] ∧ result = (m, outcome)
  | .running r, states, result => r.Traces limits program states result

/-- Whether a statement comes next; otherwise the active call falls off its end. -/
def Run.atStatement (r : Run) : Bool := r.active.next < r.active.body.size

/-- Whether a statement comes next that the limit lets pass. -/
def Run.executes (limits : Limits) (r : Run) : Bool :=
  r.atStatement && r.machine.steps < limits.maxSteps

/-- The number of statements that are executed in a row of states. -/
def executed (limits : Limits) (states : List Run) : Nat := states.countP (Run.executes limits)

/-- The number of statements that a step completes: its own, unless it fails or enters a function,
and the call of the function that it leaves. -/
def completedBy (r : Run) : Progress → Nat
  | .stopped _ (.error _) => 0
  | .stopped _ (.ok _) => if r.atStatement then 1 else 0
  | .running r' =>
    (if r.atStatement && r'.callers.length ≤ r.callers.length then 1 else 0) +
      if r'.callers.length < r.callers.length then 1 else 0

/-- The number of statements that are completed in a row of states. -/
def completed (limits : Limits) (program : Program) (states : List Run) : Nat :=
  (states.map fun r => completedBy r (step limits program r)).sum

/-- Activations on top of each other, the outermost one at a given depth. -/
def Nested (depth : Nat) : List Activation → Prop
  | [] => True
  | a :: callers => a.depth = depth + callers.length ∧ Nested depth callers

variable {limits : Limits} {program : Program}

/-- Every run stops, after no more states than the measure of the first one has room for. -/
theorem exists_traces (limits : Limits) (program : Program) (r : Run) :
    ∃ states, r.Traces limits program states (finish limits program r) ∧
      states.length ≤ r.measure limits + 1 := by
  rw [finish_eq]
  match hstep : step limits program r with
  | .stopped m outcome => exact ⟨[r], .stops hstep, Nat.le_add_left _ _⟩
  | .running r' =>
      -- the measure drops with every step that goes on
      obtain ⟨states, htraces, hlength⟩ := exists_traces limits program r'
      have hlt := measure_lt_of_step hstep
      refine ⟨r :: states, .goesOn hstep htraces, ?_⟩
      rw [List.length_cons]
      omega
termination_by r.measure limits
decreasing_by exact measure_lt_of_step hstep

/-! ## One step -/

/-- What a statement at a given depth that goes on does to the row of activations. -/
inductive Shifts (limits : Limits) (depth : Nat) (callers : List Activation) (r : Run) :
    Prop where
  | stays (hdepth : r.active.depth = depth) (hcallers : r.callers = callers)
  | returns (caller : Activation) (hdepth : r.active.depth = caller.depth)
      (hcallers : callers = caller :: r.callers)
  | enters (caller : Activation) (hdepth : r.active.depth = depth + 1)
      (hlimit : r.active.depth < limits.maxCallDepth) (hcaller : caller.depth = depth)
      (hcallers : r.callers = caller :: callers)

/-- What a step does to the step counter and to the row of activations. -/
inductive Advances (limits : Limits) (r : Run) : Progress → Prop where
  | ends {m : Machine} (hend : r.atStatement = false) (hsteps : m.steps = r.machine.steps) :
      Advances limits r (.stopped m (.ok 0))
  | fallsOff {r' : Run} (caller : Activation) (hend : r.atStatement = false)
      (hsteps : r'.machine.steps = r.machine.steps) (hdepth : r'.active.depth = caller.depth)
      (hcallers : r.callers = caller :: r'.callers) :
      Advances limits r (.running r')
  | cut {m : Machine} (hstatement : r.atStatement = true)
      (hlimit : limits.maxSteps ≤ r.machine.steps) (hsteps : m.steps = r.machine.steps + 1) :
      Advances limits r (.stopped m (.error (.stepLimitExceeded limits.maxSteps)))
  | stops {m : Machine} {outcome : Except Fault Int32} (hexecutes : r.executes limits = true)
      (hsteps : m.steps = r.machine.steps + 1)
      (huncut : ∀ limit, outcome ≠ .error (.stepLimitExceeded limit)) :
      Advances limits r (.stopped m outcome)
  | goesOn {r' : Run} (hexecutes : r.executes limits = true)
      (hsteps : r'.machine.steps = r.machine.steps + 1)
      (hshifts : Shifts limits r.active.depth r.callers r') :
      Advances limits r (.running r')

section Step

variable {m : Machine} {a : Activation} {callers : List Activation} {index : Nat}
  {statement : Statement} {r : Run}

theorem steps_enter (function : Function) (arguments : List Int32) (depth : Nat) :
    (enter limits m function arguments depth callers).machine.steps = m.steps := by
  unfold enter
  split <;> rfl

theorem steps_leave (value : Int32) : (leave m value callers).machine.steps = m.steps := by
  cases callers <;> rfl

theorem steps_call (callee : Callee) :
    (call limits program m a callers index callee).machine.steps = m.steps := by
  unfold call
  repeat' split
  all_goals first
    | exact steps_enter ..
    | rfl

/-- Statements leave the counter alone; it is their step that counts. -/
theorem steps_execute :
    (execute limits program m a callers index statement).machine.steps = m.steps := by
  cases statement with
  | call callee => exact steps_call callee
  | returnZero => exact steps_leave 0
  | returnTop =>
      rw [execute]
      split
      · exact steps_leave _
      · rfl
  | _ =>
      rw [execute]
      repeat' split
      all_goals rfl

theorem shifts_of_leave {value : Int32} (h : leave m value callers = .running r) :
    ∃ caller, r.active.depth = caller.depth ∧ callers = caller :: r.callers := by
  cases callers with
  | nil => cases h
  | cons caller callers =>
      cases h
      exact ⟨caller, rfl, rfl⟩

/-- An activation is entered where its depth is within the limit. -/
theorem shifts_of_enter {function : Function} {arguments : List Int32} {depth : Nat}
    (h : enter limits m function arguments depth callers = .running r) :
    r.active.depth = depth ∧ depth < limits.maxCallDepth ∧ r.callers = callers := by
  unfold enter at h
  split at h
  · cases h
  next hlimit =>
      cases h
      exact ⟨rfl, Nat.lt_of_not_le hlimit, rfl⟩

/-- A statement that neither calls nor returns leaves the depth alone. -/
theorem depth_of_stays (h : execute limits program m a callers index statement = .running r)
    (hsame : r.callers = callers) : r.active.depth = a.depth := by
  -- a function that is entered or left would change the row of callers
  have hne : ∀ {caller : Activation}, callers ≠ caller :: callers := fun heq => by
    simpa using congrArg List.length heq
  cases statement with
  | call callee =>
      rw [execute, call] at h
      repeat' split at h
      all_goals first
        | cases h; done
        | cases h; rfl
        | obtain ⟨-, -, hcallers⟩ := shifts_of_enter h
          exact absurd (hsame.symm.trans hcallers) hne
  | returnZero =>
      obtain ⟨caller, -, hcallers⟩ := shifts_of_leave h
      exact absurd (hsame ▸ hcallers) hne
  | returnTop =>
      rw [execute] at h
      split at h
      · obtain ⟨caller, -, hcallers⟩ := shifts_of_leave h
        exact absurd (hsame ▸ hcallers) hne
      · cases h
  | _ =>
      rw [execute] at h
      repeat' split at h
      all_goals
        cases h
        try rfl

theorem shifts_of_execute (h : execute limits program m a callers index statement = .running r) :
    Shifts limits a.depth callers r := by
  cases continues_of_execute h with
  | stays hcallers _ => exact .stays (depth_of_stays h hcallers) hcallers
  | leaves value hleave =>
      obtain ⟨caller, hdepth, hcallers⟩ := shifts_of_leave hleave
      exact .returns caller hdepth hcallers
  | enters _ _ _ stack _ _ _ henter =>
      obtain ⟨hdepth, hlimit, hcallers⟩ := shifts_of_enter henter
      exact .enters { a with stack := stack } hdepth (hdepth ▸ hlimit) rfl hcallers

/-- A statement never stops a run with the fault of the step limit. -/
theorem uncut_of_stops {outcome : Except Fault Int32}
    (h : Stops limits program a callers index statement outcome) (limit : Nat) :
    outcome ≠ .error (.stepLimitExceeded limit) := by
  rintro rfl
  cases h

/-- What a step can do: fall off the end, be cut short, or execute a statement. -/
theorem advances_step (limits : Limits) (program : Program) (r : Run) :
    Advances limits r (step limits program r) := by
  obtain ⟨m, a, callers⟩ := r
  rw [step]
  split
  next hend =>
      have hnone : (⟨m, a, callers⟩ : Run).atStatement = false := by
        simpa [Run.atStatement] using hend
      cases callers with
      | nil => exact .ends hnone rfl
      | cons caller callers => exact .fallsOff caller hnone rfl rfl rfl
  next statement hstatement =>
      have hsome : (⟨m, a, callers⟩ : Run).atStatement = true := by
        simpa [Run.atStatement] using (Array.getElem?_eq_some_iff.1 hstatement).1
      split
      next hlimit => exact .cut hsome hlimit rfl
      next hlimit =>
          have hexecutes : (⟨m, a, callers⟩ : Run).executes limits = true := by
            rw [Run.executes, hsome, Bool.true_and, decide_eq_true_eq]
            exact Nat.lt_of_not_le hlimit
          have hsteps : (execute limits program m.count { a with next := a.next + 1 } callers a.next
              statement).machine.steps = m.steps + 1 := steps_execute
          cases hstep : execute limits program m.count { a with next := a.next + 1 } callers a.next
              statement with
          | stopped m' outcome =>
              rw [hstep] at hsteps
              exact .stops hexecutes hsteps (uncut_of_stops (stops_of_execute hstep))
          | running r' =>
              have hshifts := shifts_of_execute hstep
              rw [hstep] at hsteps
              exact .goesOn hexecutes hsteps hshifts

end Step

/-! ## Whole runs -/

section Counts

variable {r r' : Run}

/-- Nothing is executed at the end of a body. -/
theorem executes_of_end (h : r.atStatement = false) : r.executes limits = false := by
  rw [Run.executes, h, Bool.false_and]

/-- Nothing is executed that the limit cuts off. -/
theorem executes_of_cut (h : limits.maxSteps ≤ r.machine.steps) : r.executes limits = false := by
  rw [Run.executes, decide_eq_false (Nat.not_lt.2 h), Bool.and_false]

theorem of_executes (h : r.executes limits = true) :
    r.atStatement = true ∧ r.machine.steps < limits.maxSteps := by
  simpa [Run.executes] using h

theorem executed_cons (r : Run) (states : List Run) :
    executed limits (r :: states) = executed limits states + (r.executes limits).toNat := by
  rw [executed, List.countP_cons]
  cases r.executes limits <;> rfl

theorem completed_cons (r : Run) (states : List Run) :
    completed limits program (r :: states) =
      completedBy r (step limits program r) + completed limits program states := rfl

/-- A step that goes on counts what it executes. -/
theorem steps_running (h : Advances limits r (.running r')) :
    r'.machine.steps = r.machine.steps + (r.executes limits).toNat := by
  cases h with
  | fallsOff caller hend hsteps =>
      rw [hsteps, executes_of_end hend]
      rfl
  | goesOn hexecutes hsteps =>
      rw [hsteps, hexecutes]
      rfl

/-- The counter never leaves the limit behind by a step that goes on. -/
theorem toNat_executes_le (limits : Limits) (r : Run) :
    (r.executes limits).toNat ≤ limits.maxSteps - r.machine.steps := by
  cases h : r.executes limits with
  | false => exact Nat.zero_le _
  | true =>
      have hlt := (of_executes h).2
      rw [Bool.toNat_true]
      omega

/-- A step that goes on completes what it executes, but for the calls that it adds to those that
wait, and with those that it takes from them. -/
theorem completedBy_running (h : Advances limits r (.running r')) :
    completedBy r (.running r') + r'.callers.length =
      (r.executes limits).toNat + r.callers.length := by
  cases h with
  | fallsOff caller hend hsteps hdepth hcallers =>
      simp [completedBy, hend, executes_of_end hend, hcallers, Nat.add_comm]
  | goesOn hexecutes hsteps hshifts =>
      have hstatement := (of_executes hexecutes).1
      cases hshifts with
      | stays hdepth hcallers => simp [completedBy, hstatement, hexecutes, hcallers]
      | returns caller hdepth hcallers =>
          simp [completedBy, hstatement, hexecutes, hcallers]
          omega
      | enters caller hdepth hlimit hcaller hcallers =>
          simp [completedBy, hexecutes, hcallers, Nat.add_comm]

/-- A step that stops completes at most what it executes. -/
theorem completedBy_stopped {m : Machine} {outcome : Except Fault Int32}
    (h : Advances limits r (.stopped m outcome)) :
    completedBy r (.stopped m outcome) ≤ (r.executes limits).toNat := by
  cases h with
  | ends hend hsteps => simp [completedBy, hend]
  | cut => exact Nat.zero_le _
  | stops hexecutes hsteps huncut =>
      rw [hexecutes]
      cases outcome with
      | error fault => exact Nat.zero_le _
      | ok value =>
          rw [completedBy]
          split <;> decide

/-- A step that goes on keeps activations nested: a function is entered one deeper than its caller,
and left for it. -/
theorem nested_of_advances {depth : Nat} (h : Advances limits r (.running r'))
    (hnested : Nested depth (r.active :: r.callers))
    (hlimit : r.active.depth < limits.maxCallDepth) :
    Nested depth (r'.active :: r'.callers) ∧ r'.active.depth < limits.maxCallDepth := by
  -- a call may be left at a return or at the end of its body
  have hreturns : ∀ caller : Activation, r'.active.depth = caller.depth →
      r.callers = caller :: r'.callers →
      Nested depth (r'.active :: r'.callers) ∧ r'.active.depth < limits.maxCallDepth := by
    intro caller hdepth hcallers
    obtain ⟨hactive, hrest⟩ := hnested
    rw [hcallers, List.length_cons] at hactive
    rw [hcallers] at hrest
    obtain ⟨hcaller, hrest⟩ := hrest
    exact ⟨⟨hdepth.trans hcaller, hrest⟩, by omega⟩
  cases h with
  | fallsOff caller hend hsteps hdepth hcallers => exact hreturns caller hdepth hcallers
  | goesOn hexecutes hsteps hshifts =>
      cases hshifts with
      | stays hdepth hcallers =>
          obtain ⟨hactive, hrest⟩ := hnested
          rw [← hdepth] at hactive hlimit
          rw [← hcallers] at hactive hrest
          exact ⟨⟨hactive, hrest⟩, hlimit⟩
      | returns caller hdepth hcallers => exact hreturns caller hdepth hcallers
      | enters caller hdepth hlimit' hcaller hcallers =>
          obtain ⟨hactive, hrest⟩ := hnested
          refine ⟨?_, hlimit'⟩
          rw [hcallers]
          refine ⟨?_, hcaller.trans hactive, hrest⟩
          rw [List.length_cons]
          omega

end Counts

namespace Run.Traces

variable {r : Run} {states : List Run} {result : Machine × Except Fault Int32}

/-- The counter counts the statements that are executed, and one that is cut off. -/
theorem steps_eq (h : r.Traces limits program states result) :
    result.2 = .error (.stepLimitExceeded limits.maxSteps) ∧
        result.1.steps = r.machine.steps + executed limits states + 1 ∨
      (∀ limit, result.2 ≠ .error (.stepLimitExceeded limit)) ∧
        result.1.steps = r.machine.steps + executed limits states := by
  induction h with
  | @stops r m outcome hstep =>
      have hadvances := hstep ▸ advances_step limits program r
      rw [executed_cons, executed, List.countP_nil, Nat.zero_add]
      cases hadvances with
      | ends hend hsteps =>
          rw [executes_of_end hend]
          exact .inr ⟨fun limit => by simp, hsteps⟩
      | cut hstatement hlimit hsteps =>
          rw [executes_of_cut hlimit]
          exact .inl ⟨rfl, hsteps⟩
      | stops hexecutes hsteps huncut =>
          rw [hexecutes]
          exact .inr ⟨huncut, hsteps⟩
  | @goesOn r r' states result hstep rest ih =>
      have hadvances := hstep ▸ advances_step limits program r
      have hcount := steps_running hadvances
      rw [executed_cons]
      exact ih.imp (And.imp_right fun h => by omega) (And.imp_right fun h => by omega)

/-- The limit lets no more statements pass than the counter has left to it. -/
theorem executed_le (h : r.Traces limits program states result) :
    executed limits states ≤ limits.maxSteps - r.machine.steps := by
  induction h with
  | @stops r m outcome hstep =>
      rw [executed_cons, executed, List.countP_nil, Nat.zero_add]
      exact toNat_executes_le limits r
  | @goesOn r r' states result hstep rest ih =>
      have hcount := steps_running (hstep ▸ advances_step limits program r)
      have hle := toNat_executes_le limits r
      rw [executed_cons]
      omega

/-- A run completes no more than it executes, together with the calls that wait for it. -/
theorem completed_le (h : r.Traces limits program states result) :
    completed limits program states ≤ executed limits states + r.callers.length := by
  induction h with
  | @stops r m outcome hstep =>
      have hle := completedBy_stopped (hstep ▸ advances_step limits program r)
      rw [completed_cons, executed_cons, hstep]
      exact Nat.le_trans (Nat.add_le_add_right hle _) (by simp [completed, executed])
  | @goesOn r r' states result hstep rest ih =>
      have hcompletes := completedBy_running (hstep ▸ advances_step limits program r)
      rw [completed_cons, executed_cons, hstep]
      omega

/-- The counter stays within the limit, unless it started beyond. -/
theorem counter_le (h : r.Traces limits program states result) :
    ∀ s ∈ states, s.machine.steps ≤ max r.machine.steps limits.maxSteps := by
  induction h with
  | @stops r m outcome hstep =>
      intro s hs
      rw [List.mem_singleton.1 hs]
      exact Nat.le_max_left _ _
  | @goesOn r r' states result hstep rest ih =>
      have hcount := steps_running (hstep ▸ advances_step limits program r)
      have hle := toNat_executes_le limits r
      intro s hs
      rcases List.mem_cons.1 hs with rfl | hs
      · exact Nat.le_max_left _ _
      · have := ih s hs
        omega

/-- Activations are nested one by one, and no deeper than the limit. -/
theorem nested {depth : Nat} (h : r.Traces limits program states result)
    (hnested : Nested depth (r.active :: r.callers))
    (hlimit : r.active.depth < limits.maxCallDepth) :
    ∀ s ∈ states, Nested depth (s.active :: s.callers) ∧
      s.active.depth < limits.maxCallDepth := by
  induction h with
  | @stops r m outcome hstep =>
      intro s hs
      rw [List.mem_singleton.1 hs]
      exact ⟨hnested, hlimit⟩
  | @goesOn r r' states result hstep rest ih =>
      intro s hs
      rcases List.mem_cons.1 hs with rfl | hs
      · exact ⟨hnested, hlimit⟩
      · have hadvances := hstep ▸ advances_step limits program r
        obtain ⟨hnested, hlimit⟩ := nested_of_advances hadvances hnested hlimit
        exact ih hnested hlimit s hs

/-- A statement that comes next is executed, or the run is cut short in front of it. -/
theorem cut_of_mem (h : r.Traces limits program states result) {s : Run} (hs : s ∈ states)
    (hstatement : s.atStatement = true) (hexecutes : s.executes limits = false) :
    result.2 = .error (.stepLimitExceeded limits.maxSteps) := by
  induction h with
  | @stops r m outcome hstep =>
      obtain rfl := List.mem_singleton.1 hs
      cases hstep ▸ advances_step limits program s with
      | ends hend => exact absurd hstatement (by simp [hend])
      | cut => rfl
      | stops hexecutes' => exact absurd hexecutes' (by simp [hexecutes])
  | @goesOn r r' states result hstep rest ih =>
      rcases List.mem_cons.1 hs with rfl | hs
      · cases hstep ▸ advances_step limits program s with
        | fallsOff _ hend => exact absurd hstatement (by simp [hend])
        | goesOn hexecutes' => exact absurd hexecutes' (by simp [hexecutes])
      · exact ih hs

end Run.Traces

/-! ## Limits -/

/-- What the limits allow a function that is entered at a depth, together with all that it calls:
the states that it goes through, and what it stops with. -/
structure WithinLimits (limits : Limits) (program : Program) (depth : Nat) (m : Machine)
    (states : List Run) (result : Machine × Except Fault Int32) : Prop where
  length_le : states.length ≤ 2 * (limits.maxSteps + 1 - m.steps) + 1
  counter_lt : ∀ r ∈ states, r.machine.steps < UInt64.size
  steps_lt : result.1.steps < UInt64.size
  completed_le : completed limits program states ≤ limits.maxSteps
  executed_le : executed limits states ≤ limits.maxSteps - m.steps
  steps_eq : result.2 = .error (.stepLimitExceeded limits.maxSteps) ∧
      result.1.steps = m.steps + executed limits states + 1 ∨
    (∀ limit, result.2 ≠ .error (.stepLimitExceeded limit)) ∧
      result.1.steps = m.steps + executed limits states
  le_steps : m.steps ≤ result.1.steps
  steps_le : result.1.steps ≤ max m.steps limits.maxSteps + 1
  exceeded : (∃ r ∈ states, r.atStatement = true) → limits.maxSteps < result.1.steps →
    result.2 = .error (.stepLimitExceeded limits.maxSteps)
  nested : ∀ r ∈ states, r.active.depth = depth + r.callers.length ∧
    depth + r.callers.length < limits.maxCallDepth

section Limits

variable {depth : Nat} {m : Machine} {states : List Run} {result : Machine × Except Fault Int32}
  {first : Run}

/-- A function that is not entered takes no step at all. -/
theorem withinLimits_of_refused (hstart : m.steps < UInt64.size - 1) :
    WithinLimits limits program depth m []
      (m, .error (.callDepthExceeded limits.maxCallDepth)) where
  length_le := Nat.zero_le _
  counter_lt := List.forall_mem_nil _
  steps_lt := Nat.lt_of_lt_of_le hstart (Nat.sub_le _ _)
  completed_le := Nat.zero_le _
  executed_le := Nat.zero_le _
  steps_eq := .inr ⟨fun _ => by simp, rfl⟩
  le_steps := Nat.le_refl _
  steps_le := Nat.le_succ_of_le (Nat.le_max_left _ _)
  exceeded := by simp
  nested := List.forall_mem_nil _

/-- The states of a function that is entered are within the limits. -/
theorem Run.Traces.withinLimits (htraces : first.Traces limits program states result)
    (hlength : states.length ≤ first.measure limits + 1) (hsteps : first.machine.steps = m.steps)
    (hdepth : first.active.depth = depth) (hlimit : depth < limits.maxCallDepth)
    (hcallers : first.callers = []) (hstart : m.steps < UInt64.size - 1)
    (hmax : limits.maxSteps < UInt64.size - 1) :
    WithinLimits limits program depth m states result := by
  have hexecuted := htraces.executed_le
  have hcompleted := htraces.completed_le
  have hcount := htraces.steps_eq
  have hcounter := htraces.counter_le
  rw [hsteps] at hexecuted hcount hcounter
  rw [hcallers, List.length_nil, Nat.add_zero] at hcompleted
  rw [Run.measure, hsteps, hcallers, List.length_nil, Nat.add_zero] at hlength
  -- at most one statement is counted that is not executed
  have hlast : m.steps ≤ result.1.steps ∧
      result.1.steps ≤ m.steps + executed limits states + 1 := by
    rcases hcount with ⟨-, h⟩ | ⟨-, h⟩ <;> omega
  have hnested : Nested depth (first.active :: first.callers) := by
    rw [hcallers]
    exact ⟨hdepth, trivial⟩
  refine ⟨hlength, ?_, ?_, ?_, hexecuted, hcount, hlast.1, ?_, ?_, ?_⟩
  · intro r hr
    have := hcounter r hr
    omega
  · omega
  · omega
  · omega
  · rintro ⟨r, hr, hstatement⟩ hexceeds
    rcases hcount with ⟨hcut, -⟩ | ⟨-, hequal⟩
    · exact hcut
    · cases hexecutes : r.executes limits with
      | false => exact htraces.cut_of_mem hr hstatement hexecutes
      | true =>
          -- the counter was below the limit then, and passes it by a cut only
          have hpositive : 0 < executed limits states := List.countP_pos_iff.2 ⟨r, hr, hexecutes⟩
          omega
  · intro r hr
    obtain ⟨⟨hactive, -⟩, hle⟩ := htraces.nested hnested (hdepth.symm ▸ hlimit) r hr
    exact ⟨hactive, hactive ▸ hle⟩

end Limits

/-- A run ends within its limits. It goes through finitely many states and stops; the step
counter stays in 64 bits. It executes, and so completes, no more statements than the limit of steps
leaves it, in all activations together. The counter rises by the statements that are executed, and
by one more exactly if the limit cut the run short; a run that came to a statement leaves the
counter beyond the limit only then. No activation is nested as deep as the limit of nesting. -/
theorem run_within_limits (limits : Limits) (program : Program) (function : Function)
    (arguments : List Int32) (depth : Nat) (m : Machine) (hstart : m.steps < UInt64.size - 1)
    (hmax : limits.maxSteps < UInt64.size - 1) :
    ∃ states,
      (enter limits m function arguments depth []).Traces limits program states
        ((enter limits m function arguments depth []).finish limits program) ∧
      WithinLimits limits program depth m states
        ((enter limits m function arguments depth []).finish limits program) := by
  by_cases hlimit : limits.maxCallDepth ≤ depth
  · rw [enter, if_pos hlimit]
    exact ⟨[], ⟨rfl, rfl⟩, withinLimits_of_refused hstart⟩
  · cases henter : enter limits m function arguments depth [] with
    | stopped m' outcome => exact absurd (enter_stopped henter).1 hlimit
    | running first =>
        obtain ⟨hdepth, hlimit, hcallers⟩ := shifts_of_enter henter
        obtain ⟨states, htraces, hlength⟩ := exists_traces limits program first
        exact ⟨states, htraces, htraces.withinLimits hlength (enter_running henter).1 hdepth hlimit
          hcallers hstart hmax⟩

/-- A function that writes its parameter and calls itself with it, for ever. -/
def echo : Function :=
  ⟨⟨"echo", ["n"]⟩, #[.load "n", .call (.intrinsic .write), .load "n",
    .call (.function ⟨"echo", ["n"]⟩)]⟩

/-- The program of that function alone. -/
def echoes : Program := ⟨[echo], by simp⟩

/-- From two steps on, a limit of nine lets seven statements of two activations pass. -/
theorem echoes_within_limits :
    2 < UInt64.size - 1 ∧ 9 < UInt64.size - 1 ∧
    ∃ states,
      (enter ⟨3, 9⟩ { ofInput [] with steps := 2 } echo [5] 0 []).Traces ⟨3, 9⟩ echoes states
        ((enter ⟨3, 9⟩ { ofInput [] with steps := 2 } echo [5] 0 []).finish ⟨3, 9⟩ echoes) ∧
      executed ⟨3, 9⟩ states = 7 ∧ completed ⟨3, 9⟩ echoes states ≤ 9 ∧
      ((enter ⟨3, 9⟩ { ofInput [] with steps := 2 } echo [5] 0 []).finish ⟨3, 9⟩ echoes).1.steps
        = 10 ∧
      ((enter ⟨3, 9⟩ { ofInput [] with steps := 2 } echo [5] 0 []).finish ⟨3, 9⟩ echoes).1.output
        = #[5, 5] ∧
      ((enter ⟨3, 9⟩ { ofInput [] with steps := 2 } echo [5] 0 []).finish ⟨3, 9⟩ echoes).2
        = .error (.stepLimitExceeded 9) := by
  refine ⟨by decide, by decide, ?_⟩
  have hsteps : ((enter ⟨3, 9⟩ { ofInput [] with steps := 2 } echo [5] 0 []).finish ⟨3, 9⟩
      echoes).1.steps = 10 := by decide +kernel
  obtain ⟨states, htraces, hwithin⟩ :=
    run_within_limits ⟨3, 9⟩ echoes echo [5] 0 { ofInput [] with steps := 2 } (by decide) (by decide)
  have hexecuted := hwithin.executed_le
  rcases hwithin.steps_eq with ⟨hcut, hcount⟩ | ⟨-, hcount⟩
  · rw [hsteps] at hcount
    exact ⟨states, htraces, (Nat.add_left_cancel (Nat.succ.inj hcount)).symm, hwithin.completed_le,
      hsteps, by decide +kernel, hcut⟩
  · -- eight statements are more than the limit leaves
    rw [hsteps] at hcount
    dsimp only at hexecuted hcount
    omega

end StackCodegen.Machine
