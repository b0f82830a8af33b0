import StackCodegen.Proofs.Machine.Requests
import Mathlib.Data.List.Infix

/-!
# Limits of runs

Limits do nothing but cut a run short. Two runs that start alike under limits of which the second
are nowhere lower make the same steps up to a step that the first limits cut short (`UpToCut`), so
the second run ends like the first one or goes on from where that one was stopped.

Main statements: steps and runs differ in nothing but a cut (`step_of_within`, `finish_of_within`);
a run under higher limits ends like the first or goes beyond it (`run_of_within`).
-/

set_option autoImplicit false

namespace StackCodegen

/-- Limits of which none is higher than the other's. -/
structure Limits.Within (small large : Limits) : Prop where
  maxCallDepth : small.maxCallDepth ≤ large.maxCallDepth
  maxSteps : small.maxSteps ≤ large.maxSteps

namespace Machine

/-- Whether a run was cut short by a limit. -/
def isCutShort : Except Fault Int32 → Bool
  | .error (.stepLimitExceeded _) | .error (.callDepthExceeded _) => true
  | _ => false

/-- Two steps of a machine are the same, unless the first is cut short with nothing read and nothing
written. -/
def UpToCut (m : Machine) (first second : Progress) : Prop :=
  second = first ∨ ∃ m' outcome, first = .stopped m' outcome ∧ isCutShort outcome = true ∧
    m'.input = m.input ∧ m'.output = m.output

/-- A machine has read and written what another one has, and perhaps more. -/
def GoesBeyond (m m' : Machine) : Prop :=
  ∃ taken written : List Int32, m.input = taken ++ m'.input ∧ m'.output = m.output ++ written

/-- What goes on from a machine goes beyond one with the same input and output. -/
theorem Effect.Leads.goesBeyond {e : Effect} {m m' first : Machine} (h : e.Leads m m')
    (hinput : first.input = m.input) (houtput : first.output = m.output) : GoesBeyond first m' := by
  refine ⟨e.taken, e.written, hinput.trans h.input, ?_⟩
  rw [houtput]
  exact h.output

variable {small large : Limits} (h : small.Within large) (program : Program)
include h

theorem enter_of_within (m : Machine) (function : Function) (arguments : List Int32) (depth : Nat)
    (callers : List Activation) :
    UpToCut m (enter small m function arguments depth callers)
      (enter large m function arguments depth callers) := by
  by_cases hsmall : small.maxCallDepth ≤ depth
  · simp only [enter, if_pos hsmall]
    exact .inr ⟨m, _, rfl, rfl, rfl, rfl⟩
  · have hlarge : ¬ large.maxCallDepth ≤ depth :=
      fun hle => hsmall (Nat.le_trans h.maxCallDepth hle)
    simp only [enter, if_neg hsmall, if_neg hlarge]
    exact .inl rfl

theorem call_of_within (m : Machine) (a : Activation) (callers : List Activation) (index : Nat)
    (callee : Callee) :
    UpToCut m (call small program m a callers index callee)
      (call large program m a callers index callee) := by
  unfold call
  split
  next => exact .inl rfl
  next arguments stack _ =>
      match callee with
      | .intrinsic .read | .intrinsic .write => exact .inl rfl
      | .function declaration =>
          dsimp only
          split
          next => exact .inl rfl
          next function _ =>
              split
              · exact enter_of_within h ..
              · exact .inl rfl

/-- Of all statements only calls look at a limit. -/
theorem execute_of_within (m : Machine) (a : Activation) (callers : List Activation) (index : Nat)
    (statement : Statement) :
    UpToCut m (execute small program m a callers index statement)
      (execute large program m a callers index statement) := by
  cases statement with
  | call callee => exact call_of_within h ..
  | _ => exact .inl rfl

/-- Steps differ in nothing but a cut. -/
theorem step_of_within (r : Run) :
    UpToCut r.machine (step small program r) (step large program r) := by
  obtain ⟨m, a, callers⟩ := r
  simp only [step]
  split
  next => exact .inl rfl
  next statement _ =>
      by_cases hsmall : small.maxSteps ≤ m.steps
      · rw [if_pos hsmall]
        exact .inr ⟨m.count, _, rfl, rfl, rfl, rfl⟩
      · have hlarge : ¬ large.maxSteps ≤ m.steps := fun hle => hsmall (Nat.le_trans h.maxSteps hle)
        rw [if_neg hsmall, if_neg hlarge]
        exact execute_of_within h program m.count ..

/-- Two results of runs are the same, unless the first run is cut short; then the second one goes on
from where that one was stopped. -/
def ResultsUpToCut (first second : Machine × Except Fault Int32) : Prop :=
  second = first ∨ isCutShort first.2 = true ∧ GoesBeyond first.1 second.1

/-- Runs differ in nothing but a cut. -/
theorem finish_of_within (r : Run) :
    ResultsUpToCut (finish small program r) (finish large program r) := by
  obtain hsame | ⟨m, outcome, hstop, hcut, hinput, houtput⟩ := step_of_within h program r
  · rw [finish_eq small, finish_eq large, hsame]
    match hstep : step small program r with
    | .stopped m outcome => exact .inl rfl
    | .running r' => exact finish_of_within r'
  · -- the second run goes on from where the first one was stopped
    obtain ⟨e, he⟩ := framed_finish large program r
    rw [finish_eq small, hstop]
    exact .inr ⟨hcut, he.leads.goesBeyond hinput houtput⟩
termination_by r.measure small
decreasing_by exact measure_lt_of_step hstep

theorem runFunction_of_within (function : Function) (m : Machine) :
    ResultsUpToCut (runFunction small program function m)
      (runFunction large program function m) := by
  obtain hsame | ⟨m', outcome, hstop, hcut, hinput, houtput⟩ :=
    enter_of_within h m function [] 0 []
  · rw [runFunction, runFunction, hsame]
    cases enter small m function [] 0 [] with
    | stopped m outcome => exact .inl rfl
    | running r => exact finish_of_within h program r
  · obtain ⟨e, he⟩ := framed_runFunction large program function m
    rw [runFunction, hstop]
    exact .inr ⟨hcut, he.leads.goesBeyond hinput houtput⟩

theorem run_of_within (request : Request) (m : Machine) :
    ResultsUpToCut (request.run small program m) (request.run large program m) := by
  cases request with
  | routine body => exact runFunction_of_within h program _ m
  | entry =>
      simp only [Request.run, runEntry]
      split
      next => exact .inl rfl
      next function _ => exact runFunction_of_within h program function m

/-- Limits only ever cut a run short. A run that no limit cuts short is the same under any
limits that are nowhere lower. One that a limit does cut short has written no more than a front of
what is written under such limits, and has taken no more than a front of what is taken under
them. -/
theorem limits_only_cut (request : Request) (m : Machine) :
    (isCutShort (request.run small program m).2 = false →
      request.run large program m = request.run small program m) ∧
    (isCutShort (request.run small program m).2 = true →
      (request.run small program m).1.output.toList <+:
        (request.run large program m).1.output.toList ∧
      ∃ taken taken', m.input = taken ++ (request.run small program m).1.input ∧
        m.input = taken' ++ (request.run large program m).1.input ∧ taken <+: taken') := by
  obtain ⟨e, he⟩ := exists_does small program request m
  obtain hsame | ⟨hcut, taken, written, hinput, houtput⟩ := run_of_within h program request m
  · rw [hsame]
    exact ⟨fun _ => rfl, fun _ => ⟨List.prefix_rfl, e.taken, e.taken, he.leads.input,
      he.leads.input, List.prefix_rfl⟩⟩
  · refine ⟨fun huncut => absurd hcut (by simp [huncut]), fun _ => ⟨?_, e.taken, e.taken ++ taken,
      he.leads.input, ?_, List.prefix_append ..⟩⟩
    · rw [houtput, Array.toList_appendList]
      exact List.prefix_append ..
    · rw [List.append_assoc, ← hinput]
      exact he.leads.input

omit h

/-- A program that writes what it reads, one call deeper each time. -/
def descent : Program :=
  .ofRoutine #[.call (.intrinsic .read), .call (.intrinsic .write),
    .call (.function ⟨Program.entryName, []⟩)]

/-- The depth cuts one run short and the steps the next one; a third one finds no more input. -/
theorem descent_cut_short :
    (Request.entry.run ⟨2, 8⟩ descent (.ofInput [4, 5, 6, 7])).2 = .error (.callDepthExceeded 2) ∧
    (Request.entry.run ⟨3, 8⟩ descent (.ofInput [4, 5, 6, 7])).2 = .error (.stepLimitExceeded 8) ∧
    (Request.entry.run ⟨2, 8⟩ descent (.ofInput [4, 5, 6, 7])).1.output.toList <+:
      (Request.entry.run ⟨3, 8⟩ descent (.ofInput [4, 5, 6, 7])).1.output.toList ∧
    (Request.entry.run ⟨5, 13⟩ descent (.ofInput [4, 5, 6, 7])).2 = .error .inputExhausted ∧
    Request.entry.run ⟨9, 99⟩ descent (.ofInput [4, 5, 6, 7]) =
      Request.entry.run ⟨5, 13⟩ descent (.ofInput [4, 5, 6, 7]) := by
  refine ⟨by decide +kernel, by decide +kernel, ?_, by decide +kernel, ?_⟩
  · exact ((limits_only_cut ⟨by decide, by decide⟩ descent .entry _).2 (by decide +kernel)).1
  · exact (limits_only_cut ⟨by decide, by decide⟩ descent .entry _).1 (by decide +kernel)

end Machine

end StackCodegen
