import StackCodegen.Machine.Basic
import Mathlib.Logic.Relation

/-!
# Runs of the reference machine

A finished run is a row of steps that go on and one that stops (`exists_last_of_finish`). The last
run before the stop is a state of its own here, since a fault names the statement that it happened
in only sometimes.
-/

set_option autoImplicit false

namespace StackCodegen.Machine

/-- Any number of steps that go on. -/
abbrev Goes (limits : Limits) (program : Program) : Run → Run → Prop :=
  Relation.ReflTransGen fun r r' => step limits program r = .running r'

/-- The step in which the outermost call of a function stops. -/
def StopsIn (limits : Limits) (program : Program) (function : Function) (m : Machine) (last : Run)
    (result : Machine × Except Fault Int32) : Prop :=
  ∃ first, enter limits m function [] 0 [] = .running first ∧ Goes limits program first last ∧
    step limits program last = .stopped result.1 result.2

variable {limits : Limits} {program : Program}

/-- The measure of a run never rises. -/
theorem measure_le_of_goes {r r' : Run} (h : Goes limits program r r') :
    r'.measure limits ≤ r.measure limits := by
  induction h with
  | refl => exact Nat.le_refl _
  | tail _ hstep ih => exact Nat.le_trans (Nat.le_of_lt (measure_lt_of_step hstep)) ih

/-- Every finished run has a last step. -/
theorem exists_last_of_finish {r : Run} {result : Machine × Except Fault Int32}
    (h : finish limits program r = result) :
    ∃ last, Goes limits program r last ∧ step limits program last = .stopped result.1 result.2 := by
  fun_induction finish limits program r with
  | case1 r m outcome hstep =>
      subst h
      exact ⟨r, .refl, hstep⟩
  | case2 r r' hstep ih =>
      obtain ⟨last, hgoes, hlast⟩ := ih h
      exact ⟨last, .head hstep hgoes, hlast⟩

/-- A function that may be entered stops in some step. -/
theorem exists_stopsIn (limits : Limits) (program : Program) (function : Function) (m : Machine)
    (hdepth : 0 < limits.maxCallDepth) :
    ∃ last, StopsIn limits program function m last (runFunction limits program function m) := by
  have henter : enter limits m function [] 0 [] = .running
      ⟨m.note (.enter function.name 0),
        ⟨function.name, function.body, 0, 0, [],
          .ofList (function.declaration.parameters.zip [])⟩, []⟩ :=
    if_neg (Nat.not_le.2 hdepth)
  obtain ⟨last, hgoes, hlast⟩ := exists_last_of_finish
    (r := ⟨m.note (.enter function.name 0),
      ⟨function.name, function.body, 0, 0, [],
        .ofList (function.declaration.parameters.zip [])⟩, []⟩) rfl
  refine ⟨last, _, henter, hgoes, ?_⟩
  rw [runFunction, henter]
  exact hlast

/-- The arguments of a call are the operands taken off, the deepest one first. -/
theorem splitArguments_eq {n : Nat} {stack arguments arguments' rest : List Int32}
    (h : splitArguments n stack arguments = some (arguments', rest)) :
    n ≤ stack.length ∧ arguments' = (stack.take n).reverse ++ arguments ∧ rest = stack.drop n := by
  induction n generalizing stack arguments with
  | zero =>
      cases h
      exact ⟨Nat.zero_le _, rfl, rfl⟩
  | succ n ih =>
      cases stack with
      | nil => cases h
      | cons word stack =>
          obtain ⟨hle, rfl, rfl⟩ := ih h
          exact ⟨Nat.succ_le_succ hle, by simp, rfl⟩

end StackCodegen.Machine
