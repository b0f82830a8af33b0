import StackCodegen.Proofs.Machine.Stops

/-!
# Resolved references

The references of a statement are the targets of its jumps and the function it calls. A program is
resolved if each of them is there, wherever it stands, and no statement is the reserved one
(`Program.Resolved`).

A run executes bodies of the program alone, however deeply its calls are nested: what holds of the
body of every function holds of the body of every activation (`bodies_goes`). So the references of a
resolved program are found in every run, and a fault has its cause in the operands, in the input, or
in the limits (`isDynamic_of_resolved`).
-/

set_option autoImplicit false

namespace StackCodegen

/-- A statement of a body of `length` statements whose references are resolved. -/
def Statement.Resolved (program : Program) (length : Nat) : Statement → Prop
  | .jump target | .jumpIfZero target => target.toNat ≤ length
  | .call (.function declaration) => ∃ f, program.function? declaration.name = some f ∧
      f.declaration.arity = declaration.arity
  | .prepareArguments => False
  | _ => True

/-- A body whose references are resolved, in statements that no run reaches as well. -/
def Body.Resolved (program : Program) (body : Body) : Prop :=
  ∀ (index : Nat) (statement : Statement), body[index]? = some statement →
    statement.Resolved program body.size

/-- A program whose references are resolved. -/
def Program.Resolved (program : Program) : Prop :=
  ∀ f ∈ program.functions, f.body.Resolved program

/-- The faults that depend on the operands, on the input, or on the limits. -/
inductive Fault.IsDynamic (limits : Limits) : Fault → Prop where
  | stackUnderflow (function : String) (index : Nat) :
      IsDynamic limits (.stackUnderflow function index)
  | divisionByZero (function : String) (index : Nat) :
      IsDynamic limits (.divisionByZero function index)
  | inputExhausted : IsDynamic limits .inputExhausted
  | callDepthExceeded : IsDynamic limits (.callDepthExceeded limits.maxCallDepth)
  | stepLimitExceeded : IsDynamic limits (.stepLimitExceeded limits.maxSteps)

theorem Statement.Resolved.target_le {program : Program} {length : Nat} {statement : Statement}
    {target : UInt64} (h : statement.Resolved program length)
    (htarget : statement.jumpTarget? = some target) : target.toNat ≤ length := by
  cases statement <;> cases htarget <;> exact h

namespace Machine

variable {limits : Limits} {program : Program} {m m' : Machine} {a : Activation}
  {callers : List Activation} {index : Nat} {statement : Statement}

/-- A resolved statement stops a run for a dynamic cause. -/
theorem isDynamic_of_stops {fault : Fault} (hresolved : statement.Resolved program a.body.size)
    (h : Stops limits program a callers index statement (.error fault)) :
    fault.IsDynamic limits := by
  cases h with
  | underflow => exact .stackUnderflow _ _
  | division => exact .divisionByZero _ _
  | noInput => exact .inputExhausted
  | tooDeep => exact .callDepthExceeded
  | unknown h =>
      obtain ⟨f, hf, harity⟩ := hresolved
      exact absurd harity (h f hf)
  | outOfRange htarget h => exact absurd (hresolved.target_le htarget) (Nat.not_le.2 h)
  | unsupported => exact hresolved.elim

/-! ## Bodies of activations -/

/-- A run all of whose activations have a body with some property. -/
structure Run.Bodies (P : Body → Prop) (r : Run) : Prop where
  active : P r.active.body
  callers : ∀ caller ∈ r.callers, P caller.body

section Bodies

variable {P : Body → Prop} {r r' : Run}

theorem bodies_enter {function : Function} {arguments : List Int32} {depth : Nat}
    (hfunction : P function.body) (hcallers : ∀ caller ∈ callers, P caller.body)
    (h : enter limits m function arguments depth callers = .running r) : r.Bodies P := by
  unfold enter at h
  split at h <;> cases h
  exact ⟨hfunction, hcallers⟩

theorem bodies_leave {value : Int32} (hcallers : ∀ caller ∈ callers, P caller.body)
    (h : leave m value callers = .running r) : r.Bodies P := by
  cases callers with
  | nil => cases h
  | cons caller callers =>
      cases h
      exact ⟨hcallers caller List.mem_cons_self,
        fun c hc => hcallers c (List.mem_cons_of_mem _ hc)⟩

/-- A step goes on in a body that is there, or in that of a function of the program. -/
theorem bodies_step (hall : ∀ f ∈ program.functions, P f.body) (hbodies : r.Bodies P)
    (h : step limits program r = .running r') : r'.Bodies P := by
  obtain ⟨m, a, callers⟩ := r
  obtain ⟨hactive, hcallers⟩ := hbodies
  rw [step] at h
  split at h
  next => exact bodies_leave hcallers h
  next statement hstatement =>
      split at h
      · cases h
      -- the statement goes on, returns to a caller, or enters a function of the program
      cases continues_of_execute h with
      | stays hsame hbody => exact ⟨hbody ▸ hactive, hsame ▸ hcallers⟩
      | leaves value hleave => exact bodies_leave hcallers hleave
      | enters declaration function arguments stack hcall hstack hfunction henter =>
          refine bodies_enter (hall function (List.mem_of_find?_eq_some hfunction)) ?_ henter
          intro caller hmem
          rcases List.mem_cons.1 hmem with rfl | hmem
          · exact hactive
          · exact hcallers caller hmem

/-- What holds of the body of every function holds of the body of every activation. -/
theorem bodies_goes (hall : ∀ f ∈ program.functions, P f.body) (hbodies : r.Bodies P)
    (h : Goes limits program r r') : r'.Bodies P := by
  induction h with
  | refl => exact hbodies
  | tail _ hstep ih => exact bodies_step hall ih hstep

end Bodies

/-! ## Runs -/

/-- Every fault of a resolved program is dynamic. -/
theorem isDynamic_of_resolved {function : Function} (hprogram : program.Resolved)
    (hfunction : function ∈ program.functions) {fault : Fault}
    (h : (runFunction limits program function m).2 = .error fault) : fault.IsDynamic limits := by
  rcases Nat.eq_zero_or_pos limits.maxCallDepth with hzero | hdepth
  · -- not even the outermost call is entered
    rw [runFunction, enter, if_pos (Nat.le_of_eq hzero)] at h
    cases h
    exact .callDepthExceeded
  · obtain ⟨last, first, henter, hgoes, hstep⟩ := exists_stopsIn limits program function m hdepth
    have hfirst : first.Bodies (Body.Resolved program) :=
      bodies_enter (hprogram function hfunction) (fun _ h => absurd h List.not_mem_nil) henter
    have hlast := bodies_goes hprogram hfirst hgoes
    rw [h] at hstep
    rcases stops_of_step hstep with ⟨-, -, hend⟩ | ⟨-, hlimit⟩ | ⟨statement, hstatement, hstops⟩
    · cases hend
    · cases hlimit
      exact .stepLimitExceeded
    · exact isDynamic_of_stops (hlast.active _ statement hstatement) hstops

end Machine

end StackCodegen
