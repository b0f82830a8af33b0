import StackCodegen.Proofs.Machine.Runs

/-!
# The stack discipline of a body

A body keeps to the stack discipline if every index that its control flow reaches has one height of
the operand stack: the first one has height 0, no statement takes off more than is there, and all
ways to an index agree (`Body.Disciplined`). The heights count what the statements take off and put
on in the reference machine (`underflow_iff`, `execute_stack`).

Main statement: where all bodies keep to the discipline, no run underflows (`ne_stackUnderflow`).
-/

set_option autoImplicit false

namespace StackCodegen

namespace Statement

/-- Operands a statement takes off the stack of its activation. -/
def pops : Statement → Nat
  | store _ | negate | jumpIfZero _ | returnTop | pop => 1
  | binary _ => 2
  | call callee => callee.arity
  | nop | push _ | load _ | jump _ | returnZero | prepareArguments => 0

/-- Words a statement puts on the stack of its activation. -/
def pushes : Statement → Nat
  | push _ | load _ | negate | binary _ => 1
  | call callee => if callee.returnsValue then 1 else 0
  | nop | store _ | jump _ | jumpIfZero _ | returnZero | returnTop | pop | prepareArguments => 0

/-- The height behind a statement that starts at `height`. -/
def heightAfter (statement : Statement) (height : Nat) : Nat :=
  height - statement.pops + statement.pushes

/-- The indices that statement `index` may be followed by. -/
def successors (index : Nat) : Statement → List Nat
  | jump target => [target.toNat]
  | jumpIfZero target => [index + 1, target.toNat]
  | returnZero | returnTop | prepareArguments => []
  | _ => [index + 1]

end Statement

namespace Body

/-- The indices that the control flow of a body reaches from its start. -/
inductive Reaches (body : Body) : Nat → Prop where
  | start : Reaches body 0
  | step {index next : Nat} {statement : Statement} (h : Reaches body index)
      (hstatement : body[index]? = some statement) (hnext : next ∈ statement.successors index) :
      Reaches body next

/-- One height for each index that is reached. -/
structure Heights (body : Body) (height : Nat → Nat) : Prop where
  start : height 0 = 0
  pops_le : ∀ index statement, body.Reaches index → body[index]? = some statement →
    statement.pops ≤ height index
  agree : ∀ index statement next, body.Reaches index → body[index]? = some statement →
    next ∈ statement.successors index → height next = statement.heightAfter (height index)

/-- The stack discipline. -/
def Disciplined (body : Body) : Prop := ∃ height, body.Heights height

/-- Whether numbers are heights of the indices of a body, of those that are not reached as well. -/
def fits (body : Body) (heights : List Nat) : Bool :=
  heights.getD 0 0 = 0 && body.toList.zipIdx.all fun (statement, index) =>
    statement.pops ≤ heights.getD index 0 && (statement.successors index).all fun next =>
      heights.getD next 0 = statement.heightAfter (heights.getD index 0)

theorem disciplined_of_fits {body : Body} {heights : List Nat} (h : body.fits heights = true) :
    body.Disciplined := by
  simp only [fits, Bool.and_eq_true, decide_eq_true_eq, List.all_eq_true] at h
  obtain ⟨hstart, hall⟩ := h
  have hmem : ∀ {index : Nat} {statement : Statement}, body[index]? = some statement →
      (statement, index) ∈ body.toList.zipIdx := by
    intro index statement hstatement
    rw [List.mem_zipIdx_iff_getElem?, Array.getElem?_toList]
    exact hstatement
  exact ⟨fun index => heights.getD index 0, hstart,
    fun index statement _ hstatement => (hall _ (hmem hstatement)).1,
    fun index statement next _ hstatement hnext => (hall _ (hmem hstatement)).2 next hnext⟩

end Body

namespace Machine

variable {limits : Limits} {program : Program} {m : Machine} {a : Activation}
  {callers : List Activation} {index : Nat} {statement : Statement}

/-- Too few operands are the one cause of an underflow. -/
theorem splitArguments_eq_none_iff {n : Nat} {stack arguments : List Int32} :
    splitArguments n stack arguments = none ↔ stack.length < n := by
  induction n generalizing stack arguments with
  | zero => simp [splitArguments]
  | succ n ih =>
      cases stack with
      | nil => simp [splitArguments]
      | cons word stack => rw [splitArguments, ih, List.length_cons, Nat.succ_lt_succ_iff]

/-- A call underflows if its operands are not there. -/
theorem call_underflow_iff {callee : Callee} {name : String} {index' : Nat} :
    (∃ m', call limits program m a callers index callee =
      .stopped m' (.error (.stackUnderflow name index'))) ↔
      a.stack.length < callee.arity ∧ name = a.function ∧ index' = index := by
  rw [← @splitArguments_eq_none_iff callee.arity a.stack [], call]
  constructor
  · rintro ⟨m', h⟩
    split at h
    next hnone =>
        cases h
        exact ⟨hnone, rfl, rfl⟩
    next =>
        -- with the operands there, a call ends in other faults alone
        unfold enter at h
        repeat' split at h
        all_goals cases h
  · rintro ⟨h, rfl, rfl⟩
    rw [h]
    exact ⟨m, rfl⟩

/-- A statement underflows if it takes off more than is there, and only then. -/
theorem underflow_iff {name : String} {index' : Nat} :
    (∃ m', execute limits program m a callers index statement =
      .stopped m' (.error (.stackUnderflow name index'))) ↔
      a.stack.length < statement.pops ∧ name = a.function ∧ index' = index := by
  cases statement with
  | call callee => exact call_underflow_iff
  | binary op =>
      match hs : a.stack with
      | [] | [_] => simp [execute, execute.underflow, Statement.pops, hs, eq_comm]
      | right :: left :: stack =>
        have hfit : ¬ (right :: left :: stack).length < (Statement.binary op).pops :=
          Nat.not_lt.2 (Nat.le_add_left 2 _)
        simp only [hfit, false_and, iff_false]
        cases hop : op.eval left right <;> simp [execute, hs, hop]
  | returnZero => cases callers <;> simp [execute, leave, Statement.pops]
  | returnTop =>
      cases hs : a.stack <;> cases callers <;>
        simp [execute, execute.underflow, leave, Statement.pops, hs, eq_comm]
  | jump target =>
      by_cases htarget : a.body.size < target.toNat <;>
        simp [execute, execute.outOfRange, Statement.pops, htarget]
  | jumpIfZero target =>
      cases hs : a.stack with
      | nil => simp [execute, execute.underflow, Statement.pops, hs, eq_comm]
      | cons value stack =>
          by_cases htarget : a.body.size < target.toNat <;> by_cases hzero : value = 0 <;>
            simp [execute, execute.outOfRange, Statement.pops, hs, htarget, hzero]
  | _ => cases hs : a.stack <;> simp [execute, execute.underflow, Statement.pops, hs, eq_comm]

/-- A call that stays in its activation leaves the value of a service, if it has one. -/
theorem call_stack {callee : Callee} {r : Run}
    (h : call limits program m a callers index callee = .running r)
    (hcallers : r.callers = callers) :
    r.active.stack.length = (Statement.call callee).heightAfter a.stack.length ∧
      r.active.next = a.next := by
  unfold call at h
  split at h
  · cases h
  next arguments stack hsplit =>
      obtain ⟨hle, -, rfl⟩ := splitArguments_eq hsplit
      cases callee with
      | intrinsic service =>
          cases service with
          | read =>
              dsimp only at h
              split at h
              · cases h
              · cases h
                exact ⟨by simp [Statement.heightAfter, Statement.pops, Statement.pushes,
                  Callee.returnsValue, Intrinsic.returnsValue], rfl⟩
          | write =>
              cases h
              exact ⟨by simp [Statement.heightAfter, Statement.pops, Statement.pushes,
                Callee.returnsValue, Intrinsic.returnsValue], rfl⟩
      | function declaration =>
          -- a function is entered in an activation of its own
          dsimp only at h
          repeat' split at h
          · cases h
          · have hlength := congrArg List.length ((enter_running h).2.symm.trans hcallers)
            rw [List.length_cons] at hlength
            omega
          · cases h

/-- A statement that goes on in its activation leaves the stack at its height, and goes to one
of its successors. -/
theorem execute_stack {r : Run} (hnext : a.next = index + 1)
    (h : execute limits program m a callers index statement = .running r)
    (hcallers : r.callers = callers) :
    r.active.stack.length = statement.heightAfter a.stack.length ∧
      r.active.next ∈ statement.successors index := by
  cases statement with
  | call callee =>
      obtain ⟨hlength, hstay⟩ := call_stack h hcallers
      exact ⟨hlength, by rw [hstay, hnext]; exact List.mem_singleton_self _⟩
  | returnZero =>
      have hlength := (leave_running h).2
      rw [hcallers] at hlength
      omega
  | returnTop =>
      rw [execute] at h
      split at h
      · have hlength := (leave_running h).2
        rw [hcallers] at hlength
        omega
      · cases h
  | binary op =>
      rw [execute] at h
      repeat' split at h
      all_goals cases h
      next hs _ _ _ =>
        refine ⟨?_, by rw [hnext]; exact List.mem_singleton_self _⟩
        simp [hs, Statement.heightAfter, Statement.pops, Statement.pushes]
  | jump target =>
      rw [execute] at h
      split at h <;> cases h
      exact ⟨rfl, List.mem_singleton_self _⟩
  | jumpIfZero target =>
      rw [execute] at h
      repeat' split at h
      all_goals cases h
      · exact ⟨by simp_all [Statement.heightAfter, Statement.pops, Statement.pushes],
          List.mem_cons_of_mem _ (List.mem_singleton_self _)⟩
      · refine ⟨by simp_all [Statement.heightAfter, Statement.pops, Statement.pushes], ?_⟩
        rw [hnext]
        exact List.mem_cons_self
  | prepareArguments => cases h
  | _ =>
      rw [execute] at h
      try split at h
      all_goals cases h
      refine ⟨?_, by rw [hnext]; exact List.mem_singleton_self _⟩
      simp_all [Statement.heightAfter, Statement.pops, Statement.pushes]

/-! ## Runs -/

/-- An activation whose operand stack, with `more` words on it, has the height of its index. -/
def Activation.Keeps (more : Nat) (a : Activation) : Prop :=
  ∃ height, a.body.Heights height ∧ a.body.Reaches a.next ∧ height a.next = a.stack.length + more

/-- Every activation of a run has its height, a caller once it has the value it waits for. -/
structure Run.Keeps (r : Run) : Prop where
  active : r.active.Keeps 0
  callers : ∀ caller ∈ r.callers, caller.Keeps 1

theorem keeps_enter {function : Function} {arguments : List Int32} {depth : Nat} {r : Run}
    (hfunction : function.body.Disciplined) (hcallers : ∀ caller ∈ callers, caller.Keeps 1)
    (h : enter limits m function arguments depth callers = .running r) : r.Keeps := by
  unfold enter at h
  split at h
  · cases h
  · cases h
    obtain ⟨height, hheight⟩ := hfunction
    exact ⟨⟨height, hheight, .start, hheight.start⟩, hcallers⟩

theorem keeps_leave {value : Int32} {r : Run} (hcallers : ∀ caller ∈ callers, caller.Keeps 1)
    (h : leave m value callers = .running r) : r.Keeps := by
  cases callers with
  | nil => cases h
  | cons caller callers =>
      cases h
      obtain ⟨height, hheight, hreaches, hlength⟩ := hcallers caller List.mem_cons_self
      exact ⟨⟨height, hheight, hreaches, hlength⟩,
        fun c hc => hcallers c (List.mem_cons_of_mem _ hc)⟩

/-- The successors of a statement have the height behind it. -/
theorem keeps_next {next : Nat} {b : Activation} (hkeeps : a.Keeps 0)
    (hstatement : a.body[a.next]? = some statement) (hnext : next ∈ statement.successors a.next)
    (more : Nat) (hbody : b.body = a.body) (hb : b.next = next)
    (hlength : b.stack.length + more = statement.heightAfter a.stack.length) : b.Keeps more := by
  obtain ⟨height, hheight, hreaches, hstack⟩ := hkeeps
  subst hb
  refine ⟨height, hbody ▸ hheight, hbody ▸ hreaches.step hstatement hnext, ?_⟩
  rw [hheight.agree a.next statement _ hreaches hstatement hnext, hstack, hlength, Nat.add_zero]

/-- What a statement that does not stop the run does to its activations: the active one goes on, it
is left, or another one is entered. -/
inductive Continues (limits : Limits) (program : Program) (m : Machine) (a : Activation)
    (callers : List Activation) (statement : Statement) (r : Run) : Prop where
  | stays (hcallers : r.callers = callers) (hbody : r.active.body = a.body)
  | leaves (value : Int32) (h : leave m value callers = .running r)
  | enters (declaration : Declaration) (function : Function) (arguments stack : List Int32)
      (hstatement : statement = .call (.function declaration))
      (hstack : splitArguments declaration.arity a.stack [] = some (arguments, stack))
      (hfunction : program.function? declaration.name = some function)
      (h : enter limits m function arguments (a.depth + 1)
        ({ a with stack := stack } :: callers) = .running r)

theorem continues_of_execute {r : Run}
    (h : execute limits program m a callers index statement = .running r) :
    Continues limits program m a callers statement r := by
  cases statement with
  | call callee =>
      rw [execute, call] at h
      split at h
      · cases h
      next arguments stack hstack =>
          cases callee with
          | intrinsic service =>
              cases service with
              | read =>
                  dsimp only at h
                  split at h <;> cases h
                  exact .stays rfl rfl
              | write =>
                  cases h
                  exact .stays rfl rfl
          | function declaration =>
              dsimp only at h
              split at h
              · cases h
              next function hfunction =>
                  split at h
                  · exact .enters declaration function arguments stack rfl hstack hfunction h
                  · cases h
  | returnZero => exact .leaves 0 h
  | returnTop =>
      rw [execute] at h
      split at h
      next value _ _ => exact .leaves value h
      next => cases h
  | _ =>
      rw [execute] at h
      repeat' split at h
      all_goals cases h
      all_goals exact .stays rfl rfl

/-- A step keeps the heights of all activations. -/
theorem keeps_step {r r' : Run} (hall : ∀ f ∈ program.functions, f.body.Disciplined)
    (hkeeps : r.Keeps) (h : step limits program r = .running r') : r'.Keeps := by
  obtain ⟨m, a, callers⟩ := r
  obtain ⟨hactive, hcallers⟩ := hkeeps
  rw [step] at h
  split at h
  next => exact keeps_leave hcallers h
  next statement hstatement =>
      split at h
      · cases h
      cases continues_of_execute h with
      | stays hsame hbody =>
          obtain ⟨hlength, hnext⟩ := execute_stack rfl h hsame
          exact ⟨keeps_next hactive hstatement hnext 0 hbody rfl hlength, hsame ▸ hcallers⟩
      | leaves value hleave => exact keeps_leave hcallers hleave
      | enters declaration function arguments stack hcall hstack hfunction henter =>
          obtain ⟨hle, -, rfl⟩ := splitArguments_eq hstack
          refine keeps_enter (hall function (List.mem_of_find?_eq_some hfunction)) ?_ henter
          subst hcall
          intro caller hmem
          rcases List.mem_cons.1 hmem with rfl | hmem
          · refine keeps_next hactive hstatement (List.mem_singleton_self _) 1 rfl rfl ?_
            simp [Statement.heightAfter, Statement.pops, Statement.pushes, Callee.arity,
              Callee.returnsValue]
          · exact hcallers caller hmem

theorem keeps_goes {r r' : Run} (hall : ∀ f ∈ program.functions, f.body.Disciplined)
    (hkeeps : r.Keeps) (h : Goes limits program r r') : r'.Keeps := by
  induction h with
  | refl => exact hkeeps
  | tail _ hstep ih => exact keeps_step hall ih hstep

/-- A statement finds its operands where the height of its index says so. -/
theorem step_ne_stackUnderflow {r : Run} (hkeeps : r.Keeps) (m' : Machine) (name : String)
    (index : Nat) : step limits program r ≠ .stopped m' (.error (.stackUnderflow name index)) := by
  obtain ⟨m, a, callers⟩ := r
  obtain ⟨height, hheight, hreaches, hlength⟩ := hkeeps.active
  intro h
  rw [step] at h
  split at h
  next => cases callers <;> cases h
  next statement hstatement =>
      split at h
      · cases h
      have hpops := hheight.pops_le a.next statement hreaches hstatement
      have hshort := (underflow_iff.1 ⟨m', h⟩).1
      dsimp only at hlength hshort
      omega

/-- Bodies that keep to the stack discipline never underflow. -/
theorem ne_stackUnderflow {function : Function} (hfunction : function.body.Disciplined)
    (hall : ∀ f ∈ program.functions, f.body.Disciplined) (name : String) (index : Nat) :
    (runFunction limits program function m).2 ≠ .error (.stackUnderflow name index) := by
  intro hfault
  rw [runFunction] at hfault
  cases henter : enter limits m function [] 0 [] with
  | stopped m' outcome =>
      rw [henter] at hfault
      unfold enter at henter
      split at henter <;> cases henter
      cases hfault
  | running first =>
      rw [henter] at hfault
      have hfirst : first.Keeps :=
        keeps_enter hfunction (fun _ h => absurd h List.not_mem_nil) henter
      obtain ⟨last, hgoes, hlast⟩ := exists_last_of_finish (r := first) rfl
      have hfinish : (finish limits program first).2 = .error (.stackUnderflow name index) := hfault
      rw [hfinish] at hlast
      exact step_ne_stackUnderflow (keeps_goes hall hfirst hgoes) _ _ _ hlast

end Machine

end StackCodegen
