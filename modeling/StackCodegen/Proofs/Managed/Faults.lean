import StackCodegen.Proofs.Managed.StackDiscipline
import StackCodegen.Proofs.Program.Resolution

/-!
# Faults of compiled routines

What the managed target checks on bytecode rules out faults of the reference machine. A routine that
is compiled keeps to the stack discipline, its jumps stay inside it, and it calls no function and
holds no return (`Contained`). Its runs are runs of one activation, whose operands have the height
of its index (`Alone`), so nothing but a zero divisor, the end of the input, and the limit of steps
keeps them from falling off the end (`outcome_of_contained`).
-/

set_option autoImplicit false

namespace StackCodegen.Managed

open ClassFile

/-! ## Routines -/

/-- A routine with one height for each index that is reached, of statements that the target provides
and whose references are resolved in any program. -/
structure Contained (body : Body) : Prop where
  disciplined : body.Disciplined
  provided : ∀ (index : Nat) (statement : Statement), body[index]? = some statement →
    isProvided statement = true
  resolved : ∀ program, body.Resolved program

theorem isProvided_of_emits {pool : StoredPool} {slots : List (String × UInt16)}
    {length next mid : Nat} {statement : Statement} {block : List Instruction}
    (h : Emits pool slots length statement next block mid) :
    isProvided statement = true ∧ ∀ program, statement.Resolved program length := by
  cases h with
  | jump h | jumpIfZero h => exact ⟨rfl, fun _ => h⟩
  | _ => exact ⟨rfl, fun _ => trivial⟩

/-- A compiled routine is contained. -/
theorem contained_of_compile {options : Options} {body : Body} {bytes : Bytes}
    (h : compile options body = .ok bytes) : Contained body := by
  obtain ⟨c, hclass, -⟩ := map_eq_ok.1 h
  obtain ⟨lowered, m, e, layout, flow, types, opening, blocks, hcompiled⟩ :=
    compiled_of_compileClass hclass
  obtain ⟨layout, -, flow, hlayout, -, hflow, -⟩ := assemble_eq_ok hcompiled.assembled_eq
  have hstatement : ∀ (index : Nat) (statement : Statement), body[index]? = some statement →
      isProvided statement = true ∧ ∀ program, statement.Resolved program body.size := by
    intro index statement hget
    obtain ⟨front, block, back, first, mid, hemits, -⟩ := hcompiled.emitted.block hget
    exact isProvided_of_emits hemits
  exact ⟨(exists_analyse_iff_disciplined hcompiled.lowered_eq hlayout).1 ⟨flow, hflow⟩,
    fun index statement hget => (hstatement index statement hget).1,
    fun program index statement hget => (hstatement index statement hget).2 program⟩

/-! ## Runs -/

/-- A run of one activation of a routine, whose operands have the height of its index. -/
structure Alone (body : Body) (r : Machine.Run) : Prop where
  callers_eq : r.callers = []
  body_eq : r.active.body = body
  keeps : r.Keeps

/-- The outcomes that depend on the operands, on the input, or on the limit of steps: the end, or a
fault in a division, in a read, or of a run that is too long. -/
inductive DynamicOutcome (limits : Limits) : Except Fault Int32 → Prop where
  | finished : DynamicOutcome limits (.ok 0)
  | divisionByZero (function : String) (index : Nat) :
      DynamicOutcome limits (.error (.divisionByZero function index))
  | inputExhausted : DynamicOutcome limits (.error .inputExhausted)
  | stepLimitExceeded : DynamicOutcome limits (.error (.stepLimitExceeded limits.maxSteps))

section Runs

variable {limits : Limits} {program : Program} {body : Body} {r r' : Machine.Run}
  {m m' : Machine} {outcome : Except Fault Int32}

theorem alone_enter (hcontained : Contained body) {arguments : List Int32} {depth : Nat}
    (h : Machine.enter limits m ⟨⟨Program.entryName, []⟩, body⟩ arguments depth [] = .running r) :
    Alone body r := by
  refine ⟨(Machine.enter_running h).2, ?_, Machine.keeps_enter ?_ ?_ h⟩
  · unfold Machine.enter at h
    split at h <;> cases h
    rfl
  · exact hcontained.disciplined
  · exact fun caller hcaller => absurd hcaller List.not_mem_nil

/-- A step of a contained routine leaves it alone: no call is entered, and none is left for
another one. -/
theorem alone_step (hcontained : Contained body) (halone : Alone body r)
    (h : Machine.step limits program r = .running r') : Alone body r' := by
  obtain ⟨m, a, callers⟩ := r
  obtain ⟨rfl, rfl, hkeeps, -⟩ := halone
  rw [Machine.step] at h
  split at h
  next => cases h
  next statement hstatement =>
      split at h
      · cases h
      cases Machine.continues_of_execute h with
      | stays hsame hbody =>
          -- the operands grow by the effect of the statement, and so does the height at the index
          obtain ⟨hlength, hnext⟩ := Machine.execute_stack rfl h hsame
          refine ⟨hsame, hbody, ?_, fun caller hcaller => ?_⟩
          · exact Machine.keeps_next hkeeps hstatement hnext 0 hbody rfl hlength
          · rw [hsame] at hcaller
            cases hcaller
      | leaves value hleave => cases hleave
      | enters declaration function arguments stack hcall =>
          -- calls of functions are not provided
          subst hcall
          cases hcontained.provided _ _ hstatement

theorem alone_goes (hcontained : Contained body) (halone : Alone body r)
    (h : Machine.Goes limits program r r') : Alone body r' := by
  induction h with
  | refl => exact halone
  | tail _ hstep ih => exact alone_step hcontained ih hstep

/-- Where a contained routine stops, only data stopped it. -/
theorem outcome_of_alone (hcontained : Contained body) (halone : Alone body r)
    (h : Machine.step limits program r = .stopped m' outcome) : DynamicOutcome limits outcome := by
  -- an underflow is ruled out by the height, a reference by the lowering
  have hunderflow : ∀ name index,
      Machine.step limits program r ≠ .stopped m' (.error (.stackUnderflow name index)) :=
    fun name index => Machine.step_ne_stackUnderflow halone.keeps m' name index
  obtain ⟨-, rfl, -⟩ := halone
  rcases Machine.stops_of_step h with ⟨-, -, rfl⟩ | ⟨-, rfl⟩ | ⟨statement, hstatement, hstops⟩
  · exact .finished
  · exact .stepLimitExceeded
  · have hprovided := hcontained.provided _ statement hstatement
    have hresolved := hcontained.resolved program _ statement hstatement
    cases hstops with
    | underflow => exact absurd h (hunderflow _ _)
    | division => exact .divisionByZero _ _
    | noInput => exact .inputExhausted
    | outOfRange htarget hlt => exact absurd (hresolved.target_le htarget) (Nat.not_le.2 hlt)
    | unknown | tooDeep | unsupported => cases hprovided
    | returned value hreturn => cases statement <;> cases hreturn <;> cases hprovided

/-- Only data stops a contained routine. It may be run on any machine, over any program. -/
theorem outcome_of_contained (hcontained : Contained body) (hdepth : 0 < limits.maxCallDepth) :
    DynamicOutcome limits (Machine.runRoutine limits program body m).2 := by
  obtain ⟨last, first, henter, hgoes, hstep⟩ :=
    Machine.exists_stopsIn limits program ⟨⟨Program.entryName, []⟩, body⟩ m hdepth
  exact outcome_of_alone hcontained
    (alone_goes hcontained (alone_enter hcontained henter) hgoes) hstep

end Runs

/-- What the managed target accepts cannot fail but for its data. On every machine, with any
input and any limits that let the routine be entered, it runs to its end, or stops in a division, in
a read, or at the limit of steps. -/
theorem compiled_routine_outcomes {options : Options} {body : Body} {bytes : Bytes}
    (h : compile options body = .ok bytes) {limits : Limits} (hdepth : 1 ≤ limits.maxCallDepth)
    (program : Program) (m : Machine) :
    DynamicOutcome limits (Machine.runRoutine limits program body m).2 :=
  outcome_of_contained (contained_of_compile h) hdepth

/-- A routine that writes the remainder of 100 by what it reads, until it reads more than 1. -/
def remainderRoutine : Body :=
  #[.call (.intrinsic .read), .store "n", .push 100, .load "n", .binary .rem,
    .call (.intrinsic .write), .load "n", .push 1, .binary .gt, .jumpIfZero 0]

/-- The routine is compiled, and none of its outcomes is missing. -/
theorem remainder_routine_outcomes :
    (∃ bytes, compile ⟨"Program", false⟩ remainderRoutine = .ok bytes) ∧
      (∀ input, DynamicOutcome ⟨1, 12⟩
        (Machine.runRoutine ⟨1, 12⟩ .empty remainderRoutine (.ofInput input)).2) ∧
      [[3], [0], [1], [1, 3]].map (fun input =>
          (Machine.runRoutine ⟨1, 12⟩ .empty remainderRoutine (.ofInput input)).2) =
        [.ok 0, .error (.divisionByZero "main" 4), .error .inputExhausted,
          .error (.stepLimitExceeded 12)] := by
  obtain ⟨bytes, hbytes⟩ := exists_ok_of_toBool
    (by decide +kernel : (compile ⟨"Program", false⟩ remainderRoutine).toBool = true)
  refine ⟨⟨bytes, hbytes⟩, fun input => ?_, by decide +kernel⟩
  exact compiled_routine_outcomes hbytes (by decide) .empty (.ofInput input)

end StackCodegen.Managed
