import StackCodegen.Proofs.Machine.Runs

/-!
# What runs do to a machine

A run takes values from the front of the input, writes values behind the output, counts steps and
reports events. An `Effect` is what was done, without the machine that it was done to; it leads from
one machine to another by `Effect.Leads`. A computation is framed (`Framed`) if it does the same to
every machine that has counted as many steps and offers the values it took: what was written before
has no part in it, and neither has the input that is left over. Where it stopped for want of input
nothing is left over, and more input would have let it go on.

Main statements: every step and every run is framed (`framed_step`, `framed_finish`).
-/

set_option autoImplicit false

namespace StackCodegen.Machine

/-! ## Effects -/

/-- What is done to a machine: the values taken from its input, the values written, the number of
steps counted and the events reported. -/
structure Effect where
  taken : List Int32
  written : List Int32
  steps : Nat
  events : List CallEvent

namespace Effect

/-- The effect of doing nothing. -/
def none : Effect := ⟨[], [], 0, []⟩

/-- One effect after the other. -/
instance : Append Effect where
  append d e :=
    ⟨d.taken ++ e.taken, d.written ++ e.written, d.steps + e.steps, d.events ++ e.events⟩

/-- The machine behind an effect that leaves `rest` of the input. -/
def after (e : Effect) (m : Machine) (rest : List Int32) : Machine where
  input := rest
  output := m.output ++ e.written
  steps := m.steps + e.steps
  events := m.events.map fun (reported : Array CallEvent) => reported ++ e.events

/-- An effect leads from one machine to another: what it takes is the front of the input. -/
structure Leads (e : Effect) (m m' : Machine) : Prop where
  input : m.input = e.taken ++ m'.input
  eq_after : m' = e.after m m'.input

variable {d e : Effect} {m m' m'' : Machine}

theorem Leads.output (h : e.Leads m m') : m'.output = m.output ++ e.written :=
  congrArg Machine.output h.eq_after

theorem taken_append : (d ++ e).taken = d.taken ++ e.taken := rfl

theorem written_append : (d ++ e).written = d.written ++ e.written := rfl

theorem after_append (m : Machine) (rest rest' : List Int32) :
    (d ++ e).after m rest' = e.after (d.after m rest) rest' := by
  have hassoc : ∀ {α : Type} (a : Array α) (l l' : List α), a ++ (l ++ l') = a ++ l ++ l' :=
    fun a l l' => Array.ext' (by simp)
  have hevents : (d ++ e).events = d.events ++ e.events := rfl
  have hsteps : (d ++ e).steps = d.steps + e.steps := rfl
  simp only [after, written_append, hevents, hsteps, hassoc, Nat.add_assoc, Option.map_map,
    Function.comp_def]

/-- An effect that takes nothing leads on from every machine. -/
theorem leads_iff_of_taken (h : e.taken = []) : e.Leads m m' ↔ m' = e.after m m.input := by
  constructor
  · rintro ⟨hinput, heq⟩
    rw [h, List.nil_append] at hinput
    rw [hinput]
    exact heq
  · rintro rfl
    exact ⟨by rw [h]; rfl, rfl⟩

theorem leads_none_iff : none.Leads m m' ↔ m' = m := by
  have hsame : none.after m m.input = m := by simp [after, none]
  rw [leads_iff_of_taken rfl, hsame]

/-- A counted step is an effect. -/
theorem leads_count_iff (m m' : Machine) : Leads ⟨[], [], 1, []⟩ m m' ↔ m' = m.count := by
  have hsame : after ⟨[], [], 1, []⟩ m m.input = m.count := by simp [after, count]
  rw [leads_iff_of_taken rfl, hsame]

/-- A reported event is an effect. -/
theorem leads_note_iff (event : CallEvent) (m m' : Machine) :
    Leads ⟨[], [], 0, [event]⟩ m m' ↔ m' = m.note event := by
  have hsame : after ⟨[], [], 0, [event]⟩ m m.input = m.note event := by simp [after, note]
  rw [leads_iff_of_taken rfl, hsame]

theorem leads_write_iff (written : List Int32) (m m' : Machine) :
    Leads ⟨[], written, 0, []⟩ m m' ↔ m' = { m with output := m.output ++ written } := by
  have hsame : after ⟨[], written, 0, []⟩ m m.input = { m with output := m.output ++ written } := by
    simp [after]
  rw [leads_iff_of_taken rfl, hsame]

theorem leads_read_iff (value : Int32) (m m' : Machine) :
    Leads ⟨[value], [], 0, []⟩ m m' ↔
      m.input = value :: m'.input ∧ m' = { m with input := m'.input } := by
  have hsame : after ⟨[value], [], 0, []⟩ m m'.input = { m with input := m'.input } := by
    simp [after]
  constructor
  · rintro ⟨hinput, heq⟩
    exact ⟨hinput, hsame ▸ heq⟩
  · rintro ⟨hinput, heq⟩
    exact ⟨hinput, hsame ▸ heq⟩

theorem Leads.trans (h : d.Leads m m') (h' : e.Leads m' m'') : (d ++ e).Leads m m'' := by
  refine ⟨?_, ?_⟩
  · rw [h.input, h'.input, taken_append, List.append_assoc]
  · rw [after_append m m'.input, ← h.eq_after]
    exact h'.eq_after

/-- Between two effects lies a machine. -/
theorem Leads.split (h : (d ++ e).Leads m m'') : ∃ m', d.Leads m m' ∧ e.Leads m' m'' := by
  refine ⟨d.after m (e.taken ++ m''.input), ⟨?_, rfl⟩, rfl, ?_⟩
  · rw [h.input, taken_append, List.append_assoc]
    rfl
  · rw [← after_append]
    exact h.eq_after

end Effect

/-! ## Framed computations -/

/-- The machine that a step leads to. -/
def Progress.machine : Progress → Machine
  | running r => r.machine
  | stopped m _ => m

/-- The same progress on another machine. -/
def Progress.onMachine (m : Machine) : Progress → Progress
  | running r => running { r with machine := m }
  | stopped _ outcome => stopped m outcome

/-- A stop for want of input. -/
def Progress.Starved : Progress → Prop
  | running _ => False
  | stopped _ outcome => outcome = .error .inputExhausted

/-- A computation has an effect on a machine, and the same one on every machine that has counted as
many steps and offers what the effect takes. Stopped for want of input it leaves none. -/
structure Framed (f : Machine → Progress) (m : Machine) (e : Effect) : Prop where
  leads : e.Leads m (f m).machine
  input_eq_nil : (f m).Starved → (f m).machine.input = []
  again : ∀ m₂ m₂', m₂.steps = m.steps → e.Leads m₂ m₂' → ((f m).Starved → m₂'.input = []) →
    f m₂ = (f m).onMachine m₂'

variable {m : Machine}

theorem framed_running (m : Machine) (a : Activation) (callers : List Activation) :
    Framed (fun m => .running ⟨m, a, callers⟩) m .none where
  leads := Effect.leads_none_iff.2 rfl
  input_eq_nil := False.elim
  again _ _ _ hleads _ := by
    rw [Effect.leads_none_iff.1 hleads]
    rfl

theorem framed_stopped (m : Machine) {outcome : Except Fault Int32}
    (h : outcome ≠ .error .inputExhausted) : Framed (fun m => .stopped m outcome) m .none where
  leads := Effect.leads_none_iff.2 rfl
  input_eq_nil hstarved := absurd hstarved h
  again _ _ _ hleads _ := by
    rw [Effect.leads_none_iff.1 hleads]
    rfl

/-- What a machine goes through first belongs to the effect. -/
theorem Framed.precede {f : Machine → Progress} {g : Machine → Machine} {d e : Effect}
    (hg : ∀ m m', d.Leads m m' ↔ m' = g m) (h : Framed f (g m) e) :
    Framed (fun m => f (g m)) m (d ++ e) where
  leads := ((hg m (g m)).2 rfl).trans h.leads
  input_eq_nil := h.input_eq_nil
  again m₂ m₂' hsteps hleads hinput := by
    obtain ⟨m₁, hfirst, hsecond⟩ := hleads.split
    have hcount : m₁.steps = (g m).steps := by
      rw [hfirst.eq_after, ((hg m (g m)).2 rfl).eq_after]
      exact congrArg (· + d.steps) hsteps
    rw [(hg m₂ m₁).1 hfirst] at hsecond hcount
    exact h.again _ _ hcount hsecond hinput

/-- What is done to machines with one count of steps is all that matters. -/
theorem Framed.congr {f g : Machine → Progress} {e : Effect} (h : Framed f m e)
    (hsame : ∀ m₂, m₂.steps = m.steps → g m₂ = f m₂) : Framed g m e := by
  have hm : g m = f m := hsame m rfl
  refine ⟨?_, ?_, ?_⟩
  · rw [hm]
    exact h.leads
  · rw [hm]
    exact h.input_eq_nil
  · intro m₂ m₂' hsteps hleads hinput
    rw [hm] at hinput ⊢
    rw [hsame m₂ hsteps]
    exact h.again m₂ m₂' hsteps hleads hinput

/-- The result of a run as the progress that it comes to. -/
def Progress.ended (result : Machine × Except Fault Int32) : Progress :=
  .stopped result.1 result.2

/-- A step and what follows it. -/
def Progress.andThen (next : Run → Progress) : Progress → Progress
  | running r => next r
  | stopped m outcome => stopped m outcome

/-- What follows a step adds to the effect. -/
theorem Framed.andThen {f : Machine → Progress} {d : Effect} (h : Framed f m d)
    (next : Run → Progress) (hnext : ∀ r, f m = .running r →
      ∃ e, Framed (fun m => next { r with machine := m }) r.machine e) :
    ∃ e, Framed (fun m => (f m).andThen next) m e := by
  -- what the first step comes to on `m`, it comes to on every machine that offers the same
  match hm : f m with
  | .stopped m' outcome =>
      refine ⟨d, ?_, ?_, ?_⟩
      · have hleads := h.leads
        rw [hm] at hleads ⊢
        exact hleads
      · have hnil := h.input_eq_nil
        rw [hm] at hnil ⊢
        exact hnil
      · intro m₂ m₂' hsteps hleads hinput
        have hagain := h.again m₂ m₂' hsteps hleads
        rw [hm] at hinput hagain ⊢
        rw [hagain hinput]
        rfl
  | .running r =>
      obtain ⟨e, he⟩ := hnext r hm
      have hleads := h.leads
      rw [hm] at hleads
      refine ⟨d ++ e, ?_, ?_, ?_⟩
      · rw [hm]
        exact hleads.trans he.leads
      · rw [hm]
        exact he.input_eq_nil
      · intro m₂ m₂'' hsteps hleads₂ hinput
        -- the step leads to a machine from which what follows can be done again
        obtain ⟨m₂', hfirst, hsecond⟩ := hleads₂.split
        have hagain := h.again m₂ m₂' hsteps hfirst
        rw [hm] at hinput hagain ⊢
        rw [hagain False.elim]
        refine he.again m₂' m₂'' ?_ hsecond hinput
        rw [hfirst.eq_after, show r.machine = _ from hleads.eq_after]
        exact congrArg (· + d.steps) hsteps

/-! ## Steps and runs -/

variable (limits : Limits) (program : Program)

theorem framed_enter (m : Machine) (function : Function) (arguments : List Int32) (depth : Nat)
    (callers : List Activation) :
    ∃ e, Framed (fun m => enter limits m function arguments depth callers) m e := by
  unfold enter
  split
  · exact ⟨_, framed_stopped m (by simp)⟩
  · exact ⟨_, (framed_running _ _ _).precede (Effect.leads_note_iff _)⟩

theorem framed_leave (m : Machine) (value : Int32) (callers : List Activation) :
    ∃ e, Framed (fun m => leave m value callers) m e := by
  cases callers with
  | nil => exact ⟨_, framed_stopped m (by simp)⟩
  | cons caller callers => exact ⟨_, framed_running _ _ _⟩

/-- Reading takes the value in front, if there is one. -/
theorem framed_read (m : Machine) (a : Activation) (stack : List Int32)
    (callers : List Activation) :
    ∃ e, Framed (fun m => match m.input with
      | [] => .stopped m (.error .inputExhausted)
      | value :: input =>
        .running ⟨{ m with input := input }, { a with stack := value :: stack }, callers⟩) m e := by
  cases hinput : m.input with
  | nil =>
      -- nothing is taken, and the machines that do the same are those without input
      refine ⟨.none, ?_, ?_, ?_⟩
      · simp only [hinput]
        exact Effect.leads_none_iff.2 rfl
      · simp only [hinput]
        exact fun _ => hinput
      · intro m₂ m₂' _ hleads hstarved
        simp only [hinput] at hstarved ⊢
        rw [Effect.leads_none_iff] at hleads
        subst hleads
        simp only [hstarved rfl]
        rfl
  | cons value input =>
      refine ⟨⟨[value], [], 0, []⟩, ?_, ?_, ?_⟩
      · simp only [hinput]
        exact (Effect.leads_read_iff ..).2 ⟨hinput, rfl⟩
      · simp only [hinput]
        exact False.elim
      · intro m₂ m₂' _ hleads _
        obtain ⟨hinput₂, hrest⟩ := (Effect.leads_read_iff ..).1 hleads
        simp only [hinput, hinput₂, ← hrest]
        rfl

theorem framed_call (m : Machine) (a : Activation) (callers : List Activation) (index : Nat)
    (callee : Callee) :
    ∃ e, Framed (fun m => call limits program m a callers index callee) m e := by
  unfold call
  split
  next => exact ⟨_, framed_stopped m (by simp)⟩
  next arguments stack _ =>
      match callee with
      | .intrinsic .read => exact framed_read m a stack callers
      | .intrinsic .write =>
          exact ⟨_, (framed_running _ _ _).precede (Effect.leads_write_iff arguments)⟩
      | .function declaration =>
          dsimp only
          split
          next => exact ⟨_, framed_stopped m (by simp)⟩
          next =>
              split
              · exact framed_enter ..
              · exact ⟨_, framed_stopped m (by simp)⟩

/-- A statement is framed. -/
theorem framed_execute (m : Machine) (a : Activation) (callers : List Activation) (index : Nat)
    (statement : Statement) :
    ∃ e, Framed (fun m => execute limits program m a callers index statement) m e := by
  cases statement with
  | call callee => exact framed_call limits program m a callers index callee
  | returnZero => exact framed_leave m 0 callers
  | returnTop =>
      simp only [execute]
      split
      · exact framed_leave m _ callers
      · exact ⟨_, framed_stopped m (by simp)⟩
  | _ =>
      simp only [execute]
      repeat' split
      all_goals first
        | exact ⟨_, framed_running _ _ _⟩
        | exact ⟨_, framed_stopped m (by simp)⟩

/-- A step is framed. -/
theorem framed_step (m : Machine) (a : Activation) (callers : List Activation) :
    ∃ e, Framed (fun m => step limits program ⟨m, a, callers⟩) m e := by
  simp only [step]
  split
  next =>
      obtain ⟨e, he⟩ := framed_leave (m.note (.fallOff a.function)) 0 callers
      exact ⟨_, he.precede (Effect.leads_note_iff _)⟩
  next statement _ =>
      -- the limit looks at nothing but the count
      by_cases hlimit : limits.maxSteps ≤ m.steps
      · have hstop : Framed (fun m => .stopped m.count
            (.error (.stepLimitExceeded limits.maxSteps))) m _ :=
          (framed_stopped _ (by simp)).precede Effect.leads_count_iff
        exact ⟨_, hstop.congr fun m₂ hsteps => if_pos (hsteps ▸ hlimit)⟩
      · obtain ⟨e, he⟩ := framed_execute limits program m.count { a with next := a.next + 1 }
          callers a.next statement
        exact ⟨_, (he.precede Effect.leads_count_iff).congr
          fun m₂ hsteps => if_neg (hsteps ▸ hlimit)⟩

/-- A run is its first step and what follows it. -/
theorem finish_eq (r : Run) :
    finish limits program r = (step limits program r).finish limits program := by
  rw [finish]
  split
  next hstep => rw [hstep]; rfl
  next hstep => rw [hstep]; rfl

theorem ended_progress (progress : Progress) : .ended (progress.finish limits program) =
    progress.andThen fun r => .ended (finish limits program r) := by
  cases progress <;> rfl

/-- A run is framed, whatever limits it and however it ends. -/
theorem framed_finish (r : Run) :
    ∃ e, Framed (fun m => .ended (finish limits program { r with machine := m })) r.machine e := by
  obtain ⟨d, hd⟩ := framed_step limits program r.machine r.active r.callers
  obtain ⟨e, he⟩ := hd.andThen (fun r => .ended (finish limits program r))
    fun r' hstep => framed_finish r'
  exact ⟨e, he.congr fun _ _ => by rw [finish_eq, ended_progress]⟩
termination_by r.measure limits
decreasing_by exact measure_lt_of_step hstep

end StackCodegen.Machine
