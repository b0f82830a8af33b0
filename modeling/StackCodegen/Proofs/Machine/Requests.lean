import StackCodegen.Proofs.Machine.Effects

/-!
# Requests to a machine

A machine serves one request after the other: it runs the entry routine of its program or a routine
that it is given, and what a run leaves of the input and counts of the steps is there for the next
one. What was written before has no part in a run, and neither has the input that the run does not
come to; so a row of requests writes what its runs write each by itself, one after the other. The
input may be cut off behind what a request takes (`run_of_taken_le`), and no sooner
(`run_of_lt_taken`).

Main statement: requests are framed (`requests_framed`).
-/

set_option autoImplicit false

namespace StackCodegen.Machine

/-- What a machine can be asked to run: the entry routine of its program, or another routine. -/
inductive Request where
  | entry
  | routine (body : Body)

/-- The run that is asked for. -/
def Request.run (limits : Limits) (program : Program) (m : Machine) :
    Request → Machine × Except Fault Int32
  | entry => runEntry limits program m
  | routine body => runRoutine limits program body m

/-- The machine behind a row of requests. -/
def serve (limits : Limits) (program : Program) : List Request → Machine → Machine
  | [], m => m
  | request :: requests, m => serve limits program requests (request.run limits program m).1

/-- A machine that has written nothing yet. -/
def unwritten (m : Machine) : Machine := { m with output := #[] }

/-- What each request of a row writes where nothing was written before. -/
def outputs (limits : Limits) (program : Program) : List Request → Machine → List (List Int32)
  | [], _ => []
  | request :: requests, m =>
    let result := request.run limits program m.unwritten
    result.1.output.toList :: outputs limits program requests result.1

/-- What a request does to a machine: it takes values from the front of the input, writes values
behind the output and counts steps. Where it finds no input it has taken all of it. Every other
machine that has counted as many steps and offers the values that are taken comes to the same end by
the same effect, with its own rest of the input left over; where the request finds no input, there
must be no such rest. -/
structure Request.Does (limits : Limits) (program : Program) (m : Machine) (request : Request)
    (e : Effect) : Prop where
  leads : e.Leads m (request.run limits program m).1
  input_eq_nil : (request.run limits program m).2 = .error .inputExhausted →
    (request.run limits program m).1.input = []
  again : ∀ m₂ rest, m₂.steps = m.steps → m₂.input = e.taken ++ rest →
    ((request.run limits program m).2 = .error .inputExhausted → rest = []) →
    request.run limits program m₂ = (e.after m₂ rest, (request.run limits program m).2)

variable (limits : Limits) (program : Program)

theorem framed_runFunction (function : Function) (m : Machine) :
    ∃ e, Framed (fun m => .ended (runFunction limits program function m)) m e := by
  obtain ⟨d, hd⟩ := framed_enter limits m function [] 0 []
  obtain ⟨e, he⟩ := hd.andThen (fun r => .ended (finish limits program r))
    fun r _ => framed_finish limits program r
  exact ⟨e, he.congr fun _ _ => ended_progress ..⟩

/-- The run of a request is framed. -/
theorem framed_run (request : Request) (m : Machine) :
    ∃ e, Framed (fun m => .ended (request.run limits program m)) m e := by
  cases request with
  | routine body => exact framed_runFunction limits program _ m
  | entry =>
      simp only [Request.run, runEntry]
      split
      next => exact ⟨_, framed_stopped m (by simp)⟩
      next function _ => exact framed_runFunction limits program function m

theorem exists_does (request : Request) (m : Machine) :
    ∃ e, request.Does limits program m e := by
  obtain ⟨e, hleads, hnil, hagain⟩ := framed_run limits program request m
  refine ⟨e, hleads, hnil, fun m₂ rest hsteps hinput hrest => ?_⟩
  have hsame := hagain m₂ (e.after m₂ rest) hsteps ⟨hinput, rfl⟩ hrest
  injection hsame with hmachine houtcome
  exact Prod.ext hmachine houtcome

/-- The number of values that a request takes from the input. -/
def Request.taken (request : Request) (m : Machine) : Nat :=
  m.input.length - (request.run limits program m).1.input.length

theorem Request.Does.length_taken {limits : Limits} {program : Program} {request : Request}
    {m : Machine} {e : Effect} (h : request.Does limits program m e) :
    e.taken.length = request.taken limits program m := by
  have hlength := congrArg List.length h.leads.input
  rw [List.length_append] at hlength
  rw [taken]
  omega

/-- The front of the input is as good as the whole, as far as a request takes from it. -/
theorem run_of_taken_le (request : Request) {m : Machine} {front : List Int32}
    (hfront : front <+: m.input) (htaken : request.taken limits program m ≤ front.length)
    (hfound : (request.run limits program m).2 ≠ .error .inputExhausted) :
    (request.run limits program { m with input := front }).2 = (request.run limits program m).2 ∧
      (request.run limits program { m with input := front }).1.output =
        (request.run limits program m).1.output := by
  obtain ⟨e, he⟩ := exists_does limits program request m
  rw [← he.length_taken] at htaken
  have htakenFront : e.taken <+: m.input := ⟨_, he.leads.input.symm⟩
  obtain ⟨rest, hrest⟩ := List.prefix_of_prefix_length_le htakenFront hfront htaken
  have hrun := he.again { m with input := front } rest rfl hrest.symm fun hnone =>
    absurd hnone hfound
  rw [hrun, he.leads.output]
  exact ⟨rfl, rfl⟩

/-- A request that is given less than it takes finds no input. -/
theorem run_of_lt_taken (request : Request) {m : Machine} {front : List Int32}
    (hfront : front <+: m.input) (htaken : front.length < request.taken limits program m) :
    (request.run limits program { m with input := front }).2 = .error .inputExhausted := by
  refine Classical.byContradiction fun hfound => ?_
  obtain ⟨d, hd⟩ := exists_does limits program request { m with input := front }
  obtain ⟨back, hback⟩ := hfront
  have hleft : front = d.taken ++ (request.run limits program { m with input := front }).1.input :=
    hd.leads.input
  -- with more input behind it the request would take the same values
  have hrun := hd.again m
    ((request.run limits program { m with input := front }).1.input ++ back) rfl
    (by rw [← List.append_assoc, ← hleft, hback]) fun hnone => absurd hnone hfound
  have hlength := congrArg List.length hleft
  rw [Request.taken, hrun, Effect.after, ← hback] at htaken
  simp only [List.length_append] at htaken hlength
  omega

/-- Earlier output has no part in a run; it stands in front of what the run writes. -/
theorem run_unwritten (request : Request) (m : Machine) :
    (request.run limits program m).1.output.toList =
        m.output.toList ++ (request.run limits program m.unwritten).1.output.toList ∧
      (request.run limits program m).1.unwritten =
        (request.run limits program m.unwritten).1.unwritten := by
  obtain ⟨e, he⟩ := exists_does limits program request m
  rw [he.again m.unwritten _ rfl he.leads.input he.input_eq_nil, he.leads.eq_after]
  exact ⟨by simp [Effect.after, unwritten], rfl⟩

theorem outputs_unwritten (requests : List Request) (m : Machine) :
    outputs limits program requests m.unwritten = outputs limits program requests m := by
  cases requests <;> rfl

/-- A row of requests writes what its runs write one after the other. -/
theorem output_serve (requests : List Request) (m : Machine) :
    (serve limits program requests m).output.toList =
      m.output.toList ++ (outputs limits program requests m).flatten := by
  induction requests generalizing m with
  | nil => simp [serve, outputs]
  | cons request requests ih =>
      obtain ⟨houtput, hsame⟩ := run_unwritten limits program request m
      rw [serve, ih, houtput, outputs, List.flatten_cons, List.append_assoc,
        ← outputs_unwritten, hsame, outputs_unwritten]

/-- Requests are framed. What a request takes from the input, writes, counts and answers does
not depend on earlier output, and neither on the input that it leaves. So a row of requests writes,
one after the other, what its runs write where nothing was written before. -/
theorem requests_framed :
    (∀ request m, ∃ e, Request.Does limits program m request e) ∧
      ∀ requests m, (serve limits program requests m).output.toList =
        m.output.toList ++ (outputs limits program requests m).flatten :=
  ⟨exists_does limits program, output_serve limits program⟩

end StackCodegen.Machine

namespace StackCodegen

theorem outputOf_eq_ok_iff {result : Machine × Except Fault Int32} {output : List Int32} :
    outputOf result = .ok output ↔ (∃ value, result.2 = .ok value) ∧
      result.1.output.toList = output := by
  obtain ⟨m, outcome⟩ := result
  cases outcome with
  | ok value => simp [outputOf]
  | error fault => simp [outputOf]

namespace Program

/-- The number of values that a run of a program takes from its input. -/
def valuesTaken (program : Program) (values : List Int32) : Nat :=
  Machine.Request.entry.taken .standard program (.ofInput values)

variable {program : Program} {values front output : List Int32}

/-- A run on the front of its input writes the same, if it takes no more than that. -/
theorem run_of_valuesTaken_le (hrun : program.run values = .ok output) (hfront : front <+: values)
    (htaken : program.valuesTaken values ≤ front.length) : program.run front = .ok output := by
  obtain ⟨⟨value, hvalue⟩, houtput⟩ := outputOf_eq_ok_iff.1 hrun
  have hfound : (Machine.Request.run .standard program (.ofInput values) .entry).2 ≠
      .error .inputExhausted := by
    intro hnone
    cases hvalue.symm.trans hnone
  obtain ⟨hsame, hwritten⟩ :=
    Machine.run_of_taken_le .standard program .entry hfront htaken hfound
  exact outputOf_eq_ok_iff.2
    ⟨⟨value, hsame.trans hvalue⟩, (congrArg Array.toList hwritten).trans houtput⟩

/-- A run on less than it takes finds no input. -/
theorem run_of_lt_valuesTaken (hfront : front <+: values)
    (htaken : front.length < program.valuesTaken values) :
    (Machine.runEntry .standard program (.ofInput front)).2 = .error .inputExhausted :=
  Machine.run_of_lt_taken .standard program .entry (m := .ofInput values) hfront htaken

end Program

end StackCodegen
