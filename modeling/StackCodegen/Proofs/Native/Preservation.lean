import StackCodegen.Proofs.Native.CallSimulation
import StackCodegen.Proofs.Native.CompiledText

/-!
# Assembly text means what the reference machine runs

The text of an accepted program, read back and run from the symbol of the entry, returns to its
caller with the value of the entry, having written what the entry writes, and gives back the stack
and the caller's memory as they were. This is said of runs that end with a value, load no local
before it is stored in the same call, and compute no quotient that has no 32 bits (`Portable`). The
caller is any processor with the return address on top of its stack, whatever else its memory holds,
and the runtime may leave anything in the registers and words it is allowed to use.
-/

set_option autoImplicit false

namespace StackCodegen.Native

/-! ## Programs and runs in question -/

/-- A program that follows the conventions of the target: names that can be spelled and that the
runtime does not take, parameters of one name each, and an entry without parameters. -/
structure Conforming (program : Program) (entry : Function) : Prop where
  spellable : Spellable program
  name_ne : ∀ f ∈ program.functions, ∀ service : Intrinsic, f.name ≠ service.symbol
  nodup : ∀ f ∈ program.functions, f.declaration.parameters.Nodup
  entry_eq : program.entry? = some entry
  parameters_eq : entry.declaration.parameters = []

instance (program : Program) (entry : Function) : Decidable (Conforming program entry) :=
  decidable_of_iff (Spellable program ∧
      (∀ f ∈ program.functions, f.name ≠ Intrinsic.read.symbol ∧ f.name ≠ Intrinsic.write.symbol) ∧
      (∀ f ∈ program.functions, f.declaration.parameters.Nodup) ∧ program.entry? = some entry ∧
      entry.declaration.parameters = [])
    ⟨fun ⟨hspellable, hnames, hnodup, hentry, hparameters⟩ =>
      ⟨hspellable, fun f hf service => service.rec (hnames f hf).1 (hnames f hf).2, hnodup, hentry,
        hparameters⟩,
      fun h => ⟨h.spellable, fun f hf => ⟨h.name_ne f hf .read, h.name_ne f hf .write⟩, h.nodup,
        h.entry_eq, h.parameters_eq⟩⟩

/-- What native code asks of a state of a run: the statement to come loads no local that was not
stored in the same call, and computes no quotient that has no 32 bits. -/
structure Portable (program : Program) (r : Machine.Run) : Prop where
  load : ∀ f name, program.function? r.active.function = some f →
    f.body[r.active.next]? = some (.load name) → f.isLocal name → name ∈ r.active.values
  quotient : ∀ f op right left rest, program.function? r.active.function = some f →
    f.body[r.active.next]? = some (.binary op) → op = .div ∨ op = .rem →
      r.active.stack = right :: left :: rest → ¬ Overflows left right

/-- A processor at the symbol of a function, called from a place in the code. -/
structure Calls (x : Executable) (f : Function) (start : Cpu) (top : Int) (place : Nat) : Prop where
  at_symbol : x.position? (x.platform.symbol f.name) = some start.pc
  called : CalledFrom start top place

/-- A caller from outside the code, with its return address on top of a stack of words that are 0.
-/
def zeroCaller (position : Nat) (input : List Int32) : Cpu where
  pc := position
  registers
    | .esp => .address 0
    | _ => .data 0
  memory byte := if byte = 0 then .code 1000 else .data 0
  flags := none
  input := input
  output := []

/-- A runtime that leaves memory alone. -/
def quietRuntime : Runtime := fun c => ⟨.data 0, .data 0, .data 0, c.memory⟩

theorem calls_zeroCaller {x : Executable} {f : Function} {position : Nat}
    (h : x.position? (x.platform.symbol f.name) = some position) (input : List Int32) :
    Calls x f (zeroCaller position input) 0 1000 :=
  ⟨h, rfl, rfl⟩

/-- What a check finds of a run of compiled code, it finds of a run of the text. -/
theorem exists_checked_run {program : Program} (hspellable : Spellable program) (f : Function)
    (input : List Int32) (check : Executable → Cpu → Bool)
    (hcompile : (compile .unix program).toBool = true)
    (hcheck : ((compileProgram .unix program).toOption.any fun items =>
      let x : Executable := ⟨items.map Item.bare, .unix, quietRuntime⟩
      (x.position? (Platform.unix.symbol f.name)).any fun position =>
        check x (zeroCaller position input)) = true) :
    ∃ text items position, compile .unix program = .ok text ∧ read? text = some items ∧
      Calls ⟨items, .unix, quietRuntime⟩ f (zeroCaller position input) 0 1000 ∧
      check ⟨items, .unix, quietRuntime⟩ (zeroCaller position input) = true := by
  obtain ⟨text, htext⟩ := exists_ok_of_toBool hcompile
  obtain ⟨items, hitems, hread⟩ := read?_compile hspellable htext
  rw [hitems] at hcheck
  simp only [Except.toOption, Option.any_some, Option.any_eq_true] at hcheck
  obtain ⟨position, hposition, hcheck⟩ := hcheck
  exact ⟨text, _, position, htext, hread, calls_zeroCaller hposition input, hcheck⟩

/-! ## Runs -/

section Runs

variable {x : Executable} {program : Program} {start c d entered : Cpu} {r r' : Machine.Run}
  {f entry : Function} {base top : Int} {place : Nat} {limits : Limits}

/-- A portable state asks nothing of the words that were never stored. -/
theorem Meets.regular (hmeets : Meets x program start r c f base entered)
    (hportable : Portable program r) : Regular c.memory f base r.active := by
  have hfunction := hmeets.running.function_eq
  refine ⟨?_, fun op right left rest hk => hportable.quotient f op right left rest hfunction hk⟩
  intro name offset hk hunset hoffset
  have hvalue : name ∈ r.active.values := by
    rcases Function.offset?_cases hoffset with
      ⟨i, hi, -⟩ | ⟨hlocal, -⟩
    · exact hmeets.holds.parameter name (List.mem_of_getElem? hi.1)
    · exact hportable.load f name hfunction hk hlocal
  rw [Std.TreeMap.mem_iff_isSome_getElem?, hunset] at hvalue
  cases hvalue

/-- Every portable run is met by the processor. -/
theorem exists_meets_of_goes (h : Linked program x)
    (hmeets : Meets x program start r c f base entered)
    (hcalled : CalledFrom start top place) (hgoes : Machine.Goes limits program r r')
    (hportable : ∀ s, Machine.Goes limits program r s → Portable program s) :
    ∃ d f base entered, x.Steps c d ∧ Meets x program start r' d f base entered := by
  induction hgoes with
  | refl => exact ⟨c, f, base, entered, .refl, hmeets⟩
  | @tail s s' hgoes hstep ih =>
      obtain ⟨d, f', base', entered', hsteps, hmeets'⟩ := ih
      have hfollowed := follows limits h hmeets' (hmeets'.regular (hportable s hgoes))
        hcalled
      rw [hstep] at hfollowed
      obtain ⟨e, f'', base'', entered'', hsteps', hmeets''⟩ := hfollowed
      exact ⟨e, f'', base'', entered'', hsteps.trans hsteps', hmeets''⟩

/-- The entry is found by its own name. -/
theorem function?_of_entry_eq (h : program.entry? = some entry) :
    program.function? entry.name = some entry := by
  unfold Program.entry? at h
  split at h
  next f hf =>
      cases h
      rw [name_of_function? hf]
      exact hf
  next =>
      split at h
      next f hf =>
          cases h
          simp [Program.function?, hf]
      next => cases h

/-- A call of the entry starts the run of the entry. -/
theorem meets_of_calls (h : Linked program x) (hconforming : Conforming program entry)
    (hcalls : Calls x entry start top place) {m : Machine} (hinput : start.input = m.input)
    (houtput : start.output = m.output.toList) {first : Machine.Run}
    (hfirst : Machine.enter limits m entry [] 0 [] = .running first) :
    ∃ d base, x.Steps start d ∧ Meets x program start first d entry base start := by
  obtain ⟨base, rfl⟩ : ∃ base, top = base + 4 := ⟨top - 4, by omega⟩
  unfold Machine.enter at hfirst
  split at hfirst
  · cases hfirst
  · cases hfirst
    have hentered : Entered x entry base start := ⟨hcalls.at_symbol, hcalls.called.esp_eq⟩
    have harity : entry.arity = 0 := congrArg List.length hconforming.parameters_eq
    have hchain : Chain x program start (start.memory.store base (start.registers .ebp)) start entry
        base [] :=
      .outermost hentered harity Memory.store_self (Memory.store_of_apart (.inr (by omega)))
        fun p hp => Memory.store_of_apart (.inr (by omega))
    have hnone : ([] : List Int32).length = entry.arity := harity.symm
    obtain ⟨d, hsteps, hmeets⟩ := meets_of_entered (m := m.note (.enter entry.name 0)) h
      (function?_of_entry_eq hconforming.entry_eq) hentered hnone (by simp) hchain 0 hinput houtput
    exact ⟨d, base, hsteps, hmeets⟩

end Runs

/-! ## Programs -/

/-- What the code of a program does on an input where the entry ends with a value: its symbol is
there to be called, and whoever calls it gets the value back, with the output written. -/
structure Answers (x : Executable) (entry : Function) (input output : List Int32)
    (value : Int32) : Prop where
  found : ∃ position, x.position? (x.platform.symbol entry.name) = some position
  returns : ∀ start top place, Calls x entry start top place → start.input = input →
    start.output = [] → ∃ d, x.Steps start d ∧ Returned start top d value ∧ d.output = output

/-- Assembly text preserves meaning. -/
theorem assembly_preserves_runs {platform : Platform} {program : Program} {text : String}
    {entry : Function} (h : compile platform program = .ok text)
    (hconforming : Conforming program entry) :
    ∃ items, read? text = some items ∧ ∀ (runtime : Runtime) (input output : List Int32),
      program.run input = .ok output →
      (∀ first r, Machine.enter .standard (.ofInput input) entry [] 0 [] = .running first →
        Machine.Goes .standard program first r → Portable program r) →
      ∃ m value, Machine.runEntry .standard program (.ofInput input) = (m, .ok value) ∧
        Answers ⟨items, platform, runtime⟩ entry input output value := by
  obtain ⟨items, hitems, hread⟩ := read?_compile hconforming.spellable h
  refine ⟨_, hread, ?_⟩
  intro runtime input output hrun hportable
  have hlinked : Linked program ⟨items.map Item.bare, platform, runtime⟩ :=
    ⟨⟨items, hitems, rfl⟩, hconforming.nodup, hconforming.name_ne⟩
  have hentry : Machine.runEntry .standard program (.ofInput input) =
      Machine.runFunction .standard program entry (.ofInput input) := by
    rw [Machine.runEntry, hconforming.entry_eq]
  obtain ⟨last, first, hfirst, hgoes, hstep⟩ := Machine.exists_stopsIn .standard program
    entry (.ofInput input) (by decide)
  rw [← hentry] at hstep
  cases hresult : Machine.runEntry .standard program (.ofInput input) with
  | mk m outcome =>
      rw [hresult] at hstep
      rw [Program.run, hresult] at hrun
      cases outcome with
      | error fault => cases hrun
      | ok value =>
          cases hrun
          have hmem := List.mem_of_find?_eq_some (function?_of_entry_eq hconforming.entry_eq)
          refine ⟨m, value, rfl, hlinked.loads.symbol hmem, ?_⟩
          intro start top place hcalls hinput houtput
          obtain ⟨c, base, hsteps, hmeets⟩ :=
            meets_of_calls (m := .ofInput input) hlinked hconforming
            hcalls hinput houtput hfirst
          obtain ⟨d, f, base', entered, hsteps', hmeets'⟩ := exists_meets_of_goes hlinked hmeets
            hcalls.called hgoes fun s hs => hportable first s hfirst hs
          have hfollowed := follows .standard hlinked hmeets'
            (hmeets'.regular (hportable first last hfirst hgoes)) hcalls.called
          rw [hstep] at hfollowed
          obtain ⟨e, hsteps'', hreturned, hwritten⟩ := hfollowed
          exact ⟨e, (hsteps.trans hsteps').trans hsteps'', hreturned, hwritten⟩

/-- A function that multiplies its argument by itself. -/
def square : Function :=
  ⟨⟨"square", ["n"]⟩, #[.load "n", .load "n", .binary .mul, .returnTop]⟩

/-- A routine that writes the square of what it reads. -/
def squareEntry : Function :=
  ⟨⟨"main", []⟩, #[.call (.intrinsic .read), .call (.function square.declaration),
    .call (.intrinsic .write)]⟩

/-- The program of the two. -/
def squareProgram : Program := ⟨[squareEntry, square], by decide⟩

/-- The assembly text of a program that squares writes 49 on the input -7, and returns 0. -/
theorem square_run_preserved :
    ∃ text items, compile .win squareProgram = .ok text ∧ read? text = some items ∧
      ∀ runtime, Answers ⟨items, .win, runtime⟩ squareEntry [-7] [49] 0 := by
  obtain ⟨text, htext⟩ := exists_ok_of_toBool
    (by decide +kernel : (compile .win squareProgram).toBool = true)
  have hcases : ∀ f ∈ squareProgram.functions, f = squareEntry ∨ f = square := by
    simp [squareProgram]
  have hconforming : Conforming squareProgram squareEntry := by
    refine ⟨⟨by decide, ?_⟩, ?_, by decide, by decide, rfl⟩
    · intro f hf s hs name hname
      have hvariables : ∀ f ∈ squareProgram.functions, ∀ s ∈ f.body.toList,
          s.variableName? = none ∨ s.variableName? = some "n" := by
        decide
      rcases hvariables f hf s hs with hnone | hsome
      · rw [hnone] at hname
        cases hname
      · rw [hsome] at hname
        cases hname
        decide
    · intro f hf service
      rcases hcases f hf with rfl | rfl <;> cases service <;> decide
  have hportable : ∀ r, Portable squareProgram r := by
    intro r
    refine ⟨?_, ?_⟩
    · intro f name hf hk hlocal
      have hmem := Array.mem_of_getElem? hk
      rcases hcases f (List.mem_of_find?_eq_some hf) with rfl | rfl
      · simp [squareEntry] at hmem
      · obtain rfl : name = "n" := by simpa [square] using hmem
        exact absurd (by decide) hlocal
    · intro f op right left rest hf hk hop
      have hmem := Array.mem_of_getElem? hk
      rcases hcases f (List.mem_of_find?_eq_some hf) with rfl | rfl
      · simp [squareEntry] at hmem
      · obtain rfl : op = .mul := by simpa [square] using hmem
        rcases hop with hop | hop <;> cases hop
  obtain ⟨items, hread, hanswers⟩ := assembly_preserves_runs htext hconforming
  refine ⟨text, items, htext, hread, fun runtime => ?_⟩
  obtain ⟨m, value, hrun, hanswers⟩ := hanswers runtime [-7] [49] (by decide +kernel)
    fun first r _ _ => hportable r
  have hvalue : (Machine.runEntry .standard squareProgram (.ofInput [-7])).2 = .ok 0 := by
    decide +kernel
  rw [hrun] at hvalue
  cases hvalue
  exact hanswers

end StackCodegen.Native
