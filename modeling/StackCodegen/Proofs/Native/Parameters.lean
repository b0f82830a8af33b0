import StackCodegen.Proofs.Native.ArgumentPassing

/-!
# Parameters on both sides

The reference machine binds the parameters of a function by their names, and of several parameters
of one name the last one holds. A frame has a word for each name, and of several parameters of one
name it is the word of the first one. The two agree on a name if and only if the arguments at its
first and at its last place do (`Machine.boundAlike_iff`), and so they agree on every row of
arguments if and only if the name is declared once.

Main statement: `parameter_bound_first_and_last`.
-/

set_option autoImplicit false

namespace StackCodegen

namespace Machine

variable {limits : Limits} {m : Machine} {f : Function} {arguments : List Int32} {depth : Nat}
  {callers : List Activation} {r : Run} {name : String}

/-- A call that is entered has the arguments bound to the parameters. -/
theorem values_of_enter (h : enter limits m f arguments depth callers = .running r) :
    r.active.values = .ofList (f.declaration.parameters.zip arguments) := by
  unfold enter at h
  split at h
  · cases h
  · cases h
    rfl

/-- A parameter holds the argument of the last place it is declared at. -/
theorem value_of_enter (h : enter limits m f arguments depth callers = .running r)
    (hlength : arguments.length = f.arity) {j : Nat} (hj : LastAt f.declaration.parameters name j) :
    r.active.values[name]? = arguments[j]? := by
  rw [values_of_enter h, getElem?_ofList_zip hlength hj]

end Machine

namespace Native

/-- The argument whose word lies at an offset from `%ebp`. -/
def argumentAt (arguments : List Int32) (offset : Int) : Option Int32 :=
  arguments[((offset - 8) / 4).toNat]?

/-- Recogniser for names to which a call binds, whatever it is entered from, the argument that lies
at the offset of the name. -/
def BoundAlike (f : Function) (name : String) (arguments : List Int32) : Prop :=
  ∀ limits m depth callers r,
    Machine.enter limits m f arguments depth callers = .running r →
      r.active.values[name]? = (f.frame.offset? name).bind (argumentAt arguments)

section Bound

variable {f g : Function} {name : String} {arguments : List Int32} {i j : Nat}

theorem argumentAt_parameter (arguments : List Int32) (i : Nat) :
    argumentAt arguments (8 + 4 * i) = arguments[i]? := by
  have hplace : (((8 + 4 * i : Int) - 8) / 4).toNat = i := by omega
  rw [argumentAt, hplace]

/-- A callee finds in the word of a parameter the argument that belongs at its offset. -/
theorem Received.argumentAt_offset {x : Executable} {c e : Cpu} {top base offset : Int}
    {place : Nat} {value : Int32} (h : Received x g c e top base place)
    (harguments : ∀ (i : Nat) (value : Int32), arguments[i]? = some value →
      argument c top g.arity i = .data value)
    (hlength : arguments.length = g.arity) (hname : name ∈ g.declaration.parameters)
    (hoffset : g.frame.offset? name = some offset)
    (hvalue : argumentAt arguments offset = some value) :
    e.memory (base + offset) = .data value := by
  obtain ⟨i, hi⟩ := exists_firstAt hname
  obtain rfl : 8 + 4 * (i : Int) = offset :=
    Option.some.inj ((h.offset name i hi).symm.trans hoffset)
  rw [argumentAt_parameter] at hvalue
  have hlt : i < g.arity := hlength ▸ (List.getElem?_eq_some_iff.1 hvalue).1
  rw [h.passed i hlt, harguments i value hvalue]

/-- A name is bound alike if and only if the arguments at its first and at its last place are
equal. -/
theorem boundAlike_iff (hi : FirstAt f.declaration.parameters name i)
    (hj : LastAt f.declaration.parameters name j) (hlength : arguments.length = f.arity) :
    BoundAlike f name arguments ↔ arguments[i]? = arguments[j]? := by
  have hfound : (f.frame.offset? name).bind (argumentAt arguments) = arguments[i]? := by
    rw [Function.offset?_parameter hi, Option.bind_some, argumentAt_parameter]
  constructor
  · -- one run is enough: the standard limits let a call at depth 0 in
    intro h
    have henter : Machine.enter .standard (.ofInput []) f arguments 0 [] = .running _ := rfl
    rw [← hfound, ← h _ _ _ _ _ henter, Machine.value_of_enter henter hlength hj]
  · intro heq limits m depth callers r hr
    rw [hfound, heq, Machine.value_of_enter hr hlength hj]

/-- Arguments that tell one place from all others. -/
theorem exists_arguments (hij : i ≠ j) {n : Nat} (hi : i < n) (hj : j < n) :
    ∃ arguments : List Int32, arguments.length = n ∧ arguments[i]? ≠ arguments[j]? := by
  refine ⟨(List.replicate n 0).set i 1, by simp, ?_⟩
  rw [List.getElem?_set_self (by simpa using hi), List.getElem?_set_ne hij,
    List.getElem?_replicate_of_lt hj]
  decide

/-- A name is bound alike for all arguments if and only if it is declared once. -/
theorem forall_boundAlike_iff (hname : name ∈ f.declaration.parameters) :
    (∀ arguments, arguments.length = f.arity → BoundAlike f name arguments) ↔
      ¬ f.declaration.parameters.Duplicate name := by
  obtain ⟨i, hi⟩ := exists_firstAt hname
  obtain ⟨j, hj⟩ := exists_lastAt hname
  rw [← firstAt_eq_lastAt_iff hi hj]
  constructor
  · -- arguments that differ at the two places would be bound apart
    intro hall
    by_contra hij
    obtain ⟨arguments, hlength, hne⟩ := exists_arguments hij (n := f.arity)
      (List.getElem?_eq_some_iff.1 hi.1).1 (List.getElem?_eq_some_iff.1 hj.1).1
    exact hne ((boundAlike_iff hi hj hlength).1 (hall arguments hlength))
  · rintro rfl arguments hlength
    exact (boundAlike_iff hi hj hlength).2 rfl

end Bound

/-- The reference machine binds the last parameter of a name, a frame the first one. The offset is a
32-bit integer where the function has less than `2 ^ 28` parameters. -/
theorem parameter_bound_first_and_last {f : Function} {name : String}
    (hname : name ∈ f.declaration.parameters) :
    ∃ i j : Nat, FirstAt f.declaration.parameters name i ∧
      LastAt f.declaration.parameters name j ∧
      f.frame.offset? name = some (8 + 4 * (i : Int)) ∧
      (f.arity < 2 ^ 28 → 8 + 4 * (i : Int) < 2 ^ 31) ∧
      (∀ arguments, arguments.length = f.arity →
        argumentAt arguments (8 + 4 * i) = arguments[i]? ∧
        (∀ limits m depth callers r,
          Machine.enter limits m f arguments depth callers = .running r →
            r.active.values[name]? = arguments[j]?) ∧
        (BoundAlike f name arguments ↔ arguments[i]? = arguments[j]?)) ∧
      ((∀ arguments, arguments.length = f.arity → BoundAlike f name arguments) ↔
        ¬ f.declaration.parameters.Duplicate name) := by
  obtain ⟨i, hi⟩ := exists_firstAt hname
  obtain ⟨j, hj⟩ := exists_lastAt hname
  have hlt : i < f.arity := (List.getElem?_eq_some_iff.1 hi.1).1
  refine ⟨i, j, hi, hj, Function.offset?_parameter hi, fun hfew => by omega, ?_,
    forall_boundAlike_iff hname⟩
  intro arguments hlength
  exact ⟨argumentAt_parameter arguments i, fun _ _ _ _ _ hr => Machine.value_of_enter hr hlength hj,
    boundAlike_iff hi hj hlength⟩

/-- A function whose first and last parameter have one name. -/
def framedBetween : Function := ⟨⟨"f", ["a", "b", "a"]⟩, #[.load "a", .returnTop]⟩

/-- The name between the two is bound alike whatever the arguments are; the other one is where the
function is called on 4, 5 and 4, but not where it is called on 4, 5 and 6. -/
theorem framedBetween_bound :
    (∀ arguments, arguments.length = 3 → BoundAlike framedBetween "b" arguments) ∧
      BoundAlike framedBetween "a" [4, 5, 4] ∧ ¬ BoundAlike framedBetween "a" [4, 5, 6] := by
  obtain ⟨-, -, -, -, -, -, -, hb⟩ := parameter_bound_first_and_last
    (by decide : "b" ∈ framedBetween.declaration.parameters)
  obtain ⟨i, j, hi, hj, -, -, ha, -⟩ := parameter_bound_first_and_last
    (by decide : "a" ∈ framedBetween.declaration.parameters)
  obtain rfl : i = 0 := Nat.le_zero.1 (Nat.le_of_not_lt fun h => hi.2 0 h rfl)
  have hlt : j < 3 := (List.getElem?_eq_some_iff.1 hj.1).1
  have hle : 2 ≤ j := Nat.le_of_not_lt fun h => hj.2 2 h rfl
  obtain rfl : j = 2 := by omega
  exact ⟨hb.2 (by decide), (ha [4, 5, 4] rfl).2.2.2 (by decide),
    fun h => absurd ((ha [4, 5, 6] rfl).2.2.1 h) (by decide)⟩

/-! ## A program that returns the other argument -/

/-- A function that returns the parameter it declares twice. -/
def declaredTwice : Function := ⟨⟨"f", ["a", "a"]⟩, #[.load "a", .returnTop]⟩

/-- A routine that writes what the function returns on 1 and 2. -/
def twiceEntry : Function :=
  ⟨⟨"main", []⟩, #[.push 1, .push 2, .call (.function declaredTwice.declaration),
    .call (.intrinsic .write)]⟩

/-- The program of both. -/
def twiceProgram : Program := ⟨[twiceEntry, declaredTwice], by decide⟩

/-- A parameter that is declared twice is bound to two arguments. On 1 and 2 the reference
machine holds 2 for it, and its word in the frame is that of 1; so the program of the two functions
writes 2 on the reference machine and 1 where its text runs. -/
theorem twice_declared_bound_apart :
    ∃ r text items position d,
      Machine.enter .standard (.ofInput []) declaredTwice [1, 2] 0 [] = .running r ∧
        r.active.values["a"]? = some 2 ∧ declaredTwice.frame.offset? "a" = some 8 ∧
        argumentAt [1, 2] 8 = some 1 ∧ ¬ BoundAlike declaredTwice "a" [1, 2] ∧
        compile .unix twiceProgram = .ok text ∧ read? text = some items ∧
        twiceProgram.run [] = .ok [2] ∧
        Calls ⟨items, .unix, quietRuntime⟩ twiceEntry (zeroCaller position []) 0 1000 ∧
        Executable.Steps ⟨items, .unix, quietRuntime⟩ (zeroCaller position []) d ∧
        d.pc = 1000 ∧ d.output = [1] := by
  have hfirst : FirstAt declaredTwice.declaration.parameters "a" 0 := ⟨rfl, by simp⟩
  have hlast : LastAt declaredTwice.declaration.parameters "a" 1 := by
    refine ⟨rfl, fun j hj => ?_⟩
    rw [List.getElem?_eq_none hj]
    exact nofun
  obtain ⟨text, items, position, htext, hread, hcalls, hrun⟩ :=
    exists_checked_run (by decide : Spellable twiceProgram) twiceEntry []
      (fun x c => (x.after? 32 c).any fun d => d.pc = 1000 ∧ d.output = [1])
      (by decide +kernel) (by decide +kernel)
  simp only [Option.any_eq_true, decide_eq_true_eq] at hrun
  obtain ⟨d, hd, hpc, houtput⟩ := hrun
  have henter : Machine.enter .standard (.ofInput []) declaredTwice [1, 2] 0 [] = .running _ := rfl
  exact ⟨_, text, items, position, d, henter, Machine.value_of_enter henter rfl hlast,
    Function.offset?_parameter hfirst, rfl,
    fun h => absurd ((boundAlike_iff hfirst hlast rfl).1 h) (by decide), htext, hread,
    by decide +kernel, hcalls, Executable.steps_of_after? hd, hpc, houtput⟩

end Native

end StackCodegen
