import StackCodegen.Machine.Basic
import StackCodegen.Proofs.Native.Placement
import StackCodegen.Proofs.Native.Slots
import StackCodegen.Proofs.Native.StraightCode

/-!
# Activations in memory

The machine stack holds one frame for each call in progress. From the base of a frame downwards
there are the locals and then the operands (`Holds`); at the base are the saved `%ebp` and the
return address, above them the arguments in two copies, and right above those the operands of the
caller. `Chain` follows the saved bases from the innermost frame to the place the entry was called
from.

Frames are kept by every store that stays below the operands of the callers and off the two words at
the base (`Chain.congr`).
-/

set_option autoImplicit false

namespace StackCodegen.Native

/-! ## One frame -/

/-- Where the operands of a call end. -/
def operandTop (f : Function) (base : Int) (height : Nat) : Int :=
  base - f.frame.localsSize - 4 * height

/-- The words of one call: its operands, the variables stored so far, and in the words of the others
what was there when the call was entered. Parameters are stored from the start. -/
structure Holds (memory : Memory) (f : Function) (base : Int) (entered : Cpu) (stack : List Int32)
    (values : Std.TreeMap String Int32) : Prop where
  operand : ∀ (i : Nat) (value : Int32), stack[i]? = some value →
    memory (operandTop f base stack.length + 4 * i) = .data value
  stored : ∀ name value offset, values[name]? = some value → f.frame.offset? name = some offset →
    memory (base + offset) = .data value
  unset : ∀ name offset, values[name]? = none → f.frame.offset? name = some offset →
    memory (base + offset) = entered.memory (base + offset)
  parameter : ∀ name ∈ f.declaration.parameters, name ∈ values

/-- A call of a function of the program that goes on at a statement, or at an end that is reached.
-/
structure Running (program : Program) (f : Function) (a : Machine.Activation) : Prop where
  function_eq : program.function? a.function = some f
  body_eq : a.body = f.body
  next_le : a.next ≤ f.body.size
  ending : a.next = f.body.size → needsImplicitReturn f.body = true

/-- The processor where a function is entered: at its symbol, the return address on the stack right
above the base of the frame to come. -/
structure Entered (x : Executable) (f : Function) (base : Int) (c : Cpu) : Prop where
  at_symbol : x.position? (x.platform.symbol f.name) = some c.pc
  esp_eq : c.registers .esp = .address (base + 4)

section Holds

variable {memory memory' : Memory} {f : Function} {base : Int} {entered : Cpu}
  {stack : List Int32} {values : Std.TreeMap String Int32}

theorem operandTop_le (f : Function) (base : Int) (height : Nat) :
    operandTop f base height ≤ base - f.frame.localsSize := by
  unfold operandTop
  omega

theorem operandTop_succ (f : Function) (base : Int) (height : Nat) :
    operandTop f base (height + 1) = operandTop f base height - 4 := by
  unfold operandTop
  omega

theorem operandTop_drop (f : Function) (base : Int) {n : Nat} (h : n ≤ stack.length) :
    operandTop f base (stack.drop n).length = operandTop f base stack.length + 4 * n := by
  rw [List.length_drop]
  unfold operandTop
  omega

namespace Holds

/-- A frame is kept with its words. -/
theorem congr (h : Holds memory f base entered stack values)
    (hbelow : ∀ p, operandTop f base stack.length ≤ p → p + 4 ≤ base → memory' p = memory p)
    (habove : ∀ p, base + 8 ≤ p → p + 4 ≤ base + 8 + 4 * (f.arity : Int) →
      memory' p = memory p) :
    Holds memory' f base entered stack values := by
  have hslot : ∀ name offset, f.frame.offset? name = some offset →
      memory' (base + offset) = memory (base + offset) := by
    intro name offset hoffset
    obtain ⟨hlow, hlocal | hparameter⟩ := Function.offset?_bounds hoffset
    · refine hbelow _ ?_ (by omega)
      have := operandTop_le f base stack.length
      omega
    · exact habove _ (by omega) (by omega)
  refine ⟨?_, ?_, ?_, h.parameter⟩
  · intro i value hi
    have hlt : i < stack.length := (List.getElem?_eq_some_iff.1 hi).1
    rw [hbelow, h.operand i value hi]
    · omega
    · have := f.localsSize_nonneg
      unfold operandTop
      omega
  · intro name value offset hvalue hoffset
    rw [hslot name offset hoffset, h.stored name value offset hvalue hoffset]
  · intro name offset hvalue hoffset
    rw [hslot name offset hoffset, h.unset name offset hvalue hoffset]

/-- An operand is put on top. -/
theorem push (h : Holds memory f base entered stack values) (value : Int32) :
    Holds (memory.store (operandTop f base stack.length - 4) (.data value)) f base entered
      (value :: stack) values := by
  have htop := operandTop_succ f base stack.length
  have hkept :
      Holds (memory.store (operandTop f base stack.length - 4) (.data value)) f base entered
      stack values := h.congr
    (fun p hp _ => Memory.store_of_apart (.inr (by omega)))
    (fun p hp _ => Memory.store_of_apart (.inr (by
      have := operandTop_le f base stack.length
      have := f.localsSize_nonneg
      omega)))
  refine ⟨?_, hkept.stored, hkept.unset, h.parameter⟩
  intro i value' hi
  rw [List.length_cons, htop]
  cases i with
  | zero =>
      cases hi
      have hzero : operandTop f base stack.length - 4 + 4 * ((0 : Nat) : Int) =
          operandTop f base stack.length - 4 := by omega
      rw [hzero, Memory.store_self]
  | succ i =>
      have hsucc : operandTop f base stack.length - 4 + 4 * ((i + 1 : Nat) : Int) =
          operandTop f base stack.length + 4 * (i : Int) := by omega
      rw [hsucc]
      exact hkept.operand i value' hi

/-- The topmost operand is taken off. -/
theorem pop {value : Int32} (h : Holds memory f base entered (value :: stack) values) :
    Holds memory f base entered stack values := by
  refine ⟨?_, h.stored, h.unset, h.parameter⟩
  intro i value' hi
  have hnext := h.operand (i + 1) value' hi
  rw [List.length_cons, operandTop_succ] at hnext
  have hsucc : operandTop f base stack.length - 4 + 4 * ((i + 1 : Nat) : Int) =
      operandTop f base stack.length + 4 * (i : Int) := by omega
  rwa [hsucc] at hnext

/-- Some of the topmost operands are taken off. -/
theorem drop (h : Holds memory f base entered stack values) {n : Nat} (hn : n ≤ stack.length) :
    Holds memory f base entered (stack.drop n) values := by
  refine ⟨?_, h.stored, h.unset, h.parameter⟩
  intro i value hi
  rw [List.getElem?_drop] at hi
  rw [operandTop_drop f base hn, ← h.operand (n + i) value hi]
  congr 1
  omega

/-- The topmost operand. -/
theorem top {value : Int32} (h : Holds memory f base entered (value :: stack) values) :
    memory (operandTop f base (stack.length + 1)) = .data value := by
  have := h.operand 0 value rfl
  simpa using this

/-- A variable is stored in its own word. -/
theorem store (h : Holds memory f base entered stack values) {name : String} {offset : Int}
    (hoffset : f.frame.offset? name = some offset) (value : Int32) :
    Holds (memory.store (base + offset) (.data value)) f base entered stack
      (values.insert name value) := by
  obtain ⟨hlow, hbounds⟩ := Function.offset?_bounds hoffset
  have hother : ∀ name' offset', f.frame.offset? name' = some offset' → name' ≠ name →
      memory.store (base + offset) (.data value) (base + offset') = memory (base + offset') := by
    intro name' offset' hoffset' hne
    have := Function.offset?_apart hoffset' hoffset hne
    exact Memory.store_of_apart (by omega)
  have hcompare : ∀ name', (compare name name' = .eq) ↔ name = name' := fun name' =>
    Std.compare_eq_iff_eq
  refine ⟨?_, ?_, ?_, ?_⟩
  · intro i value' hi
    have hlt : i < stack.length := (List.getElem?_eq_some_iff.1 hi).1
    rw [Memory.store_of_apart, h.operand i value' hi]
    left
    unfold operandTop
    omega
  · intro name' value' offset' hvalue' hoffset'
    rw [Std.TreeMap.getElem?_insert] at hvalue'
    split at hvalue'
    next heq =>
        rw [hcompare] at heq
        subst heq
        cases hvalue'
        rw [hoffset] at hoffset'
        cases hoffset'
        exact Memory.store_self
    next hne =>
        rw [hcompare] at hne
        rw [hother name' offset' hoffset' (Ne.symm hne)]
        exact h.stored name' value' offset' hvalue' hoffset'
  · intro name' offset' hvalue' hoffset'
    rw [Std.TreeMap.getElem?_insert] at hvalue'
    split at hvalue'
    · cases hvalue'
    next hne =>
        rw [hcompare] at hne
        rw [hother name' offset' hoffset' (Ne.symm hne)]
        exact h.unset name' offset' hvalue' hoffset'
  · intro name' hname'
    rw [Std.TreeMap.mem_insert]
    exact .inr (h.parameter name' hname')

end Holds

end Holds

/-! ## The frames of the callers -/

/-- The code behind a call that releases both copies of the arguments. -/
def releaseCode (arity : Nat) : List Instruction :=
  if arity = 0 then []
  else [.add (.immediate (4 * arity)) (reg .esp), .add (.immediate (4 * arity)) (reg .esp)]

/-- What follows a call of a function up to the next statement. -/
def ReturnsTo (x : Executable) (f g : Function) (next position : Nat) : Prop :=
  ∃ front back, front.length = position ∧
    x.items = front ++ ((releaseCode f.arity ++ [Instruction.push (reg .eax)]).map .code ++
      .label (statementLabel g.name next) none :: back)

/-- The frames from the one of `f` outwards, `start` being the processor where the entry was
entered. -/
inductive Chain (x : Executable) (program : Program) (start : Cpu) (memory : Memory) :
    Cpu → Function → Int → List Machine.Activation → Prop where
  | outermost {f : Function} {base : Int} (isEntered : Entered x f base start)
      (arity : f.arity = 0) (saved : memory base = start.registers .ebp)
      (back : memory (base + 4) = start.memory (base + 4))
      (above : ∀ p, base + 8 ≤ p → memory p = start.memory p) :
      Chain x program start memory start f base []
  | caller {f g : Function} {base base' : Int} {entered entered' : Cpu} {a : Machine.Activation}
      {callers : List Machine.Activation} {position : Nat} (isEntered : Entered x f base entered)
      (saved : memory base = .address base') (back : memory (base + 4) = .code position)
      (returns : ReturnsTo x f g a.next position) (running : Running program g a)
      (holds : Holds memory g base' entered' a.stack a.values)
      (top : base + 8 + 8 * (f.arity : Int) = operandTop g base' a.stack.length)
      (steps : x.Steps entered' entered)
      (tail : Chain x program start memory entered' g base' callers) :
      Chain x program start memory entered f base (a :: callers)

namespace Chain

variable {x : Executable} {program : Program} {start entered : Cpu} {memory memory' : Memory}
  {f : Function} {base : Int} {callers : List Machine.Activation}

/-- Frames are kept with the two words at the base and those from the callers' operands on. -/
theorem congr (h : Chain x program start memory entered f base callers)
    (hsaved : memory' base = memory base) (hback : memory' (base + 4) = memory (base + 4))
    (habove : ∀ p, base + 8 + 4 * (f.arity : Int) ≤ p → memory' p = memory p) :
    Chain x program start memory' entered f base callers := by
  induction h with
  | @outermost f base isEntered arity saved back above =>
      refine .outermost isEntered arity (hsaved.trans saved) (hback.trans back) ?_
      intro p hp
      rw [habove p (by omega), above p hp]
  | @caller f g base base' entered entered' a callers position isEntered saved back returns running
      holds top steps tail ih =>
      have hbase := operandTop_le g base' a.stack.length
      have hsize := g.localsSize_nonneg
      have hcaller : ∀ p, operandTop g base' a.stack.length ≤ p → memory' p = memory p := by
        intro p hp
        exact habove p (by omega)
      refine .caller isEntered (hsaved.trans saved) (hback.trans back) returns running ?_ top
        steps ?_
      · exact holds.congr (fun p hp _ => hcaller p hp) (fun p hp _ => hcaller p (by omega))
      · exact ih (hcaller _ (by omega)) (hcaller _ (by omega)) fun p hp => hcaller p (by omega)

/-- A store below the base keeps the frames of the callers. -/
theorem storeBelow (h : Chain x program start memory entered f base callers) {p : Int}
    (hp : p + 4 ≤ base) (w : Word) :
    Chain x program start (memory.store p w) entered f base callers :=
  h.congr (Memory.store_of_apart (.inr (by omega)))
    (Memory.store_of_apart (.inr (by omega)))
    fun q hq => Memory.store_of_apart (.inr (by omega))

/-- A store to a variable keeps the frames of the callers. -/
theorem storeVariable (h : Chain x program start memory entered f base callers)
    {name : String} {offset : Int} (hoffset : f.frame.offset? name = some offset) (w : Word) :
    Chain x program start (memory.store (base + offset) w) entered f base callers := by
  obtain ⟨hlow, hbounds⟩ := Function.offset?_bounds hoffset
  refine h.congr (Memory.store_of_apart ?_) (Memory.store_of_apart ?_)
    fun q hq => Memory.store_of_apart ?_
  · omega
  · omega
  · omega

end Chain

end StackCodegen.Native
