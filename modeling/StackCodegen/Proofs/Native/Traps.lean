import StackCodegen.Proofs.Native.Preservation

/-!
# Operators that run and divisions that trap

The code of a binary operator puts the result of the reference machine in the place of its operands
and leaves `%ebp` and everything deeper on the stack alone. A division is the only instruction of
it that can fault: `idiv` has no result where the divisor is 0 or the quotient has no 32 bits
(`Cpu.divide?_eq_none`). The reference machine has no result for a zero divisor either, but it wraps
the one quotient that is too large.

Main statement: the code runs to its end on all operands that have a result, except on those whose
quotient wraps, and it stops at the division on all others (`operator_runs_unless_traps`). The
exception is met by programs (`wrapped_quotient_traps`).
-/

set_option autoImplicit false

namespace StackCodegen.Native

/-! ## Divisions without result -/

/-- Recogniser for the operands of a division that the reference machine wraps. -/
def Wraps (op : BinaryOp) (left right : Int32) : Prop :=
  (op = .div ∨ op = .rem) ∧ Overflows left right

/-- A division has no result for a zero divisor, or where the quotient has no 32 bits. -/
theorem Cpu.divide?_eq_none {c : Cpu} {left right : Int32} (heax : c.registers .eax = .data left)
    (hedx : c.registers .edx = .data (if left < 0 then -1 else 0))
    (h : right = 0 ∨ Overflows left right) : c.divide? right = none := by
  rw [divide?, data?_register hedx, data?_register heax]
  dsimp only
  rw [extended_dividend, if_pos]
  rcases h with hzero | ⟨rfl, rfl⟩
  · exact .inl hzero
  · -- the quotient is 2147483648
    exact .inr (.inr (by decide))

/-- Operands without result, and those whose quotient wraps, are operands of a division that the
processor cannot take. -/
theorem division_of_eval_eq_none {op : BinaryOp} {left right : Int32}
    (h : op.eval left right = none ∨ Wraps op left right) :
    (op = .div ∨ op = .rem) ∧ (right = 0 ∨ Overflows left right) := by
  rcases h with hnone | ⟨hop, hoverflow⟩
  · obtain ⟨hop, hzero⟩ := (op.eval_eq_none_iff left right).1 hnone
    exact ⟨hop, .inl hzero⟩
  · exact ⟨hop, .inr hoverflow⟩

/-- The code of a division opens with the same four instructions, whichever result it takes. -/
theorem exists_lowerBinary_of_division {op : BinaryOp} (h : op = .div ∨ op = .rem) :
    ∃ rest, lowerBinary op =
      [.pop (reg .ecx), .pop (reg .eax), .cltd] ++ .idiv (reg .ecx) :: rest := by
  rcases h with rfl | rfl
  · exact ⟨_, rfl⟩
  · exact ⟨_, rfl⟩

/-! ## The code of an operator -/

/-- A processor on whose stack the two topmost words were replaced by one. -/
structure Replaced (c d : Cpu) (top : Int) (value : Int32) : Prop where
  esp_eq : d.registers .esp = .address (top + 4)
  result : d.memory (top + 4) = .data value
  ebp_eq : d.registers .ebp = c.registers .ebp
  deeper : ∀ p, top + 8 ≤ p → d.memory p = c.memory p
  input_eq : d.input = c.input
  output_eq : d.output = c.output

/-- A processor that stands at a division and cannot take it. -/
structure Trapped (x : Executable) (c d : Cpu) : Prop where
  at_division : x.items[d.pc]? = some (.code (.idiv (reg .ecx)))
  stuck : x.step? d = none
  output_eq : d.output = c.output

section Operators

variable {x : Executable} {front back : List Item} {c : Cpu} {top : Int} {op : BinaryOp}
  {left right value : Int32}

/-- An operator whose quotient does not wrap leaves the result in the place of its operands. -/
theorem steps_of_eval (hitems : x.items = front ++ ((lowerBinary op).map .code ++ back))
    (hpc : c.pc = front.length) (hesp : c.registers .esp = .address top)
    (hright : c.memory top = .data right) (hleft : c.memory (top + 4) = .data left)
    (heval : op.eval left right = some value) (hfits : ¬ Wraps op left right) :
    ∃ d, x.Steps c d ∧ d.pc = front.length + (lowerBinary op).length ∧ Replaced c d top value := by
  have hquotient : op = .div ∨ op = .rem → ¬ Overflows left right :=
    fun hop hoverflow => hfits ⟨hop, hoverflow⟩
  obtain ⟨d, hrun, hd⟩ := Executable.runLine_lowerBinary (x := x) hesp hright hleft heval hquotient
  obtain ⟨hsteps, hend⟩ := Executable.steps_of_runLine hitems hpc (straight_lowerBinary op) hrun
  refine ⟨d, hsteps, hend, hd.esp_eq, ?_, hd.ebp_eq, ?_, hd.input_eq, hd.output_eq⟩
  · rw [hd.memory_eq, Memory.store_self]
  · intro p hp
    rw [hd.memory_eq]
    exact Memory.store_of_apart (.inr (by omega))

/-- A division without result stops the processor at the division. -/
theorem steps_of_trap (hitems : x.items = front ++ ((lowerBinary op).map .code ++ back))
    (hpc : c.pc = front.length) (hesp : c.registers .esp = .address top)
    (hright : c.memory top = .data right) (hleft : c.memory (top + 4) = .data left)
    (hop : op = .div ∨ op = .rem) (htrap : right = 0 ∨ Overflows left right) :
    ∃ d, x.Steps c d ∧ d.pc = front.length + 3 ∧ Trapped x c d := by
  obtain ⟨rest, hcode⟩ := exists_lowerBinary_of_division hop
  have hrow : x.items = front ++ (([.pop (reg .ecx), .pop (reg .eax)] ++ [.cltd] :
      List Instruction).map .code ++ (.code (.idiv (reg .ecx)) :: (rest.map .code ++ back))) := by
    rw [hitems, hcode]
    simp
  -- the three instructions in front of the division do not fail
  obtain ⟨c₁, hoperands, hecx, heax, h₁⟩ := Executable.runLine_operands (x := x) hesp hright hleft
  obtain ⟨d, hextend, hedx, hother, h₂⟩ := Executable.runLine_signExtend (x := x) h₁.esp_eq heax
  obtain ⟨hsteps, hend⟩ := Executable.steps_of_runLine hrow hpc (by decide)
    ((Executable.runLine_append hoperands).trans hextend)
  have hlength : (front ++ ([.pop (reg .ecx), .pop (reg .eax)] ++ [.cltd] :
      List Instruction).map Item.code).length = d.pc := by
    rw [hend]
    simp
  rw [← List.append_assoc] at hrow
  have hnone : (d.goto (d.pc + 1)).divide? right = none :=
    Cpu.divide?_eq_none (c := d.goto (d.pc + 1)) ((hother .eax (by decide)).trans heax) hedx htrap
  have hecx' : (d.goto (d.pc + 1)).registers .ecx = .data right :=
    (hother .ecx (by decide)).trans hecx
  -- the next element of the row is the division, which `%ecx` makes fail
  refine ⟨d, hsteps, hend, ?_, ?_, (h₂.output_eq.trans h₁.output_eq)⟩
  · rw [hrow, ← hlength, List.getElem?_append_right (Nat.le_refl _), Nat.sub_self]
    rfl
  · rw [Option.eq_none_iff_forall_ne_some]
    intro e hstep
    have hexecute := (Executable.step_iff hrow hlength.symm).1 hstep
    rw [hlength, Executable.execute?, reg, Cpu.data?_register hecx', Option.bind_eq_bind,
      Option.bind_some, hnone] at hexecute
    cases hexecute

end Operators

/-- The code of a binary operator runs exactly where the reference machine has a result that is
no wrapped quotient. There it replaces the operands by the result and keeps `%ebp` and all deeper
words; on all other operands, which are those of a division, it stops at the division. -/
theorem operator_runs_unless_traps {x : Executable} {front back : List Item} {c : Cpu} {top : Int}
    {op : BinaryOp} {left right : Int32}
    (hitems : x.items = front ++ ((lowerBinary op).map .code ++ back))
    (hpc : c.pc = front.length) (hesp : c.registers .esp = .address top)
    (hright : c.memory top = .data right) (hleft : c.memory (top + 4) = .data left) :
    (∀ value, op.eval left right = some value → ¬ Wraps op left right →
      ∃ d, x.Steps c d ∧ d.pc = front.length + (lowerBinary op).length ∧
        Replaced c d top value) ∧
    (op.eval left right = none ∨ Wraps op left right →
      ∃ d, x.Steps c d ∧ d.pc = front.length + 3 ∧ Trapped x c d) := by
  constructor
  · intro value heval hfits
    exact steps_of_eval hitems hpc hesp hright hleft heval hfits
  · intro h
    obtain ⟨hop, htrap⟩ := division_of_eval_eq_none h
    exact steps_of_trap hitems hpc hesp hright hleft hop htrap

/-- The code of one operator, with nothing around it. -/
def operatorCode (op : BinaryOp) : Executable := ⟨(lowerBinary op).map .code, .unix, quietRuntime⟩

/-- The processor in front of that code, with two operands on its stack. -/
def operandsOnTop (left right : Int32) : Cpu where
  pc := 0
  registers := fun
    | .esp | .ebp => .address 0
    | _ => .torn
  memory := fun byte => if byte = 0 then .data right else if byte = 4 then .data left else .torn
  flags := none
  input := []
  output := []

/-- The least word is less than 1 although their difference wraps to a positive word; divided by -1
it stops the processor. -/
theorem least_word_compared_and_trapped :
    (∃ d, (operatorCode .lt).Steps (operandsOnTop Int32.minValue 1) d ∧ d.pc = 6 ∧
      Replaced (operandsOnTop Int32.minValue 1) d 0 1) ∧
    ∃ d, (operatorCode .rem).Steps (operandsOnTop Int32.minValue (-1)) d ∧ d.pc = 3 ∧
      Trapped (operatorCode .rem) (operandsOnTop Int32.minValue (-1)) d := by
  have hitems : ∀ op, (operatorCode op).items = [] ++ ((lowerBinary op).map .code ++ []) :=
    fun op => by rw [operatorCode, List.nil_append, List.append_nil]
  have hruns := @operator_runs_unless_traps (operatorCode .lt) [] []
    (operandsOnTop Int32.minValue 1) 0 .lt Int32.minValue 1 (hitems .lt) rfl rfl rfl rfl
  have htraps := @operator_runs_unless_traps (operatorCode .rem) [] []
    (operandsOnTop Int32.minValue (-1)) 0 .rem Int32.minValue (-1) (hitems .rem) rfl rfl rfl rfl
  refine ⟨hruns.1 1 (by decide) ?_, htraps.2 (.inr ⟨.inr rfl, rfl, rfl⟩)⟩
  rintro ⟨hop, -⟩
  simp at hop

/-! ## A program that stops at a division -/

/-- A routine that writes the quotient of the least word and -1. -/
def wrappingEntry : Function :=
  ⟨⟨"main", []⟩, #[.push Int32.minValue, .push (-1), .binary .div, .call (.intrinsic .write)]⟩

/-- The program of that routine. -/
def wrappingProgram : Program := ⟨[wrappingEntry], by decide⟩

/-- A quotient that the reference machine wraps stops the processor. The operands lie on the
stack where the operator begins; the reference machine has a result for them and writes it, while
the compiled text faults at the division and writes nothing. -/
theorem wrapped_quotient_traps :
    ∃ text items position c d,
      compile .unix wrappingProgram = .ok text ∧ read? text = some items ∧
        BinaryOp.div.eval Int32.minValue (-1) = some Int32.minValue ∧
        wrappingProgram.run [] = .ok [Int32.minValue] ∧
        Calls ⟨items, .unix, quietRuntime⟩ wrappingEntry (zeroCaller position []) 0 1000 ∧
        Executable.Steps ⟨items, .unix, quietRuntime⟩ (zeroCaller position []) c ∧
        Executable.position? ⟨items, .unix, quietRuntime⟩ (statementLabel "main" 2) = some c.pc ∧
        (c.address? .esp).map c.memory = some (.data (-1)) ∧
        (c.address? .esp).map (fun byte => c.memory (byte + 4)) = some (.data Int32.minValue) ∧
        Executable.Steps ⟨items, .unix, quietRuntime⟩ c d ∧
        items[d.pc]? = some (.code (.idiv (reg .ecx))) ∧
        Executable.step? ⟨items, .unix, quietRuntime⟩ d = none ∧ d.output = [] := by
  obtain ⟨text, items, position, htext, hread, hcalls, hrun⟩ :=
    exists_checked_run (by decide : Spellable wrappingProgram) wrappingEntry []
      (fun x start => (x.after? 7 start).any fun c =>
        (x.after? 4 c).any fun d =>
          x.position? (statementLabel "main" 2) = some c.pc ∧
            (c.address? .esp).map c.memory = some (.data (-1)) ∧
            (c.address? .esp).map (fun byte => c.memory (byte + 4)) =
              some (.data Int32.minValue) ∧
            x.items[d.pc]? = some (.code (.idiv (reg .ecx))) ∧
            (x.step? d).isNone = true ∧ d.output = [])
      (by decide +kernel) (by decide +kernel)
  simp only [Option.any_eq_true, decide_eq_true_eq, Option.isNone_iff_eq_none] at hrun
  obtain ⟨c, hc, d, hd, hlabel, hright, hleft, hitem, hstuck, houtput⟩ := hrun
  exact ⟨text, items, position, c, d, htext, hread, by decide, by decide +kernel, hcalls,
    Executable.steps_of_after? hc, hlabel, hright, hleft, Executable.steps_of_after? hd, hitem,
    hstuck, houtput⟩

end StackCodegen.Native
