import StackCodegen.Proofs.Native.Preservation

/-!
# Arguments and answers of a call

A caller has the arguments of a call on top of its stack, the last one topmost. The code of the
call copies them from the top down, so each copy is read relative to an `%esp` that the copies in
front of it have moved. Argument `i` of the copies then lies `4 * i` bytes above the call's `%esp`
(`AtCall`), and behind the return address and the saved `%ebp` at `8 + 4 * i` from the callee's
`%ebp`, which is where the frame has the parameter declared at place `i` (`Received`).

A callee gives the stack back if it restores `%esp` and `%ebp` and leaves alone whatever lies above
the copies (`GivenBack`). The code behind the call then has the arguments replaced by the answer,
or by nothing (`Answered`), and so the variables of the caller are as before.

Main statement: `arguments_passed_and_released`, for the callees of every loaded program whose
functions have less than `2 ^ 28` parameters and variables (`Function.isSmall`), so that no number in
the code leaves 32 bits.
-/

set_option autoImplicit false

namespace StackCodegen.Native

/-- Argument `i` of `n` on top of the stack, counted from the deepest one. -/
def argument (c : Cpu) (top : Int) (n i : Nat) : Word := c.memory (top + 4 * (n - 1 - i))

/-- A processor at a call with `n` copies on the stack, the first argument nearest. -/
structure AtCall (x : Executable) (c d : Cpu) (top : Int) (symbol : String) (n : Nat) : Prop where
  at_call : x.items[d.pc]? = some (.code (.call symbol))
  esp_eq : d.registers .esp = .address (top - 4 * n)
  ebp_eq : d.registers .ebp = c.registers .ebp
  copy : ∀ i : Nat, i < n → d.memory (top - 4 * n + 4 * i) = argument c top n i
  kept : ∀ p, top ≤ p → d.memory p = c.memory p

/-- A processor at the first statement of a callee, its frame at `base`, which was called from
`place`. The argument of a parameter lies at the offset that the frame gives to it; of several
parameters of one name the frame has the first one. -/
structure Received (x : Executable) (g : Function) (c d : Cpu) (top base : Int) (place : Nat) :
    Prop where
  at_label : x.position? (statementLabel g.name 0) = some d.pc
  esp_eq : d.registers .esp = .address (base - g.frame.localsSize)
  ebp_eq : d.registers .ebp = .address base
  saved : d.memory base = c.registers .ebp
  back : d.memory (base + 4) = .code place
  passed : ∀ i : Nat, i < g.arity → d.memory (base + (8 + 4 * i)) = argument c top g.arity i
  offset : ∀ name i, FirstAt g.declaration.parameters name i →
    g.frame.offset? name = some (8 + 4 * (i : Int))
  kept : ∀ p, top ≤ p → d.memory p = c.memory p

/-- A processor behind a call whose callee restored `%esp` and `%ebp` and touched nothing above the
copies. -/
structure GivenBack (c d : Cpu) (top : Int) (n place : Nat) : Prop where
  pc_eq : d.pc = place
  esp_eq : d.registers .esp = .address (top - 4 * n)
  ebp_eq : d.registers .ebp = c.registers .ebp
  kept : ∀ p, top ≤ p → d.memory p = c.memory p

/-- A processor that has `n` arguments replaced by the answer that was in `%eax` behind the call, or
by nothing. -/
structure Answered (c d e : Cpu) (top : Int) (n : Nat) (returnsValue : Bool) : Prop where
  esp_eq : e.registers .esp =
    .address (if returnsValue then top + 4 * n - 4 else top + 4 * n)
  answer : returnsValue = true → e.memory (top + 4 * n - 4) = d.registers .eax
  ebp_eq : e.registers .ebp = c.registers .ebp
  deeper : ∀ p, top + 4 * n ≤ p → e.memory p = c.memory p
  input_eq : e.input = d.input
  output_eq : e.output = d.output

section Calls

variable {x : Executable} {program : Program} {c d : Cpu} {f g : Function} {top base : Int}

/-- The code of a call, whatever it calls. -/
theorem code_of_lowerCall {platform : Platform} {callee : Callee} {code : List Instruction}
    (h : lowerCall platform program callee = .ok code) :
    code = callSequence (platform.symbol callee.name) callee.arity callee.returnsValue := by
  cases callee with
  | intrinsic service => exact (Except.ok.inj h).symm
  | function declaration =>
      obtain ⟨g, -, -, hcode⟩ := lowerCall_function_eq_ok h
      exact hcode

/-- The copies come to the call, with argument `i` at `4 * i` from `%esp`. -/
theorem exists_atCall {symbol : String} {n : Nat} {front rest : List Item}
    (hitems : x.items = front ++ ((copiesCode n).map .code ++ .code (.call symbol) :: rest))
    (hpc : c.pc = front.length) (hesp : c.registers .esp = .address top) :
    ∃ d, x.Steps c d ∧ d.pc = (front ++ (copiesCode n).map Item.code).length ∧
      AtCall x c d top symbol n := by
  obtain ⟨d, hsteps, hend, hd, habove, hcopied⟩ := steps_copies hitems hpc hesp
  refine ⟨d, hsteps, hend, ?_, hd.esp_eq, hd.ebp_eq, ?_, habove⟩
  · rw [hitems, ← List.append_assoc, hend, List.getElem?_append_right (Nat.le_refl _),
      Nat.sub_self]
    rfl
  · intro i hi
    -- argument `i` is the copy made at turn `n - 1 - i`
    have hcopy := hcopied (n - 1 - i) (by omega)
    have hplace : top - 4 * (((n - 1 - i : Nat) : Int) + 1) = top - 4 * n + 4 * i := by omega
    have hsource : top + 4 * ((n - 1 - i : Nat) : Int) = top + 4 * ((n : Int) - 1 - i) := by omega
    rw [hplace, hsource] at hcopy
    exact hcopy

/-- From the call the callee comes to its first statement, with argument `i` at `8 + 4 * i` from
`%ebp`. -/
theorem exists_received (h : Loads program x) (hg : g ∈ program.functions)
    (hd : AtCall x c d top (x.platform.symbol g.name) g.arity) :
    ∃ e, x.Steps d e ∧ Received x g c e top (top - 4 * g.arity - 8) (d.pc + 1) := by
  obtain ⟨hlt, hitem⟩ := List.getElem?_eq_some_iff.1 hd.at_call
  have hitems : x.items = x.items.take d.pc ++
      .code (.call (x.platform.symbol g.name)) :: x.items.drop (d.pc + 1) := by
    rw [← hitem, ← List.drop_eq_getElem_cons hlt, List.take_append_drop]
  have hpc : d.pc = (x.items.take d.pc).length := by
    rw [List.length_take, Nat.min_eq_left (Nat.le_of_lt hlt)]
  obtain ⟨position, hposition⟩ := h.symbol hg
  obtain ⟨d', hcall, hpc', hd'⟩ := step_call hitems hpc hd.esp_eq hposition
  rw [← hpc] at hd'
  have hentered : Entered x g (top - 4 * g.arity - 8) d' := by
    refine ⟨by rw [hpc', hposition], hd'.esp_eq.trans ?_⟩
    congr 1
    omega
  obtain ⟨e, hprologue, hlabel, hesp, hebp, hmemory, -⟩ := h.steps_prologue hg hentered
  -- the two words that were stored since lie below the copies
  have hkept : ∀ p, top - 4 * g.arity ≤ p → e.memory p = d.memory p := by
    intro p hp
    rw [hmemory, Memory.store_of_apart (.inr (by omega)), hd'.memory_eq,
      Memory.store_of_apart (.inr (by omega))]
  refine ⟨e, .head hcall hprologue, hlabel, hesp, hebp, ?_, ?_, ?_, ?_, ?_⟩
  · rw [hmemory, Memory.store_self, hd'.ebp_eq, hd.ebp_eq]
  · have hplace : top - 4 * (g.arity : Int) - 8 + 4 = top - 4 * g.arity - 4 := by omega
    rw [hmemory, Memory.store_of_apart (.inr (by omega)), hd'.memory_eq, hplace, Memory.store_self]
  · intro i hi
    have hplace : top - 4 * (g.arity : Int) - 8 + (8 + 4 * i) = top - 4 * g.arity + 4 * i := by
      omega
    rw [hplace, hkept _ (by omega), hd.copy i hi]
  · intro name i hi
    exact Function.offset?_parameter hi
  · intro p hp
    rw [hkept p (by omega), hd.kept p hp]

/-- Behind the call the arguments are replaced by the answer. -/
theorem exists_answered {n : Nat} {returnsValue : Bool} {front rest : List Item}
    (hitems : x.items = front ++
      ((releaseCode n ++ if returnsValue then [Instruction.push (reg .eax)] else []).map .code ++
        rest))
    (hd : GivenBack c d top n front.length) :
    ∃ e, x.Steps d e ∧ e.pc = front.length +
        (releaseCode n ++ if returnsValue then [Instruction.push (reg .eax)] else []).length ∧
      Answered c d e top n returnsValue := by
  have hesp : d.registers .esp = .address (top + 4 * n - 8 * n) := by
    rw [hd.esp_eq]
    congr 1
    omega
  obtain ⟨e, hsteps, hend, he⟩ := steps_release hitems hd.pc_eq hesp
  refine ⟨e, hsteps, hend, he.esp_eq, ?_, he.ebp_eq.trans hd.ebp_eq, ?_, he.input_eq, he.output_eq⟩
  · intro hreturns
    rw [he.memory_eq, if_pos hreturns, Memory.store_self]
  · intro p hp
    rw [he.memory_eq, ← hd.kept p (by omega)]
    split
    · exact Memory.store_of_apart (.inr (by omega))
    · rfl

/-- Variables of the caller lie above its operands. -/
theorem Answered.variables {e : Cpu} {n : Nat} {returnsValue : Bool}
    (h : Answered c d e top n returnsValue) (hoperands : top + 4 * n ≤ base - f.frame.localsSize)
    {name : String} {offset : Int} (hoffset : f.frame.offset? name = some offset) :
    e.memory (base + offset) = c.memory (base + offset) := by
  obtain ⟨hlow, -⟩ := Function.offset?_bounds hoffset
  exact h.deeper _ (by omega)

end Calls

/-- The numbers in the code of a call are 32-bit integers if functions are small. -/
theorem fits_lowerCall {platform : Platform} {program : Program} {callee : Callee}
    {code : List Instruction} (hsmall : ∀ f ∈ program.functions, f.isSmall)
    (h : lowerCall platform program callee = .ok code) : ∀ insn ∈ code, insn.Fits := by
  have harity : callee.arity ≤ 2 ^ 28 := by
    cases callee with
    | intrinsic service => cases service <;> decide
    | function declaration =>
        obtain ⟨g, hg, harity, -⟩ := lowerCall_function_eq_ok h
        have hlt := (hsmall g (List.mem_of_find?_eq_some hg)).1
        rw [harity] at hlt
        exact Nat.le_of_lt hlt
  rw [code_of_lowerCall h]
  exact fits_callSequence_iff.2 harity

/-- A call passes its arguments and takes them off again. From the label of a call of `n` operands,
whatever lies on the stack:

* the copies come to the call, argument `i` lying at `4 * i` from `%esp`;
* a function that is called comes to its first statement, argument `i` lying at `8 + 4 * i` from
  `%ebp`, the offset of the parameter declared at place `i`;
* from wherever a callee gives the stack back, the next statement is reached with the arguments
  replaced by `%eax`, or by nothing, and with `%ebp`, all deeper words and the variables of the
  caller as before.

Functions are small, so that the numbers in the code of the call and of every prologue and the
offsets of all variables are 32-bit integers. -/
theorem arguments_passed_and_released {program : Program} {x : Executable} {f : Function} {k : Nat}
    {callee : Callee} {c : Cpu} {top : Int} (h : Loads program x)
    (hsmall : ∀ g ∈ program.functions, g.isSmall) (hf : f ∈ program.functions)
    (hk : f.body[k]? = some (.call callee))
    (hlabel : x.position? (statementLabel f.name k) = some c.pc)
    (hesp : c.registers .esp = .address top) :
    (∃ code, lowerCall x.platform program callee = .ok code ∧ ∀ insn ∈ code, insn.Fits) ∧
      (∀ g ∈ program.functions, (∀ insn ∈ prologue g.frame, insn.Fits) ∧
        ∀ name offset, g.frame.offset? name = some offset →
          -2 ^ 31 ≤ offset ∧ offset + 4 ≤ 2 ^ 31) ∧
      ∃ d, x.Steps c d ∧ AtCall x c d top (x.platform.symbol callee.name) callee.arity ∧
        (∀ declaration, callee = .function declaration →
          ∃ g e, program.function? declaration.name = some g ∧ g.arity = declaration.arity ∧
            x.Steps d e ∧ Received x g c e top (top - 4 * g.arity - 8) (d.pc + 1)) ∧
        ∀ d', GivenBack c d' top callee.arity (d.pc + 1) →
          ∃ e, x.Steps d' e ∧ x.position? (statementLabel f.name (k + 1)) = some e.pc ∧
            Answered c d' e top callee.arity callee.returnsValue ∧
            ∀ base name offset, c.registers .ebp = .address base →
              top + 4 * callee.arity ≤ base - f.frame.localsSize →
                f.frame.offset? name = some offset →
                  e.memory (base + offset) = c.memory (base + offset) := by
  obtain ⟨code, front, back, hcode, hfront, hstep, hitems, -⟩ := h.located hf hlabel hk
  refine ⟨⟨code, hcode, fits_lowerCall hsmall hcode⟩,
    fun g hg => ⟨fits_prologue (hsmall g hg), (hsmall g hg).fits.2⟩, ?_⟩
  cases code_of_lowerCall hcode
  rw [callSequence_eq, List.map_append, List.append_assoc] at hitems
  obtain ⟨d, hsteps, hend, hd⟩ := exists_atCall (c := c.goto (c.pc + 1)) hitems hfront.symm hesp
  have hd' : AtCall x c d top (x.platform.symbol callee.name) callee.arity :=
    ⟨hd.at_call, hd.esp_eq, hd.ebp_eq, hd.copy, hd.kept⟩
  refine ⟨d, .head hstep hsteps, hd', ?_, ?_⟩
  · rintro declaration rfl
    obtain ⟨g, hg, harity, -⟩ := lowerCall_function_eq_ok hcode
    have hmem : g ∈ program.functions := List.mem_of_find?_eq_some hg
    rw [Callee.name, ← name_of_function? hg, Callee.arity, ← harity] at hd'
    obtain ⟨e, hsteps', he⟩ := exists_received h hmem hd'
    exact ⟨g, e, hg, harity, hsteps', he⟩
  · intro d' hgiven
    -- what is released stands between the call and the label of the next statement
    have hbehind : x.items = (front ++ (copiesCode callee.arity).map .code ++
        [.code (.call (x.platform.symbol callee.name))]) ++
          ((releaseCode callee.arity ++
            if callee.returnsValue then [Instruction.push (reg .eax)] else []).map .code ++
              .label (statementLabel f.name (k + 1)) none :: back) := by
      rw [hitems]
      simp
    have hlength : (front ++ (copiesCode callee.arity).map Item.code ++
        [Item.code (.call (x.platform.symbol callee.name))]).length = d.pc + 1 := by
      rw [List.length_append, ← hend]
      rfl
    obtain ⟨e, hsteps', hpc, he⟩ := exists_answered hbehind (hlength ▸ hgiven)
    rw [← List.append_assoc] at hbehind
    refine ⟨e, hsteps', ?_, he, fun base name offset _ hoperands hoffset =>
      he.variables hoperands hoffset⟩
    rw [position?_eq h.nodup hbehind, hpc, List.length_append, List.length_map]

/-- A function of two parameters. -/
def difference : Function :=
  ⟨⟨"difference", ["left", "right"]⟩, #[.load "left", .load "right", .binary .sub, .returnTop]⟩

/-- A routine that calls it on 7 and 2. -/
def differenceEntry : Function :=
  ⟨⟨"main", []⟩, #[.push 7, .push 2, .call (.function difference.declaration),
    .call (.intrinsic .write)]⟩

/-- The program of both. -/
def differenceProgram : Program := ⟨[differenceEntry, difference], by decide⟩

/-- The function finds 7 and 2 in the words of its parameters, and an answer of 5 takes the place of
both. -/
theorem difference_arguments_passed :
    (∀ g ∈ differenceProgram.functions, g.isSmall) ∧ ∃ x c d e d' e', Loads differenceProgram x ∧
      x.position? (statementLabel "main" 2) = some c.pc ∧ c.registers .esp = .address (-12) ∧
      x.Steps c d ∧ x.Steps d e ∧ Received x difference c e (-12) (-28) (d.pc + 1) ∧
      difference.frame.offset? "left" = some 8 ∧ e.memory (-28 + 8) = .data 7 ∧
      difference.frame.offset? "right" = some 12 ∧ e.memory (-28 + 12) = .data 2 ∧
      GivenBack c d' (-12) 2 (d.pc + 1) ∧ x.Steps d' e' ∧
      x.position? (statementLabel "main" 3) = some e'.pc ∧ Answered c d' e' (-12) 2 true ∧
      e'.registers .esp = .address (-8) ∧ e'.memory (-8) = .data 5 := by
  obtain ⟨items, hitems⟩ := exists_ok_of_toBool
    (by decide +kernel : (compileProgram .unix differenceProgram).toBool = true)
  have hrun : (compileProgram .unix differenceProgram).toOption.any fun items =>
      let x : Executable := ⟨items.map Item.bare, .unix, quietRuntime⟩
      (x.position? "main").any fun position =>
        (x.after? 7 (zeroCaller position [])).any fun c =>
          x.position? (statementLabel "main" 2) = some c.pc ∧
            c.registers .esp = .address (-12) ∧ c.memory (-8) = .data 7 ∧
            c.memory (-12) = .data 2 := by
    decide +kernel
  rw [hitems] at hrun
  simp only [Except.toOption, Option.any_some, Option.any_eq_true, decide_eq_true_eq] at hrun
  obtain ⟨position, -, c, -, hlabel, hesp, hleft, hright⟩ := hrun
  have hloads : Loads differenceProgram ⟨items.map Item.bare, .unix, quietRuntime⟩ :=
    ⟨items, hitems, rfl⟩
  have hk : differenceEntry.body[2]? = some (.call (.function difference.declaration)) := rfl
  have hsmall : ∀ g ∈ differenceProgram.functions, g.isSmall := by
    decide +kernel
  obtain ⟨-, -, d, hsteps, hcall, hreceived, hanswered⟩ :=
    arguments_passed_and_released hloads hsmall List.mem_cons_self hk hlabel hesp
  obtain ⟨g, e, hg, -, hsteps', he⟩ := hreceived _ rfl
  obtain rfl : difference = g := Option.some.inj hg
  -- a callee that is back with 5, wherever its code got it from
  have hgiven : GivenBack c (((c.set .esp (.address (-20))).set .eax (.data 5)).goto (d.pc + 1))
      (-12) 2 (d.pc + 1) := ⟨rfl, by simp, by simp, fun _ _ => rfl⟩
  obtain ⟨e', hsteps'', hnext, he', -⟩ := hanswered _ hgiven
  refine ⟨hsmall, _, c, d, e, _, e', hloads, hlabel, hesp, hsteps, hsteps', he, ?_, ?_, ?_, ?_,
    hgiven, hsteps'', hnext, he', he'.esp_eq, ?_⟩
  · decide +kernel
  · exact (he.passed 0 (by decide)).trans hleft
  · decide +kernel
  · exact (he.passed 1 (by decide)).trans hright
  · exact he'.answer rfl

end StackCodegen.Native
