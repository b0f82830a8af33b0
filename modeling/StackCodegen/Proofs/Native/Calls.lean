import StackCodegen.Proofs.Native.Activations
import StackCodegen.Proofs.Native.Operators

/-!
# Calling and returning

The parts of a call one by one: the arguments are copied from the top down, so that the first one
ends nearest (`runLine_copies`); the callee saves `%ebp` and makes room for its locals
(`runLine_prologue`); a return takes the frame down (`steps_epilogue`); and the caller releases both
copies (`runLine_release`). The numbers in the code of a call are 32-bit integers up to `2 ^ 28`
operands (`fits_callSequence_iff`). The runtime is reached by symbols that no function has
(`Linked.service`).
-/

set_option autoImplicit false

namespace StackCodegen.Native

/-! ## The code of a call -/

/-- Copies of the `n` topmost words, from the top down. -/
def copiesCode (n : Nat) : List Instruction :=
  (List.range n).map fun (j : Nat) => .push (.memory (2 * wordSize * j) .esp)

theorem callSequence_eq (symbol : String) (arity : Nat) (returnsValue : Bool) :
    callSequence symbol arity returnsValue = copiesCode arity ++ .call symbol ::
      (releaseCode arity ++ if returnsValue then [.push (reg .eax)] else []) := by
  simp [callSequence, copiesCode, releaseCode, wordSize]

theorem lowerCall_function_eq_ok {program : Program} {platform : Platform}
    {declaration : Declaration}
    {code : List Instruction}
    (h : lowerCall platform program (.function declaration) = .ok code) :
    ∃ g, program.function? declaration.name = some g ∧ g.arity = declaration.arity ∧
      code = callSequence (platform.symbol declaration.name) declaration.arity true := by
  unfold lowerCall at h
  dsimp only at h
  split at h
  next g hg =>
      split at h
      next harity =>
          cases h
          exact ⟨g, hg, harity, rfl⟩
      next => cases h
  next => cases h

theorem name_of_function? {program : Program} {name : String} {g : Function}
    (h : program.function? name = some g) : g.name = name := by
  simpa using List.find?_some h

/-! ## Numbers of 32 bits -/

/-- The operands of an instruction. -/
def Instruction.operands : Instruction → List Operand
  | push operand | pop operand | neg operand | idiv operand => [operand]
  | mov source destination | add source destination | sub source destination
  | imul source destination | and source destination | or source destination
  | cmp source destination => [source, destination]
  | cltd | set _ | jmp _ | jz _ | call _ | leave | ret => []

/-- The constant or the offset of an operand, if it has one, is a 32-bit integer. -/
def Operand.Fits : Operand → Prop
  | immediate number | memory number _ => -2 ^ 31 ≤ number ∧ number < 2 ^ 31
  | register _ => True

/-- The numbers of an instruction are 32-bit integers. -/
def Instruction.Fits (insn : Instruction) : Prop := ∀ operand ∈ insn.operands, operand.Fits

theorem fits_releaseCode {n : Nat} (h : n < 2 ^ 29) : ∀ insn ∈ releaseCode n, insn.Fits := by
  unfold releaseCode
  split
  · simp
  · simp only [List.mem_cons, List.not_mem_nil, or_false, or_self, forall_eq, Instruction.Fits,
      Instruction.operands, forall_eq_or_imp, reg, Operand.Fits, and_true]
    omega

/-- The numbers in the code of a call are 32-bit integers up to `2 ^ 28` operands, and not
beyond. -/
theorem fits_callSequence_iff {symbol : String} {arity : Nat} {returnsValue : Bool} :
    (∀ insn ∈ callSequence symbol arity returnsValue, insn.Fits) ↔ arity ≤ 2 ^ 28 := by
  rw [callSequence_eq]
  constructor
  · -- the copy of the operand at `2 ^ 28` would be one byte too far away
    intro h
    by_contra hmany
    have hcopy : Instruction.push (.memory (2 * wordSize * (2 ^ 28 : Nat)) .esp) ∈
        copiesCode arity :=
      List.mem_map.2 ⟨2 ^ 28, List.mem_range.2 (by omega), rfl⟩
    have hfits := h _ (List.mem_append_left _ hcopy) _ (List.mem_singleton.2 rfl)
    simp only [Operand.Fits, wordSize] at hfits
    omega
  · -- the copies reach farther than the releases
    intro h insn hinsn
    rcases List.mem_append.1 hinsn with hcopy | hinsn
    · obtain ⟨j, hj, rfl⟩ := List.mem_map.1 hcopy
      have hlt := List.mem_range.1 hj
      simp only [Instruction.Fits, Instruction.operands, List.mem_singleton, forall_eq,
        Operand.Fits, wordSize]
      omega
    · rcases List.mem_cons.1 hinsn with rfl | hinsn
      · exact fun operand hoperand => nomatch hoperand
      · rcases List.mem_append.1 hinsn with hrelease | hpush
        · exact fits_releaseCode (by omega) insn hrelease
        · split at hpush
          · cases List.mem_singleton.1 hpush
            simp [Instruction.Fits, Instruction.operands, reg, Operand.Fits]
          · cases hpush

theorem fits_prologue {f : Function} (h : f.isSmall) : ∀ insn ∈ prologue f.frame, insn.Fits := by
  have hnonneg := f.localsSize_nonneg
  obtain ⟨hsize, -⟩ := h.fits
  unfold prologue
  split
  · simp only [List.cons_append, List.nil_append, List.mem_cons, List.not_mem_nil, or_false,
      forall_eq_or_imp, forall_eq, Instruction.Fits, Instruction.operands, reg, Operand.Fits,
      and_true, true_and]
    omega
  · simp [Instruction.Fits, Instruction.operands, reg, Operand.Fits]

/-! ## The parts of a call -/

namespace Executable

variable {x : Executable} {c : Cpu} {top : Int}

theorem straight_copiesCode (n : Nat) : ∀ insn ∈ copiesCode n, insn.straight = true := by
  intro insn hinsn
  obtain ⟨j, -, rfl⟩ := List.mem_map.1 hinsn
  rfl

/-- Copies lie in reverse order below the words they are of. -/
theorem runLine_copies (hesp : c.registers .esp = .address top) (n : Nat) :
    ∃ d, x.runLine (copiesCode n) c = some d ∧ c.Became d (top - 4 * n) d.memory ∧
      (∀ p, top ≤ p → d.memory p = c.memory p) ∧
      ∀ j : Nat, j < n → d.memory (top - 4 * (j + 1)) = c.memory (top + 4 * j) := by
  induction n with
  | zero =>
      refine ⟨c, rfl, ⟨?_, rfl, rfl, rfl, rfl⟩, fun _ _ => rfl, fun j hj => absurd hj (by omega)⟩
      rw [hesp]
      simp
  | succ n ih =>
      obtain ⟨d, hrun, hd, hkept, hcopied⟩ := ih
      have hvalue : d.value? (.memory (2 * wordSize * n) .esp) = some (c.memory (top + 4 * n)) := by
        have hplace : top - 4 * (n : Int) + 2 * wordSize * n = top + 4 * n := by
          unfold wordSize
          omega
        rw [Cpu.value?, Cpu.address?_eq hd.esp_eq, Option.map_some, hplace,
          hkept _ (by omega)]
      obtain ⟨e, hpush, he⟩ := runLine_push (x := x) _ hd.esp_eq hvalue
      have hcode :
          copiesCode (n + 1) = copiesCode n ++ [.push (.memory (2 * wordSize * n) .esp)] := by
        rw [copiesCode, List.range_succ, List.map_append]
        rfl
      have hkept' : ∀ p, top - 4 * (n : Int) ≤ p → e.memory p = d.memory p := by
        intro p hp
        rw [he.memory_eq, Memory.store_of_apart]
        omega
      refine ⟨e, ?_, ?_, ?_, ?_⟩
      · rw [hcode, runLine_append hrun, hpush]
      · have htop : top - 4 * ((n + 1 : Nat) : Int) = top - 4 * n - 4 := by omega
        rw [htop]
        have hbecame := hd.trans he
        exact ⟨hbecame.esp_eq, hbecame.ebp_eq, rfl, hbecame.input_eq, hbecame.output_eq⟩
      · intro p hp
        rw [hkept' p (by omega), hkept p hp]
      · intro j hj
        rcases Nat.lt_succ_iff_lt_or_eq.1 hj with hlt | rfl
        · rw [hkept' _ (by omega), hcopied j hlt]
        · have hplace : top - 4 * ((j : Int) + 1) = top - 4 * j - 4 := by omega
          rw [he.memory_eq, hplace, Memory.store_self]

theorem straight_releaseCode (n : Nat) : ∀ insn ∈ releaseCode n, insn.straight = true := by
  unfold releaseCode
  split <;> simp [Instruction.straight]

/-- The stack pointer is moved by a constant. -/
theorem runLine_move (insn : Instruction) {offset : Int} (hesp : c.registers .esp = .address top)
    (h : ∀ c, x.execute? c insn = c.move? offset .esp) :
    ∃ d, x.runLine [insn] c = some d ∧ (∀ r, r ≠ .esp → d.registers r = c.registers r) ∧
      c.Became d (top + offset) c.memory := by
  have hmove : x.execute? (c.goto (c.pc + 1)) insn =
      some (((c.goto (c.pc + 1)).withFlags none).set .esp (.address (top + offset))) := by
    rw [h, Cpu.move?, Cpu.address?_eq (c := c.goto (c.pc + 1)) hesp, Option.map_some]
  refine ⟨_, (runLine_single _).trans hmove, ?_, by simp, by simp, rfl, rfl, rfl⟩
  intro r hr
  simp [hr]

/-- Both copies of the arguments are released. -/
theorem runLine_release (hesp : c.registers .esp = .address top) (n : Nat) :
    ∃ d, x.runLine (releaseCode n) c = some d ∧ d.registers .eax = c.registers .eax ∧
      c.Became d (top + 8 * n) c.memory := by
  have hmove : ∀ (c : Cpu) (top : Int), c.registers .esp = .address top →
      ∃ d, x.runLine [.add (.immediate (4 * n)) (reg .esp)] c = some d ∧
        (∀ r, r ≠ .esp → d.registers r = c.registers r) ∧ c.Became d (top + 4 * n) c.memory :=
    fun c top hesp => runLine_move _ hesp fun c => rfl
  unfold releaseCode
  split
  next hzero =>
      refine ⟨c, rfl, rfl, ?_, rfl, rfl, rfl, rfl⟩
      rw [hesp, hzero]
      simp
  next =>
      obtain ⟨d, hrun, hsame, hd⟩ := hmove c top hesp
      obtain ⟨e, hrun', hsame', he⟩ := hmove d _ hd.esp_eq
      have htop : top + 4 * (n : Int) + 4 * n = top + 8 * n := by omega
      rw [htop, hd.memory_eq] at he
      exact ⟨e, (runLine_append hrun).trans hrun',
        (hsame' .eax (by decide)).trans (hsame .eax (by decide)), hd.trans he⟩

theorem straight_prologue (frame : Frame) :
    ∀ insn ∈ prologue frame, insn.straight = true := by
  unfold prologue
  split <;> simp [Instruction.straight]

/-- The prologue saves `%ebp` at the base and makes room for the locals. -/
theorem runLine_prologue {base : Int} {f : Function}
    (hesp : c.registers .esp = .address (base + 4)) :
    ∃ d, x.runLine (prologue f.frame) c = some d ∧
      d.registers .esp = .address (base - f.frame.localsSize) ∧ d.registers .ebp = .address base ∧
      d.memory = c.memory.store base (c.registers .ebp) ∧ d.input = c.input ∧
      d.output = c.output := by
  have hbase : base + 4 - 4 = base := by omega
  obtain ⟨d, hpush, hd⟩ := runLine_push (x := x) (reg .ebp) hesp rfl
  rw [hbase] at hd
  obtain ⟨e, hmov, hebp, hesp', he⟩ : ∃ e, x.runLine [.mov (reg .esp) (reg .ebp)] d = some e ∧
      e.registers .ebp = .address base ∧ e.registers .esp = .address base ∧
      e.memory = d.memory ∧ e.input = d.input ∧ e.output = d.output := by
    have hexecute : x.execute? (d.goto (d.pc + 1)) (.mov (reg .esp) (reg .ebp)) =
        some ((d.goto (d.pc + 1)).set .ebp (.address base)) := by
      rw [execute?, reg, Cpu.value?, Cpu.registers_goto, hd.esp_eq]
      rfl
    exact ⟨_, (runLine_single _).trans hexecute, by simp, by simp [hd.esp_eq], rfl, rfl, rfl⟩
  have hcode : prologue f.frame = [.push (reg .ebp)] ++ ([.mov (reg .esp) (reg .ebp)] ++
      if 0 < f.frame.localsSize then [.sub (.immediate f.frame.localsSize) (reg .esp)]
      else []) := rfl
  rw [hcode, runLine_append hpush, runLine_append hmov]
  split
  · obtain ⟨e', hmove, hsame, he'⟩ := runLine_move (x := x)
      (.sub (.immediate f.frame.localsSize) (reg .esp)) hesp' fun c => rfl
    refine ⟨e', hmove, ?_, (hsame .ebp (by decide)).trans hebp, ?_, ?_, ?_⟩
    · rw [he'.esp_eq, Int.sub_eq_add_neg]
    · rw [he'.memory_eq, he.1, hd.memory_eq]
    · rw [he'.input_eq, he.2.1, hd.input_eq]
    · rw [he'.output_eq, he.2.2, hd.output_eq]
  next hnone =>
      have hzero : f.frame.localsSize = 0 := by
        have := f.localsSize_nonneg
        omega
      refine ⟨e, rfl, by rw [hesp', hzero, Int.sub_zero], hebp, ?_, ?_, ?_⟩
      · rw [he.1, hd.memory_eq]
      · rw [he.2.1, hd.input_eq]
      · rw [he.2.2, hd.output_eq]

/-- The frame is taken down: `%ebp` is what was saved, and the return address lies on top. -/
theorem step_leave {base : Int} {front back : List Item}
    (hitems : x.items = front ++ .code .leave :: back) (hpc : c.pc = front.length)
    (hebp : c.registers .ebp = .address base) :
    ∃ d, x.Step c d ∧ d.pc = front.length + 1 ∧ d.registers .ebp = c.memory base ∧
      d.registers .eax = c.registers .eax ∧ d.registers .esp = .address (base + 4) ∧
      d.memory = c.memory ∧ d.input = c.input ∧ d.output = c.output := by
  have hleave : x.execute? (c.goto (front.length + 1)) .leave =
      some ((((c.goto (front.length + 1)).set .esp (.address base)).set .esp
        (.address (base + 4))).set .ebp (c.memory base)) := by
    rw [execute?, Cpu.registers_goto, hebp, Cpu.pop?_eq Cpu.registers_set_self]
    rfl
  exact ⟨_, step_of_execute? hitems hpc hleave, rfl, by simp, by simp, by simp, rfl, rfl, rfl⟩

/-- The code goes on at the return address on top of the stack. -/
theorem step_ret {position : Nat} {front back : List Item}
    (hitems : x.items = front ++ .code .ret :: back) (hpc : c.pc = front.length)
    (hesp : c.registers .esp = .address top) (hback : c.memory top = .code position) :
    ∃ d, x.Step c d ∧ d.pc = position ∧ d.registers .eax = c.registers .eax ∧
      c.Became d (top + 4) c.memory := by
  have hret : x.execute? (c.goto (front.length + 1)) .ret =
      some (((c.goto (front.length + 1)).set .esp (.address (top + 4))).goto position) := by
    rw [execute?, Cpu.pop?_eq (c := c.goto (front.length + 1)) hesp]
    simp only [Cpu.memory_goto, hback, Option.bind_eq_bind, Option.bind_some]
    rfl
  exact ⟨_, step_of_execute? hitems hpc hret, rfl, by simp, by simp, by simp, rfl, rfl, rfl⟩

/-- A return takes the frame down: `%ebp` is what was saved, and the code goes on at the return
address. -/
theorem steps_epilogue {base : Int} {position : Nat} {front back : List Item}
    (hitems : x.items = front ++ (epilogue.map .code ++ back)) (hpc : c.pc = front.length)
    (hebp : c.registers .ebp = .address base) (hback : c.memory (base + 4) = .code position) :
    ∃ d, x.Steps c d ∧ d.pc = position ∧ d.registers .esp = .address (base + 8) ∧
      d.registers .ebp = c.memory base ∧ d.registers .eax = c.registers .eax ∧
      d.memory = c.memory ∧ d.input = c.input ∧ d.output = c.output := by
  have hhead : x.items = front ++ .code .leave :: (.code .ret :: back) := hitems
  have hnext : x.items = (front ++ [.code .leave]) ++ .code .ret :: back := by
    rw [hhead]
    simp
  obtain ⟨d, hstep, hdpc, hdebp, hdeax, hdesp, hdmemory, hdinput, hdoutput⟩ :=
    step_leave hhead hpc hebp
  obtain ⟨e, hstep', hepc, heax, he⟩ := step_ret hnext (by rw [hdpc]; simp) hdesp
    (by rw [hdmemory]; exact hback)
  have hend : base + 4 + 4 = base + 8 := by omega
  rw [hend, hdmemory] at he
  exact ⟨e, (Relation.ReflTransGen.single hstep).tail hstep', hepc, he.esp_eq,
    he.ebp_eq.trans hdebp, heax.trans hdeax, he.memory_eq, he.input_eq.trans hdinput,
    he.output_eq.trans hdoutput⟩

end Executable

/-! ## Linked code -/

/-- The loaded code of a program that the runtime is linked to: no function takes the name of a
service, and no function names a parameter twice. -/
structure Linked (program : Program) (x : Executable) : Prop where
  loads : Loads program x
  nodup : ∀ f ∈ program.functions, f.declaration.parameters.Nodup
  name_ne : ∀ f ∈ program.functions, ∀ service : Intrinsic, f.name ≠ service.symbol

/-- A statement label ends in a digit, a service's symbol does not. -/
theorem statementLabel_ne_service (platform : Platform) (service : Intrinsic) (function : String)
    (index : Nat) : statementLabel function index ≠ platform.symbol service.symbol := by
  intro h
  have hlist := congrArg String.toList h
  rw [toList_statementLabel] at hlist
  have hlast := congrArg List.getLast? hlist
  rw [List.getLast?_append_of_ne_nil _ (List.cons_ne_nil _ _), List.getLast?_cons,
    List.getLast?_eq_some_getLast Nat.toDigits_ne_nil] at hlast
  have hdigit : ((Nat.toDigits 10 index).getLast Nat.toDigits_ne_nil).isDigit = true :=
    Nat.isDigit_of_mem_toDigits (by decide) (by decide) (List.getLast_mem _)
  have hletter : (platform.symbol service.symbol).toList.getLast?.all (!·.isDigit) = true := by
    cases platform <;> cases service <;> decide +kernel
  rw [← hlast, Option.getD_some, Option.all_some, hdigit] at hletter
  cases hletter

/-- The symbol of a service is a label exactly where a function has the name of the service. -/
theorem symbol_mem_labelNames_iff {platform : Platform} {program : Program} {items : List Item}
    (h : compileProgram platform program = .ok items) {service : Intrinsic} :
    platform.symbol service.symbol ∈ labelNames items ↔ service.symbol ∈ program.names := by
  rw [labelNames_compileProgram h, Program.names, List.mem_flatMap, List.mem_map]
  constructor
  · rintro ⟨f, hf, hmem⟩
    rcases List.mem_cons.1 hmem with heq | hmem
    · exact ⟨f, hf, (symbol_inj heq).symm⟩
    · obtain ⟨k, -, heq⟩ := List.mem_map.1 hmem
      exact absurd heq (statementLabel_ne_service _ _ _ _)
  · rintro ⟨f, hf, hname⟩
    exact ⟨f, hf, List.mem_cons.2 (.inl (by rw [hname]))⟩

namespace Linked

variable {program : Program} {x : Executable}

/-- A symbol of a service is no label. -/
theorem position?_service (h : Linked program x) (service : Intrinsic) :
    x.position? (x.platform.symbol service.symbol) = none := by
  obtain ⟨items, hitems, hx⟩ := h.loads
  rw [position?_eq_none_iff, hx, labelNames_bare, symbol_mem_labelNames_iff hitems]
  intro hmem
  obtain ⟨f, hf, hname⟩ := List.mem_map.1 hmem
  exact h.name_ne f hf service hname

theorem service?_eq (x : Executable) (service : Intrinsic) :
    x.service? (x.platform.symbol service.symbol) = some service := by
  unfold Executable.service?
  cases x.platform <;> cases service <;> decide

end Linked

end StackCodegen.Native
