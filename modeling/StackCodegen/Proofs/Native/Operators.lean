import StackCodegen.Machine.Arithmetic
import StackCodegen.Proofs.Native.StraightCode

/-!
# Effects of operands and operators

What the code of a statement without jumps and calls does to the stack, on words that are 32-bit
integers. The flags of a subtraction decide the order of its operands (`holds_ofSub`), the lowest
byte of a difference can be cut down to a truth value (`truthByte`), and a quotient that has 32 bits
is the one of the reference machine (`divide?_eq`).
-/

set_option autoImplicit false

namespace StackCodegen.Native

/-! ## Orders, truth values and quotients -/

/-- The order that a condition code stands for. -/
def Condition.compares : Condition → Int32 → Int32 → Bool
  | z, left, right => left = right
  | nz, left, right => left ≠ right
  | g, left, right => right < left
  | l, left, right => left < right
  | le, left, right => left ≤ right
  | ge, left, right => right ≤ left

/-- The signs of a wrapped difference and of its overflow differ where the left operand is less. -/
theorem sign_ne_overflow (left right : Int32) :
    ((Flags.ofSub left right).sign != (Flags.ofSub left right).overflow) =
      decide (left < right) := by
  have hleft := Int32.toInt_lt left
  have hleft' := Int32.le_toInt left
  have hright := Int32.toInt_lt right
  have hright' := Int32.le_toInt right
  have hzero : (0 : Int32).toInt = 0 := rfl
  rw [Bool.eq_iff_iff, Flags.ofSub]
  simp only [decide_eq_true_eq, bne_iff_ne, ne_eq, decide_eq_decide, Int32.lt_iff_toInt_lt,
    Int32.toInt_sub, Int.bmod_def, hzero]
  split <;> omega

theorem zero_ofSub (left right : Int32) :
    (Flags.ofSub left right).zero = decide (left = right) := by
  rw [Flags.ofSub]
  exact decide_eq_decide.2 (by grind)

/-- The flags of a subtraction decide the order of its operands. -/
theorem holds_ofSub (condition : Condition) (left right : Int32) :
    condition.holds (.ofSub left right) = condition.compares left right := by
  have hlt : ∀ x y : Int32, decide (x < y) = !decide (y ≤ x) := by
    intro x y
    rw [← decide_not]
    simp only [Int32.not_le]
  have hsign := sign_ne_overflow left right
  have hzero := zero_ofSub left right
  have hle : decide (left ≤ right) = (decide (left = right) || decide (left < right)) := by
    rw [← Bool.decide_or]
    exact decide_eq_decide.2 (by rw [Int32.le_iff_lt_or_eq, or_comm])
  have heq : ((Flags.ofSub left right).sign == (Flags.ofSub left right).overflow) =
      decide (right ≤ left) := by
    rw [← Bool.not_not (decide (right ≤ left)), ← hlt, ← hsign]
    exact (Bool.not_not _).symm
  cases condition with
  | z => exact hzero
  | nz => simp [Condition.holds, Condition.compares, hzero]
  | g =>
      rw [Condition.holds, hzero, heq, Condition.compares, hlt right left, hle, hlt left right]
      simp
  | l => exact hsign
  | le => rw [Condition.holds, hzero, hsign, Condition.compares, hle]
  | ge => exact heq

/-- The lowest bit of a word whose lowest byte was set to a truth value. -/
theorem truthByte (value : Int32) (b : Bool) :
    ((value &&& -256) ||| if b then 1 else 0) &&& 1 = truthWord b := by
  rw [truthWord, ← Int32.toBitVec_inj]
  change ((value.toBitVec &&& (-256#32)) ||| (if b then 1 else 0 : Int32).toBitVec) &&& 1#32 = _
  rw [BitVec.and_or_distrib_right, BitVec.and_assoc]
  cases b <;> simp

/-- The operands whose quotient has no 32 bits. -/
def Overflows (left right : Int32) : Prop := left = Int32.minValue ∧ right = -1

theorem toInt_div {left right : Int32} (h : ¬ Overflows left right) :
    (left / right).toInt = left.toInt.tdiv right.toInt := by
  by_cases hleft : left = Int32.minValue
  · exact Int32.toInt_div_of_ne_right _ _ fun hright => h ⟨hleft, hright⟩
  · exact Int32.toInt_div_of_ne_left _ _ hleft

/-- The sign that `%edx` extends `%eax` by. -/
theorem extended_dividend (value : Int32) :
    (if value < 0 then -1 else 0 : Int32).toInt * 2 ^ 32 + value.toInt % 2 ^ 32 = value.toInt := by
  have hlt := Int32.toInt_lt value
  have hge := Int32.le_toInt value
  have hzero : (0 : Int32).toInt = 0 := rfl
  have hone : (-1 : Int32).toInt = -1 := rfl
  split
  next hneg =>
      rw [Int32.lt_iff_toInt_lt, hzero] at hneg
      rw [hone]
      omega
  next hnonneg =>
      rw [Int32.lt_iff_toInt_lt, hzero] at hnonneg
      rw [hzero]
      omega

namespace Cpu

variable {c : Cpu}

/-- Division of a sign-extended word is that of the reference machine. -/
theorem divide?_eq {left right : Int32} (heax : c.registers .eax = .data left)
    (hedx : c.registers .edx = .data (if left < 0 then -1 else 0)) (hright : right ≠ 0)
    (h : ¬ Overflows left right) :
    c.divide? right = some (((c.withFlags none).set .eax (.data (left / right))).set .edx
      (.data (left % right))) := by
  have hlt := Int32.toInt_lt (left / right)
  have hge := Int32.le_toInt (left / right)
  rw [toInt_div h] at hlt hge
  have hinside : ¬ (right = 0 ∨ left.toInt.tdiv right.toInt < -2 ^ 31 ∨
      2 ^ 31 ≤ left.toInt.tdiv right.toInt) := by
    rintro (hzero | hlow | hhigh)
    · exact hright hzero
    · omega
    · omega
  rw [divide?, data?_register hedx, data?_register heax]
  dsimp only
  rw [extended_dividend, if_neg hinside, ← toInt_div h, ← Int32.toInt_mod, Int32.ofInt_toInt,
    Int32.ofInt_toInt]

/-- One row after another. -/
theorem Became.trans {d e : Cpu} {top top' : Int} {memory memory' : Memory}
    (h : c.Became d top memory) (h' : d.Became e top' memory') : c.Became e top' memory' :=
  ⟨h'.esp_eq, h'.ebp_eq.trans h.ebp_eq, h'.memory_eq, h'.input_eq.trans h.input_eq,
    h'.output_eq.trans h.output_eq⟩

end Cpu

/-! ## Rows of statements -/

namespace Executable

variable {x : Executable} {c : Cpu} {top : Int}

theorem value?_goto (position : Nat) (operand : Operand) :
    (c.goto position).value? operand = c.value? operand := by
  cases operand <;> rfl

theorem execute_push {source : Operand} {w : Word} (hesp : c.registers .esp = .address top)
    (hvalue : c.value? source = some w) :
    x.execute? c (.push source) =
      some ((c.set .esp (.address (top - 4))).store (top - 4) w) := by
  rw [execute?, hvalue, Option.bind_eq_bind, Option.bind_some, Cpu.push?_eq hesp]

theorem execute_pop {r : Register} (hesp : c.registers .esp = .address top) :
    x.execute? c (.pop (reg r)) =
      some ((c.set .esp (.address (top + 4))).set r (c.memory top)) := by
  rw [execute?, Cpu.pop?_eq hesp]
  rfl

/-- A word is pushed. -/
theorem runLine_push (source : Operand) {w : Word} (hesp : c.registers .esp = .address top)
    (hvalue : c.value? source = some w) :
    ∃ d, x.runLine [.push source] c = some d ∧
      c.Became d (top - 4) (c.memory.store (top - 4) w) := by
  rw [← value?_goto (c.pc + 1)] at hvalue
  refine ⟨_, (runLine_single _).trans (execute_push hesp hvalue), ?_, ?_, rfl, rfl, rfl⟩
  · simp
  · simp

/-- A word is popped into a register other than those of the frame. -/
theorem runLine_pop {r : Register} (hesp : c.registers .esp = .address top) (hr : r ≠ .esp)
    (hr' : r ≠ .ebp) :
    ∃ d, x.runLine [.pop (reg r)] c = some d ∧ d.registers r = c.memory top ∧
      (∀ r', r' ≠ r → r' ≠ .esp → d.registers r' = c.registers r') ∧
      c.Became d (top + 4) c.memory := by
  refine ⟨_, (runLine_single _).trans (execute_pop hesp), ?_, ?_, ?_, ?_, rfl, rfl, rfl⟩
  · simp
  · intro r' hne hne'
    simp [hne, hne']
  · simp [hr.symm]
  · simp [hr'.symm]

/-- A word is popped into a variable. -/
theorem runLine_popVariable {base : Int} (offset : Int) (hesp : c.registers .esp = .address top)
    (hebp : c.registers .ebp = .address base) :
    ∃ d, x.runLine [.pop (.memory offset .ebp)] c = some d ∧
      c.Became d (top + 4) (c.memory.store (base + offset) (c.memory top)) := by
  have hpop : x.execute? (c.goto (c.pc + 1)) (.pop (.memory offset .ebp)) =
      some (((c.goto (c.pc + 1)).set .esp (.address (top + 4))).store (base + offset)
        (c.memory top)) := by
    have hset : ((c.goto (c.pc + 1)).set .esp (.address (top + 4))).registers .ebp =
        .address base := by
      simp [hebp]
    rw [execute?, Cpu.pop?_eq (c := c.goto (c.pc + 1)) hesp, Option.bind_eq_bind, Option.bind_some]
    simp only [Cpu.write?, Cpu.address?_eq hset, Option.map_some]
    rfl
  refine ⟨_, (runLine_single _).trans hpop, ?_, ?_, rfl, rfl, rfl⟩
  · simp
  · simp

/-- An operation on `%ecx` and `%eax`. -/
theorem runLine_operate (insn : Instruction) {flags : Int32 → Int32 → Option Flags}
    {f : Int32 → Int32 → Int32} {left right : Int32}
    (h : ∀ c, x.execute? c insn = c.operate? (reg .ecx) (reg .eax) flags f)
    (hesp : c.registers .esp = .address top) (heax : c.registers .eax = .data left)
    (hecx : c.registers .ecx = .data right) :
    ∃ d, x.runLine [insn] c = some d ∧ d.registers .eax = .data (f left right) ∧
      d.flags = flags left right ∧ c.Became d top c.memory := by
  refine ⟨_, (runLine_single _).trans ((h _).trans
    (Cpu.operate?_registers (c := c.goto (c.pc + 1)) heax hecx _ _)), ?_, ?_, ?_, ?_, rfl, rfl, rfl⟩
  · simp
  · simp
  · simp [hesp]
  · simp

/-- The lowest byte of `%eax` set by a condition, and the rest of it cut off. -/
theorem runLine_truth (condition : Condition) {value left right : Int32}
    (hesp : c.registers .esp = .address top) (heax : c.registers .eax = .data value)
    (hflags : c.flags = some (.ofSub left right)) :
    ∃ d, x.runLine [.set condition, .and (.immediate 1) (reg .eax)] c = some d ∧
      d.registers .eax = .data (truthWord (condition.compares left right)) ∧
      c.Became d top c.memory := by
  have hset : x.execute? (c.goto (c.pc + 1)) (.set condition) =
      some ((c.goto (c.pc + 1)).set .eax
        (.data ((value &&& -256) ||| if condition.holds (.ofSub left right) then 1 else 0))) := by
    have hdata : (c.goto (c.pc + 1)).data? (.register .eax) = some value :=
      Cpu.data?_register heax
    rw [execute?, Cpu.flags_goto, hflags, Option.bind_eq_bind, Option.bind_some, hdata]
    rfl
  have hand : ∀ (d : Cpu) (value' : Int32), d.registers .eax = .data value' →
      x.execute? d (.and (.immediate 1) (reg .eax)) =
        some ((d.withFlags none).set .eax (.data (value' &&& 1))) := by
    intro d value' hd
    rw [execute?, Cpu.operate?, reg, Cpu.data?_register hd, Cpu.data?_immediate]
    rfl
  obtain ⟨d, hrun, hd, hbecame⟩ : ∃ d, x.runLine [.set condition] c = some d ∧
      d.registers .eax = .data ((value &&& -256) |||
        if condition.holds (.ofSub left right) then 1 else 0) ∧ c.Became d top c.memory :=
    ⟨_, (runLine_single _).trans hset, by simp, by simp [hesp], by simp, rfl, rfl, rfl⟩
  refine ⟨_, (runLine_append hrun).trans
    ((runLine_single _).trans (hand (d.goto (d.pc + 1)) _ hd)), ?_, ?_, ?_,
    hbecame.memory_eq, hbecame.input_eq, hbecame.output_eq⟩
  · rw [Cpu.registers_set_self, truthByte, holds_ofSub]
  · simpa using hbecame.esp_eq
  · simpa using hbecame.ebp_eq

/-- A comparison by subtraction. -/
theorem runLine_comparison {condition : Condition} {left right : Int32}
    (hesp : c.registers .esp = .address top) (heax : c.registers .eax = .data left)
    (hecx : c.registers .ecx = .data right) :
    ∃ d, x.runLine (binaryCore.comparison condition).1 c = some d ∧
      d.registers .eax = .data (truthWord (condition.compares left right)) ∧
      c.Became d top c.memory := by
  obtain ⟨d, hsub, hdifference, hflags, hd⟩ := runLine_operate (x := x)
    (.sub (reg .ecx) (reg .eax)) (fun c => rfl) hesp heax hecx
  obtain ⟨e, htruth, hvalue, he⟩ := runLine_truth (x := x) condition hd.esp_eq
    hdifference hflags
  rw [hd.memory_eq] at he
  exact ⟨e, (runLine_append hsub).trans htruth, hvalue, hd.trans he⟩

/-- `%eax` is extended by its sign into `%edx`. -/
theorem runLine_signExtend {left : Int32} (hesp : c.registers .esp = .address top)
    (heax : c.registers .eax = .data left) :
    ∃ d, x.runLine [.cltd] c = some d ∧
      d.registers .edx = .data (if left < 0 then -1 else 0) ∧
      (∀ r, r ≠ .edx → d.registers r = c.registers r) ∧ c.Became d top c.memory := by
  have hcltd : x.execute? (c.goto (c.pc + 1)) .cltd = some ((c.goto (c.pc + 1)).set .edx
      (.data (if left < 0 then -1 else 0))) := by
    have hdata : (c.goto (c.pc + 1)).data? (.register .eax) = some left := Cpu.data?_register heax
    rw [execute?, hdata]
    rfl
  refine ⟨_, (runLine_single _).trans hcltd, by simp, ?_, by simp [hesp], by simp, rfl, rfl, rfl⟩
  intro r hr
  simp [hr]

/-- A division, with quotient and remainder. -/
theorem runLine_division {left right : Int32} (hesp : c.registers .esp = .address top)
    (heax : c.registers .eax = .data left) (hecx : c.registers .ecx = .data right)
    (hright : right ≠ 0) (hquotient : ¬ Overflows left right) :
    ∃ d, x.runLine [.cltd, .idiv (reg .ecx)] c = some d ∧
      d.registers .eax = .data (left / right) ∧ d.registers .edx = .data (left % right) ∧
      c.Became d top c.memory := by
  obtain ⟨d, hcltd, hedx, hother, hd⟩ := runLine_signExtend (x := x) hesp heax
  have heax' : d.registers .eax = .data left := (hother .eax (by decide)).trans heax
  have hecx' : d.registers .ecx = .data right := (hother .ecx (by decide)).trans hecx
  have hidiv : x.runLine [.idiv (reg .ecx)] d =
      some ((((d.goto (d.pc + 1)).withFlags none).set .eax (.data (left / right))).set .edx
        (.data (left % right))) := by
    rw [runLine_single, execute?, reg, Cpu.data?_register (c := d.goto (d.pc + 1)) hecx',
      Option.bind_eq_bind, Option.bind_some,
      Cpu.divide?_eq (c := d.goto (d.pc + 1)) heax' hedx hright hquotient]
  have hrun : x.runLine ([.cltd] ++ [.idiv (reg .ecx)]) c = _ := (runLine_append hcltd).trans hidiv
  refine ⟨_, hrun, ?_, ?_, ?_, ?_, hd.memory_eq, hd.input_eq, hd.output_eq⟩
  · simp
  · simp
  · simp [hd.esp_eq]
  · simp [hd.ebp_eq]

/-- What an operator's core does between the pops and the push. -/
theorem runLine_binaryCore {op : BinaryOp} {left right value : Int32}
    (hesp : c.registers .esp = .address top) (heax : c.registers .eax = .data left)
    (hecx : c.registers .ecx = .data right) (heval : op.eval left right = some value)
    (hquotient : op = .div ∨ op = .rem → ¬ Overflows left right) :
    ∃ d, x.runLine (binaryCore op).1 c = some d ∧ d.registers (binaryCore op).2 = .data value ∧
      c.Became d top c.memory := by
  have hoperate : ∀ {insn : Instruction} {flags : Int32 → Int32 → Option Flags}
      {f : Int32 → Int32 → Int32}, (∀ c, x.execute? c insn =
        c.operate? (reg .ecx) (reg .eax) flags f) → f left right = value →
      ∃ d, x.runLine [insn] c = some d ∧ d.registers .eax = .data value ∧
        c.Became d top c.memory := by
    intro insn flags f h hvalue
    obtain ⟨d, hrun, hresult, -, hd⟩ := runLine_operate insn h hesp heax hecx
    exact ⟨d, hrun, hvalue ▸ hresult, hd⟩
  have hcompare : ∀ {condition : Condition}, truthWord (condition.compares left right) = value →
      ∃ d, x.runLine (binaryCore.comparison condition).1 c = some d ∧
        d.registers .eax = .data value ∧ c.Became d top c.memory := by
    intro condition hvalue
    rw [← hvalue]
    exact runLine_comparison hesp heax hecx
  have hdivide : ∀ {result : Int32}, (if right = 0 then none else some result) = some value →
      right ≠ 0 ∧ result = value := by
    intro result h
    split at h
    · cases h
    next hzero =>
        cases h
        exact ⟨hzero, rfl⟩
  cases op with
  | add | sub | mul | and | or => exact hoperate (fun c => rfl) (Option.some.inj heval)
  | div =>
      obtain ⟨hright, rfl⟩ := hdivide heval
      obtain ⟨d, hrun, hresult, -, hd⟩ :=
        runLine_division (x := x) hesp heax hecx hright (hquotient (.inl rfl))
      exact ⟨d, hrun, hresult, hd⟩
  | rem =>
      obtain ⟨hright, rfl⟩ := hdivide heval
      obtain ⟨d, hrun, -, hresult, hd⟩ :=
        runLine_division (x := x) hesp heax hecx hright (hquotient (.inr rfl))
      exact ⟨d, hrun, hresult, hd⟩
  | eq | ne | gt | lt | le | ge => exact hcompare (Option.some.inj heval)

/-- Both operands are taken off: the right one into `%ecx`, the left one into `%eax`. -/
theorem runLine_operands {left right : Int32} (hesp : c.registers .esp = .address top)
    (hright : c.memory top = .data right) (hleft : c.memory (top + 4) = .data left) :
    ∃ d, x.runLine [.pop (reg .ecx), .pop (reg .eax)] c = some d ∧
      d.registers .ecx = .data right ∧ d.registers .eax = .data left ∧
      c.Became d (top + 8) c.memory := by
  obtain ⟨c₁, hrun₁, hecx, -, h₁⟩ := runLine_pop (x := x) (r := .ecx) hesp (by decide) (by decide)
  obtain ⟨d, hrun₂, heax, hother, h₂⟩ :=
    runLine_pop (x := x) (r := .eax) h₁.esp_eq (by decide) (by decide)
  have htop : top + 4 + 4 = top + 8 := by omega
  rw [hright] at hecx
  rw [h₁.memory_eq, hleft] at heax
  rw [h₁.memory_eq, htop] at h₂
  have hrun : x.runLine ([.pop (reg .ecx)] ++ [.pop (reg .eax)]) c = some d :=
    (runLine_append hrun₁).trans hrun₂
  exact ⟨d, hrun, (hother .ecx (by decide) (by decide)).trans hecx, heax, h₁.trans h₂⟩

/-- A binary operator takes two words off the stack and leaves its result. -/
theorem runLine_lowerBinary {op : BinaryOp} {left right value : Int32}
    (hesp : c.registers .esp = .address top) (hright : c.memory top = .data right)
    (hleft : c.memory (top + 4) = .data left) (heval : op.eval left right = some value)
    (hquotient : op = .div ∨ op = .rem → ¬ Overflows left right) :
    ∃ d, x.runLine (lowerBinary op) c = some d ∧
      c.Became d (top + 4) (c.memory.store (top + 4) (.data value)) := by
  obtain ⟨c₁, hoperands, hecx, heax, h₁⟩ := runLine_operands (x := x) hesp hright hleft
  obtain ⟨c₂, hcore, hresult, h₂⟩ :=
    runLine_binaryCore (x := x) h₁.esp_eq heax hecx heval hquotient
  obtain ⟨d, hpush, hd⟩ := runLine_push (x := x) (reg (binaryCore op).2) h₂.esp_eq
    (congrArg some hresult)
  have htop : top + 8 - 4 = top + 4 := by omega
  rw [h₂.memory_eq, h₁.memory_eq, htop] at hd
  have hcode : lowerBinary op = [.pop (reg .ecx), .pop (reg .eax)] ++
      ((binaryCore op).1 ++ [.push (reg (binaryCore op).2)]) := rfl
  refine ⟨d, ?_, (h₁.trans h₂).trans hd⟩
  rw [hcode, runLine_append hoperands, runLine_append hcore, hpush]

/-- Negation of the topmost word. -/
theorem runLine_negate {value : Int32} (hesp : c.registers .esp = .address top)
    (hvalue : c.memory top = .data value) :
    ∃ d, x.runLine [.pop (reg .eax), .neg (reg .eax), .push (reg .eax)] c = some d ∧
      c.Became d top (c.memory.store top (.data (-value))) := by
  obtain ⟨c₁, hrun₁, heax, -, h₁⟩ := runLine_pop (x := x) (r := .eax) hesp (by decide) (by decide)
  rw [hvalue] at heax
  have hneg : x.runLine [.neg (reg .eax)] c₁ =
      some (((c₁.goto (c₁.pc + 1)).withFlags none).set .eax (.data (-value))) := by
    have hdata : (c₁.goto (c₁.pc + 1)).data? (.register .eax) = some value :=
      Cpu.data?_register heax
    rw [runLine_single, execute?, reg, hdata]
    rfl
  obtain ⟨d, hrun₃, h₃⟩ := runLine_push (x := x) (reg .eax)
    (c := ((c₁.goto (c₁.pc + 1)).withFlags none).set .eax (.data (-value)))
    (by simpa using h₁.esp_eq) (congrArg some (Cpu.registers_set_self))
  have htop : top + 4 - 4 = top := by omega
  rw [htop] at h₃
  refine ⟨d, ?_, ?_⟩
  · exact (runLine_append hrun₁).trans
      ((runLine_append hneg).trans hrun₃)
  · refine ⟨h₃.esp_eq, ?_, ?_, h₃.input_eq.trans h₁.input_eq, h₃.output_eq.trans h₁.output_eq⟩
    · rw [h₃.ebp_eq, ← h₁.ebp_eq]
      simp
    · rw [h₃.memory_eq, ← h₁.memory_eq]
      rfl

/-- The topmost word taken off and compared with 0. -/
theorem runLine_test {value : Int32} (hesp : c.registers .esp = .address top)
    (hvalue : c.memory top = .data value) :
    ∃ d, x.runLine [.pop (reg .eax), .cmp (.immediate 0) (reg .eax)] c = some d ∧
      d.flags = some (.ofSub value 0) ∧ c.Became d (top + 4) c.memory := by
  obtain ⟨c₁, hrun₁, heax, -, h₁⟩ := runLine_pop (x := x) (r := .eax) hesp (by decide) (by decide)
  rw [hvalue] at heax
  have hcmp : x.runLine [.cmp (.immediate 0) (reg .eax)] c₁ =
      some ((c₁.goto (c₁.pc + 1)).withFlags (some (.ofSub value 0))) := by
    have hdata : (c₁.goto (c₁.pc + 1)).data? (.register .eax) = some value :=
      Cpu.data?_register heax
    rw [runLine_single, execute?, reg, hdata, Cpu.data?_immediate]
    rfl
  exact ⟨_, (runLine_append hrun₁).trans hcmp, rfl, h₁.esp_eq, h₁.ebp_eq,
    h₁.memory_eq, h₁.input_eq, h₁.output_eq⟩

end Executable

end StackCodegen.Native
