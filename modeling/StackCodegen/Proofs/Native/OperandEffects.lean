import StackCodegen.Proofs.Native.Simulation
import StackCodegen.Proofs.Program.StackDiscipline

/-!
# What statements do to the stack, whatever the words

Where the operands of a call end does not depend on what they are. The code of a statement without
jumps and calls, if it runs to its end, moves `%esp` by as many words as the statement takes off and
puts on, and leaves alone the two words at `%ebp` and everything above the arguments (`Kept`), as
long as the operands it takes off are there (`effect_of_straight`).
-/

set_option autoImplicit false

namespace StackCodegen.Native

/-! ## Memory outside a frame -/

/-- The words that a call of `f` leaves alone: the saved `%ebp` and the return address at its base,
and everything above its arguments. -/
structure Kept (f : Function) (base : Int) (before after : Memory) : Prop where
  saved : after base = before base
  back : after (base + 4) = before (base + 4)
  above : ∀ p, base + 8 + 4 * (f.arity : Int) ≤ p → after p = before p

namespace Kept

variable {f : Function} {base : Int} {memory memory' : Memory}

theorem refl (f : Function) (base : Int) (memory : Memory) : Kept f base memory memory :=
  ⟨rfl, rfl, fun _ _ => rfl⟩

/-- Words from the base on are kept where nothing at or above some operands is changed. -/
theorem of_operands (height : Nat)
    (h : ∀ p, operandTop f base height ≤ p → memory' p = memory p) :
    Kept f base memory memory' := by
  have htop := operandTop_le f base height
  have hsize := f.localsSize_nonneg
  exact ⟨h _ (by omega), h _ (by omega), fun p hp => h p (by omega)⟩

/-- A push below the operands. -/
theorem push (f : Function) (base : Int) (height : Nat) (memory : Memory) (w : Word) :
    Kept f base memory (memory.store (operandTop f base height - 4) w) :=
  of_operands height fun p hp => Memory.store_of_apart (.inr (by omega))

/-- A store to a variable. -/
theorem storeVariable {name : String} {offset : Int}
    (hoffset : f.frame.offset? name = some offset) (w : Word) :
    Kept f base memory (memory.store (base + offset) w) := by
  obtain ⟨hlow, hbounds⟩ := Function.offset?_bounds hoffset
  refine ⟨Memory.store_of_apart ?_, Memory.store_of_apart ?_,
    fun p hp => Memory.store_of_apart ?_⟩
  · omega
  · omega
  · omega

end Kept

/-- Operands are taken off. -/
theorem operandTop_sub (f : Function) (base : Int) {height n : Nat} (h : n ≤ height) :
    operandTop f base height + 4 * n = operandTop f base (height - n) := by
  unfold operandTop
  omega

/-! ## Instructions that compute -/

/-- Recogniser for the instructions that work on `%eax`, `%ecx`, `%edx` and the flags alone. -/
def Instruction.computes : Instruction → Bool
  | mov (.immediate _) (.register r) => r = .eax
  | add _ (.register r) | sub _ (.register r) | imul _ (.register r) | and _ (.register r)
  | or _ (.register r) | neg (.register r) => r = .eax
  | cmp _ _ | cltd | idiv _ | set _ => true
  | _ => false

namespace Executable

variable {x : Executable} {c d : Cpu} {top : Int}

theorem became_set (hesp : c.registers .esp = .address top) {r : Register} (hr : r ≠ .esp)
    (hr' : r ≠ .ebp) (flags : Option Flags) (w : Word) :
    c.Became ((c.withFlags flags).set r w) top c.memory :=
  ⟨by simp [hr.symm, hesp], by simp [hr'.symm], rfl, rfl, rfl⟩

theorem became_operate (hesp : c.registers .esp = .address top) {source : Operand}
    {flags : Int32 → Int32 → Option Flags} {f : Int32 → Int32 → Int32}
    (h : c.operate? source (.register .eax) flags f = some d) : c.Became d top c.memory := by
  unfold Cpu.operate? at h
  split at h
  · cases h
    exact became_set hesp (by decide) (by decide) _ _
  · cases h

/-- Computing leaves stack and memory as they are. -/
theorem became_of_computes {insn : Instruction} (hinsn : insn.computes = true)
    (hesp : c.registers .esp = .address top) (h : x.execute? c insn = some d) :
    c.Became d top c.memory := by
  cases insn with
  | mov source destination =>
      match source, destination with
      | .immediate value, .register .eax =>
        cases h
        exact became_set hesp (by decide) (by decide) c.flags _
  | add source destination | sub source destination =>
      match destination with
      | .register .eax => cases source <;> exact became_operate hesp h
  | imul source destination | and source destination | or source destination =>
      match destination with
      | .register .eax => exact became_operate hesp h
  | neg destination =>
      match destination with
      | .register .eax =>
        obtain ⟨value, -, h⟩ := Option.bind_eq_some_iff.1 h
        cases h
        exact became_set hesp (by decide) (by decide) _ _
  | cmp source destination =>
      obtain ⟨left, -, h⟩ := Option.bind_eq_some_iff.1 h
      obtain ⟨right, -, h⟩ := Option.bind_eq_some_iff.1 h
      cases h
      exact ⟨hesp, rfl, rfl, rfl, rfl⟩
  | cltd =>
      obtain ⟨value, -, h⟩ := Option.bind_eq_some_iff.1 h
      cases h
      exact became_set hesp (by decide) (by decide) c.flags _
  | idiv source =>
      obtain ⟨divisor, -, h⟩ := Option.bind_eq_some_iff.1 h
      unfold Cpu.divide? at h
      split at h
      · dsimp only at h
        split at h
        · cases h
        · cases h
          exact ⟨by simp [hesp], by simp, rfl, rfl, rfl⟩
      · cases h
  | set condition =>
      obtain ⟨flags, -, h⟩ := Option.bind_eq_some_iff.1 h
      obtain ⟨value, -, h⟩ := Option.bind_eq_some_iff.1 h
      cases h
      exact became_set hesp (by decide) (by decide) c.flags _
  | push | pop | jmp | jz | call | leave | ret => cases hinsn

/-- A row that runs to its end does so in two parts. -/
theorem runLine_append_eq_some {code code' : List Instruction}
    (h : x.runLine (code ++ code') c = some d) :
    ∃ e, x.runLine code c = some e ∧ x.runLine code' e = some d := by
  induction code generalizing c with
  | nil => exact ⟨c, rfl, h⟩
  | cons insn code ih =>
      rw [List.cons_append, runLine] at h
      split at h
      next e heq =>
          obtain ⟨e', hrun, hrest⟩ := ih h
          exact ⟨e', (runLine_cons heq).trans hrun, hrest⟩
      next => cases h

theorem became_of_row {code : List Instruction} (hcode : ∀ insn ∈ code, insn.computes = true)
    (hesp : c.registers .esp = .address top) (h : x.runLine code c = some d) :
    c.Became d top c.memory := by
  induction code generalizing c with
  | nil =>
      cases h
      exact ⟨hesp, rfl, rfl, rfl, rfl⟩
  | cons insn code ih =>
      rw [runLine] at h
      split at h
      next e heq =>
          have hfirst := became_of_computes (c := c.goto (c.pc + 1))
            (hcode insn List.mem_cons_self) hesp heq
          have hrest := ih (fun insn' hinsn' => hcode insn' (List.mem_cons_of_mem _ hinsn'))
            hfirst.esp_eq h
          rw [hfirst.memory_eq] at hrest
          exact ⟨hrest.esp_eq, hrest.ebp_eq.trans hfirst.ebp_eq, hrest.memory_eq,
            hrest.input_eq.trans hfirst.input_eq, hrest.output_eq.trans hfirst.output_eq⟩
      next => cases h

/-- Words popped into registers other than those of the frame. -/
def popsInto (registers : List Register) : List Instruction :=
  registers.map fun r => .pop (reg r)

theorem became_of_pops {registers : List Register} {code : List Instruction}
    (hregisters : ∀ r ∈ registers, r ≠ .esp ∧ r ≠ .ebp) (hesp : c.registers .esp = .address top)
    (h : x.runLine (popsInto registers ++ code) c = some d) :
    ∃ e, x.runLine code e = some d ∧ c.Became e (top + 4 * registers.length) c.memory := by
  induction registers generalizing c top with
  | nil => exact ⟨c, h, by simp [hesp], rfl, rfl, rfl, rfl⟩
  | cons r registers ih =>
      obtain ⟨hr, hr'⟩ := hregisters r List.mem_cons_self
      obtain ⟨e, hrun, -, -, he⟩ := runLine_pop (x := x) hesp hr hr'
      have hrest : x.runLine (popsInto registers ++ code) e = some d :=
        (runLine_append hrun).symm.trans h
      obtain ⟨e', hrun', he'⟩ := ih (fun r' hmem => hregisters r' (List.mem_cons_of_mem _ hmem))
        he.esp_eq hrest
      have htop :
          top + 4 + 4 * (registers.length : Int) = top + 4 * ((r :: registers).length : Int) := by
        rw [List.length_cons]
        omega
      rw [htop, he.memory_eq] at he'
      exact ⟨e', hrun', he.trans he'⟩

end Executable

/-! ## Statements -/

/-- A processor in the frame of a call that has a number of operands. -/
structure AtHeight (f : Function) (base : Int) (height : Nat) (c : Cpu) : Prop where
  esp_eq : c.registers .esp = .address (operandTop f base height)
  ebp_eq : c.registers .ebp = .address base

section Statements

variable {x : Executable} {program : Program} {c d : Cpu} {f : Function} {base : Int}
  {height k : Nat} {s : Statement} {code : List Instruction}

/-- What a row did to the stack, told by heights. -/
theorem AtHeight.became {top : Int} {memory : Memory} {height' : Nat} (h : AtHeight f base height c)
    (hd : c.Became d top memory) (htop : top = operandTop f base height') :
    AtHeight f base height' d :=
  ⟨htop ▸ hd.esp_eq, hd.ebp_eq.trans h.ebp_eq⟩

/-- Words are popped, worked on, and the result is pushed. -/
theorem effect_of_operator (registers : List Register) (code : List Instruction) {result : Register}
    (hregisters : ∀ r ∈ registers, r ≠ .esp ∧ r ≠ .ebp)
    (hcode : ∀ insn ∈ code, insn.computes = true)
    (h : AtHeight f base height c) (hpops : registers.length ≤ height)
    (hrun :
      x.runLine (Executable.popsInto registers ++ (code ++ [.push (reg result)])) c = some d) :
    AtHeight f base (height - registers.length + 1) d ∧ Kept f base c.memory d.memory := by
  obtain ⟨c₁, hrun₁, h₁⟩ := Executable.became_of_pops hregisters h.esp_eq hrun
  obtain ⟨c₂, hrun₂, hpush⟩ := Executable.runLine_append_eq_some hrun₁
  rw [operandTop_sub f base hpops] at h₁
  have h₂ := h₁.trans (Executable.became_of_row hcode h₁.esp_eq hrun₂)
  obtain ⟨e, hrun₃, h₃⟩ := Executable.runLine_push (x := x) (reg result) h₂.esp_eq rfl
  cases hpush.symm.trans hrun₃
  rw [h₂.memory_eq, h₁.memory_eq] at h₃
  exact ⟨h.became (h₂.trans h₃) (operandTop_succ f base _).symm, h₃.memory_eq ▸ .push ..⟩

theorem computes_binaryCore (op : BinaryOp) :
    ∀ insn ∈ (binaryCore op).1, insn.computes = true := by
  cases op <;> decide

/-- A statement without jumps and calls moves `%esp` by the words it takes off and puts on, and
keeps what lies outside the frame. -/
theorem effect_of_straight
    (hcode : lowerStatement x.platform program f f.frame.table k s = .ok code)
    (hs : s.jumpTarget? = none ∧ s.isReturn = false ∧ ∀ callee, s ≠ .call callee)
    (h : AtHeight f base height c) (hpops : s.pops ≤ height) (hrun : x.runLine code c = some d) :
    AtHeight f base (s.heightAfter height) d ∧ Kept f base c.memory d.memory := by
  have hpush : ∀ {source : Operand} {w : Word}, c.value? source = some w →
      x.runLine [.push source] c = some d →
        AtHeight f base (height + 1) d ∧ Kept f base c.memory d.memory := by
    intro source w hvalue hrun
    obtain ⟨e, hrun', he⟩ := Executable.runLine_push (x := x) source h.esp_eq hvalue
    cases hrun.symm.trans hrun'
    exact ⟨h.became he (operandTop_succ f base height).symm, he.memory_eq ▸ .push ..⟩
  cases s with
  | nop =>
      cases hcode
      cases hrun
      exact ⟨h, .refl ..⟩
  | push value =>
      cases hcode
      exact hpush rfl hrun
  | load name =>
      obtain ⟨operand, hword, hcode⟩ := bind_eq_ok.1 hcode
      cases hcode
      obtain ⟨offset, hoffset, rfl⟩ := wordOf_eq_ok hword
      refine hpush (w := c.memory (base + offset)) ?_ hrun
      rw [Cpu.value?, Cpu.address?_eq h.ebp_eq, Option.map_some]
  | store name =>
      obtain ⟨operand, hword, hcode⟩ := bind_eq_ok.1 hcode
      cases hcode
      obtain ⟨offset, hoffset, rfl⟩ := wordOf_eq_ok hword
      obtain ⟨e, hrun', he⟩ := Executable.runLine_popVariable (x := x) offset h.esp_eq h.ebp_eq
      cases hrun.symm.trans hrun'
      exact ⟨h.became he (operandTop_sub f base hpops),
        he.memory_eq ▸ .storeVariable hoffset _⟩
  | negate =>
      cases hcode
      exact effect_of_operator [.eax] [.neg (reg .eax)] (by decide)
        (by decide) h hpops hrun
  | binary op =>
      cases hcode
      exact effect_of_operator [.ecx, .eax] _ (by decide) (computes_binaryCore op) h
        hpops hrun
  | pop =>
      cases hcode
      obtain ⟨e, hrun', -, -, he⟩ := Executable.runLine_pop (x := x) (r := .eax) h.esp_eq
        (by decide)
        (by decide)
      cases hrun.symm.trans hrun'
      exact ⟨h.became he (operandTop_sub f base hpops), he.memory_eq ▸ .refl ..⟩
  | jump target | jumpIfZero target => cases hs.1
  | call callee => exact absurd rfl (hs.2.2 callee)
  | returnZero | returnTop => cases hs.2.1
  | prepareArguments => cases hcode

/-- Code of statements without jumps and calls goes straight on. -/
theorem straight_lowerStatement {platform : Platform} {offsets : Std.TreeMap String Int}
    (hcode : lowerStatement platform program f offsets k s = .ok code)
    (hs : s.jumpTarget? = none ∧ s.isReturn = false ∧ ∀ callee, s ≠ .call callee) :
    ∀ insn ∈ code, insn.straight = true := by
  cases s with
  | nop | push | negate | pop =>
      cases hcode
      simp [Instruction.straight]
  | load name | store name =>
      obtain ⟨operand, -, hcode⟩ := bind_eq_ok.1 hcode
      cases hcode
      simp [Instruction.straight]
  | binary op =>
      cases hcode
      exact straight_lowerBinary op
  | jump target | jumpIfZero target => cases hs.1
  | call callee => exact absurd rfl (hs.2.2 callee)
  | returnZero | returnTop => cases hs.2.1
  | prepareArguments => cases hcode

end Statements

end StackCodegen.Native
