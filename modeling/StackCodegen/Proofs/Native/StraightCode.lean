import StackCodegen.Native.Lowering
import StackCodegen.Proofs.Native.Execution
import Mathlib.Data.List.Basic

/-!
# Rows of native instructions

A row of instructions that neither jump nor call nor return is run one after the other
(`Executable.runLine`), and code that holds the row steps through it (`steps_of_runLine`). What a
row does is said in terms of `Cpu.Became`: where the stack ends, and what the memory is.
-/

set_option autoImplicit false

namespace StackCodegen.Native

/-! ## Parts of the processor -/

namespace Cpu

variable {c d : Cpu} {r r' : Register} {w : Word} {byte : Int}

@[simp] theorem registers_set_self : (c.set r w).registers r = w := Function.update_self _ _ _

@[simp] theorem registers_set_of_ne (h : r' ≠ r) : (c.set r w).registers r' = c.registers r' :=
  Function.update_of_ne h _ _

@[simp] theorem pc_set : (c.set r w).pc = c.pc := rfl
@[simp] theorem memory_set : (c.set r w).memory = c.memory := rfl
@[simp] theorem flags_set : (c.set r w).flags = c.flags := rfl
@[simp] theorem input_set : (c.set r w).input = c.input := rfl
@[simp] theorem output_set : (c.set r w).output = c.output := rfl

@[simp] theorem pc_store : (c.store byte w).pc = c.pc := rfl
@[simp] theorem registers_store : (c.store byte w).registers = c.registers := rfl
@[simp] theorem memory_store : (c.store byte w).memory = c.memory.store byte w := rfl
@[simp] theorem flags_store : (c.store byte w).flags = c.flags := rfl
@[simp] theorem input_store : (c.store byte w).input = c.input := rfl
@[simp] theorem output_store : (c.store byte w).output = c.output := rfl

@[simp] theorem pc_withFlags {flags : Option Flags} : (c.withFlags flags).pc = c.pc := rfl
@[simp] theorem registers_withFlags {flags : Option Flags} :
    (c.withFlags flags).registers = c.registers := rfl
@[simp] theorem memory_withFlags {flags : Option Flags} :
    (c.withFlags flags).memory = c.memory := rfl
@[simp] theorem flags_withFlags {flags : Option Flags} : (c.withFlags flags).flags = flags := rfl
@[simp] theorem input_withFlags {flags : Option Flags} : (c.withFlags flags).input = c.input := rfl
@[simp] theorem output_withFlags {flags : Option Flags} :
    (c.withFlags flags).output = c.output := rfl

@[simp] theorem pc_goto {position : Nat} : (c.goto position).pc = position := rfl
@[simp] theorem registers_goto {position : Nat} : (c.goto position).registers = c.registers := rfl
@[simp] theorem memory_goto {position : Nat} : (c.goto position).memory = c.memory := rfl
@[simp] theorem flags_goto {position : Nat} : (c.goto position).flags = c.flags := rfl
@[simp] theorem input_goto {position : Nat} : (c.goto position).input = c.input := rfl
@[simp] theorem output_goto {position : Nat} : (c.goto position).output = c.output := rfl

theorem address?_eq (h : c.registers r = .address byte) : c.address? r = some byte := by
  simp only [address?, h]

theorem pop?_eq (h : c.registers .esp = .address byte) :
    c.pop? = some (c.memory byte, c.set .esp (.address (byte + 4))) := by
  simp only [pop?, address?_eq h, Option.map_some]

theorem push?_eq (h : c.registers .esp = .address byte) (w : Word) :
    c.push? w = some ((c.set .esp (.address (byte - 4))).store (byte - 4) w) := by
  simp only [push?, address?_eq h, Option.map_some]

theorem data?_register {value : Int32} (h : c.registers r = .data value) :
    c.data? (.register r) = some value := by
  simp only [data?, value?, h]

theorem data?_immediate (value : Int) : c.data? (.immediate value) = some (.ofInt value) := rfl

theorem operate?_registers {left right : Int32} (hleft : c.registers r' = .data left)
    (hright : c.registers r = .data right) (flags : Int32 → Int32 → Option Flags)
    (f : Int32 → Int32 → Int32) :
    c.operate? (.register r) (.register r') flags f =
      some ((c.withFlags (flags left right)).set r' (.data (f left right))) := by
  simp only [operate?, data?_register hleft, data?_register hright, write?]

/-- What a row of instructions leaves of a processor: where its stack ends, and its memory. -/
structure Became (c d : Cpu) (top : Int) (memory : Memory) : Prop where
  esp_eq : d.registers .esp = .address top
  ebp_eq : d.registers .ebp = c.registers .ebp
  memory_eq : d.memory = memory
  input_eq : d.input = c.input
  output_eq : d.output = c.output

end Cpu

namespace Memory

variable {memory : Memory} {byte other : Int} {w : Word}

@[simp] theorem store_self : memory.store byte w byte = w := if_pos rfl

/-- Words that do not overlap the stored one stay. -/
theorem store_of_apart (h : other + 4 ≤ byte ∨ byte + 4 ≤ other) :
    memory.store byte w other = memory other := by
  rw [store, if_neg (by omega), if_neg (by omega)]

end Memory

/-! ## Rows -/

/-- Recogniser for the instructions that go on to the next one. -/
def Instruction.straight : Instruction → Bool
  | jmp _ | jz _ | call _ | ret => false
  | _ => true

namespace Executable

variable {x : Executable} {c d : Cpu} {front back : List Item}

/-- The processor after a row of instructions. -/
def runLine (x : Executable) : List Instruction → Cpu → Option Cpu
  | [], c => some c
  | insn :: code, c =>
    match x.execute? (c.goto (c.pc + 1)) insn with
    | some d => x.runLine code d
    | none => none

theorem runLine_cons {insn : Instruction} {code : List Instruction}
    (h : x.execute? (c.goto (c.pc + 1)) insn = some d) :
    x.runLine (insn :: code) c = x.runLine code d := by
  rw [runLine, h]

theorem runLine_single (insn : Instruction) :
    x.runLine [insn] c = x.execute? (c.goto (c.pc + 1)) insn := by
  rw [runLine]
  split
  next heq => rw [heq]; rfl
  next heq => exact heq.symm

theorem runLine_append {code code' : List Instruction} (h : x.runLine code c = some d) :
    x.runLine (code ++ code') c = x.runLine code' d := by
  induction code generalizing c with
  | nil =>
      cases h
      rfl
  | cons insn code ih =>
      rw [runLine] at h
      rw [List.cons_append, runLine]
      split at h
      next => exact ih h
      next => cases h

theorem pc_write? {operand : Operand} {w : Word} (h : c.write? w operand = some d) :
    d.pc = c.pc := by
  unfold Cpu.write? at h
  split at h
  · cases h
  · cases h
    rfl
  · obtain ⟨byte, -, rfl⟩ := Option.map_eq_some_iff.1 h
    rfl

theorem pc_pop? {w : Word} (h : c.pop? = some (w, d)) : d.pc = c.pc := by
  obtain ⟨byte, -, hbyte⟩ := Option.map_eq_some_iff.1 h
  cases hbyte
  rfl

theorem pc_operate? {source destination : Operand} {flags : Int32 → Int32 → Option Flags}
    {f : Int32 → Int32 → Int32} (h : c.operate? source destination flags f = some d) :
    d.pc = c.pc := by
  unfold Cpu.operate? at h
  split at h
  · exact (pc_write? h).trans rfl
  · cases h

theorem pc_move? {offset : Int} {r : Register} (h : c.move? offset r = some d) : d.pc = c.pc := by
  obtain ⟨byte, -, rfl⟩ := Option.map_eq_some_iff.1 h
  rfl

/-- A straight instruction leaves the program counter where it is. -/
theorem pc_execute? {insn : Instruction} (hstraight : insn.straight = true)
    (h : x.execute? c insn = some d) : d.pc = c.pc := by
  unfold execute? at h
  split at h
  all_goals first
    | exact pc_operate? h
    | exact pc_move? h
    | cases hstraight; done
    | skip
  · obtain ⟨w, -, hpush⟩ := Option.bind_eq_some_iff.1 h
    obtain ⟨byte, -, rfl⟩ := Option.map_eq_some_iff.1 hpush
    rfl
  · obtain ⟨⟨w, c'⟩, hpop, hwrite⟩ := Option.bind_eq_some_iff.1 h
    exact (pc_write? hwrite).trans (pc_pop? hpop)
  · obtain ⟨w, -, hwrite⟩ := Option.bind_eq_some_iff.1 h
    exact pc_write? hwrite
  · obtain ⟨value, -, hwrite⟩ := Option.bind_eq_some_iff.1 h
    exact (pc_write? hwrite).trans rfl
  · obtain ⟨left, -, h⟩ := Option.bind_eq_some_iff.1 h
    obtain ⟨right, -, h⟩ := Option.bind_eq_some_iff.1 h
    cases h
    rfl
  · obtain ⟨value, -, h⟩ := Option.bind_eq_some_iff.1 h
    cases h
    rfl
  · obtain ⟨divisor, -, h⟩ := Option.bind_eq_some_iff.1 h
    unfold Cpu.divide? at h
    split at h
    · dsimp only at h
      split at h
      · cases h
      · cases h
        rfl
    · cases h
  · obtain ⟨flags, -, h⟩ := Option.bind_eq_some_iff.1 h
    obtain ⟨value, -, h⟩ := Option.bind_eq_some_iff.1 h
    cases h
    rfl
  · obtain ⟨⟨w, c'⟩, hpop, h⟩ := Option.bind_eq_some_iff.1 h
    cases h
    exact (pc_pop? hpop).trans rfl

/-- A step over an instruction of the code executes it. -/
theorem step_iff {insn : Instruction} (hitems : x.items = front ++ .code insn :: back)
    (hpc : c.pc = front.length) :
    x.Step c d ↔ x.execute? (c.goto (front.length + 1)) insn = some d := by
  rw [Step, step?, hpc, hitems, List.getElem?_append_right (Nat.le_refl _), Nat.sub_self]
  rfl

theorem step_of_execute? {insn : Instruction} (hitems : x.items = front ++ .code insn :: back)
    (hpc : c.pc = front.length) (h : x.execute? (c.goto (front.length + 1)) insn = some d) :
    x.Step c d :=
  (step_iff hitems hpc).2 h

/-- A step over a label. -/
theorem step_of_label {name : String} {comment : Option String}
    (hitems : x.items = front ++ .label name comment :: back) (hpc : c.pc = front.length) :
    x.Step c (c.goto (front.length + 1)) := by
  rw [Step, step?, hpc, hitems, List.getElem?_append_right (Nat.le_refl _), Nat.sub_self]
  rfl

/-- A row of straight instructions is stepped through. -/
theorem steps_of_runLine {code : List Instruction}
    (hitems : x.items = front ++ (code.map .code ++ back)) (hpc : c.pc = front.length)
    (hcode : ∀ insn ∈ code, insn.straight = true) (h : x.runLine code c = some d) :
    x.Steps c d ∧ d.pc = front.length + code.length := by
  induction code generalizing front c with
  | nil =>
      cases h
      exact ⟨.refl, hpc⟩
  | cons insn code ih =>
      rw [runLine] at h
      split at h
      next e heq =>
          have hpc' := pc_execute? (hcode insn List.mem_cons_self) heq
          rw [Cpu.pc_goto, hpc] at hpc'
          have hitems' : x.items = (front ++ [.code insn]) ++ (code.map .code ++ back) := by
            rw [hitems]
            simp
          rw [hpc] at heq
          have hhead : x.items = front ++ .code insn :: (code.map .code ++ back) := hitems
          have hstep : x.Step c e := step_of_execute? hhead hpc heq
          obtain ⟨hsteps, hend⟩ := ih hitems' (by rw [hpc']; simp)
            (fun insn' h' => hcode insn' (List.mem_cons_of_mem _ h')) h
          refine ⟨.head hstep hsteps, ?_⟩
          rw [hend, List.length_append, List.length_cons, List.length_cons, List.length_nil]
          omega
      next => cases h

/-! ## Counted steps -/

/-- The processor after a number of steps, if all of them are taken. -/
def after? (x : Executable) : Nat → Cpu → Option Cpu
  | 0, c => some c
  | n + 1, c =>
    match x.step? c with
    | some d => x.after? n d
    | none => none

theorem steps_of_after? {n : Nat} (h : x.after? n c = some d) : x.Steps c d := by
  induction n generalizing c with
  | zero =>
      cases h
      exact .refl
  | succ n ih =>
      rw [after?] at h
      split at h
      next e hstep => exact .head hstep (ih h)
      next => cases h

end Executable

end StackCodegen.Native
