import StackCodegen.Proofs.ClassFile.Execution
import StackCodegen.Proofs.ClassFile.Heights

/-!
# Types of operands and local variables

A frame type lists the topmost operands by type, everything below them being integers, and gives a
type to the local variables that are set. `Types` says which frame type an instruction asks for and
which one it leaves; how many integers lie below is not its business, since heights settle that.

Jumps and labels have integers alone on the operand stack, and local variables of the one type that
the method settles on.

Main statement: an instruction that finds a frame of its type and as many operands as it takes is no
violation, and it leaves a frame of the type and the height it should (`Types.follows`).
-/

set_option autoImplicit false

namespace StackCodegen.ClassFile

/-! ## Types -/

/-- The type of a word. -/
inductive WordType where
  | int
  | line
  | object (kind : ObjectKind)
  | fresh (kind : ObjectKind) (site : Nat)
  deriving DecidableEq

/-- The type that a word has. -/
def Value.type : Value → WordType
  | int _ => .int
  | line _ => .line
  | object kind => .object kind
  | fresh kind site => .fresh kind site

/-- The type of a word once an object is initialised. -/
def WordType.initialise (kind : ObjectKind) (site : Nat) (w : WordType) : WordType :=
  if w = .fresh kind site then .object kind else w

/-- The topmost operands, and the local variables known to be set. -/
structure FrameType where
  operands : List WordType
  locals : UInt16 → Option WordType

/-- Words of the given types on top of integers. -/
def Fits (operands : List WordType) (stack : List Value) : Prop :=
  ∃ n, stack.map Value.type = operands ++ List.replicate n .int

/-- Local variables that hold words of the given types. -/
def Holds (locals : UInt16 → Option WordType) (f : Frame) : Prop :=
  ∀ slot w, locals slot = some w → ∃ v, f.locals slot = some v ∧ v.type = w

/-- A frame of a type. -/
structure Frame.HasType (f : Frame) (t : FrameType) : Prop where
  fits : Fits t.operands f.stack
  holds : Holds t.locals f

theorem type_eq_int {v : Value} (h : v.type = .int) : ∃ value, v = .int value := by
  cases v <;> first | exact ⟨_, rfl⟩ | cases h

theorem type_eq_line {v : Value} (h : v.type = .line) : ∃ content, v = .line content := by
  cases v <;> first | exact ⟨_, rfl⟩ | cases h

theorem type_eq_object {v : Value} {kind : ObjectKind} (h : v.type = .object kind) :
    v = .object kind := by
  cases v <;> cases h
  rfl

theorem type_eq_fresh {v : Value} {kind : ObjectKind} {site : Nat}
    (h : v.type = .fresh kind site) : v = .fresh kind site := by
  cases v <;> cases h
  rfl

theorem type_initialise (kind : ObjectKind) (site : Nat) (v : Value) :
    (v.initialise kind site).type = v.type.initialise kind site := by
  unfold Value.initialise WordType.initialise
  by_cases h : v = .fresh kind site
  · rw [if_pos h, h, if_pos (by rfl)]
    rfl
  · rw [if_neg h, if_neg fun ht => h (type_eq_fresh ht)]

namespace Fits

variable {ws : List WordType} {stack : List Value}

theorem nil : Fits [] [] := ⟨0, rfl⟩

theorem cons {v : Value} {w : WordType} (hv : v.type = w) (h : Fits ws stack) :
    Fits (w :: ws) (v :: stack) := by
  obtain ⟨n, hn⟩ := h
  exact ⟨n, by rw [List.map_cons, hv, hn, List.cons_append]⟩

/-- One more integer on integers. -/
theorem int (value : Int32) (h : Fits [] stack) : Fits [] (.int value :: stack) := by
  obtain ⟨n, hn⟩ := h
  exact ⟨n + 1, by rw [List.map_cons, hn]; rfl⟩

theorem uncons {w : WordType} (h : Fits (w :: ws) stack) :
    ∃ v rest, stack = v :: rest ∧ v.type = w ∧ Fits ws rest := by
  obtain ⟨n, hn⟩ := h
  cases stack with
  | nil => cases hn
  | cons v rest =>
      rw [List.map_cons, List.cons_append] at hn
      injection hn with hv hrest
      exact ⟨v, rest, rfl, hv, n, hrest⟩

/-- Where integers alone are left, each of them can be taken off. -/
theorem unint (h : Fits [] stack) (hlen : 1 ≤ stack.length) :
    ∃ value rest, stack = .int value :: rest ∧ Fits [] rest := by
  obtain ⟨n, hn⟩ := h
  cases stack with
  | nil => exact absurd hlen (by decide)
  | cons v rest =>
      cases n with
      | zero => cases hn
      | succ n =>
          rw [List.map_cons, List.nil_append, List.replicate_succ] at hn
          injection hn with hv hrest
          obtain ⟨value, rfl⟩ := type_eq_int hv
          exact ⟨value, rest, rfl, n, hrest⟩

theorem unint₂ (h : Fits [] stack) (hlen : 2 ≤ stack.length) :
    ∃ right left rest, stack = .int right :: .int left :: rest ∧ Fits [] rest := by
  obtain ⟨right, tail, rfl, htail⟩ := h.unint (by omega)
  obtain ⟨left, rest, rfl, hrest⟩ := htail.unint (Nat.le_of_succ_le_succ hlen)
  exact ⟨right, left, rest, rfl, hrest⟩

/-- Initialising an object leaves integers alone. -/
theorem initialise (kind : ObjectKind) (site : Nat) (h : Fits ws stack) :
    Fits (ws.map (WordType.initialise kind site)) (stack.map (Value.initialise kind site)) := by
  obtain ⟨n, hn⟩ := h
  refine ⟨n, ?_⟩
  have hcomp : Value.type ∘ Value.initialise kind site =
      WordType.initialise kind site ∘ Value.type := funext fun v => type_initialise kind site v
  rw [List.map_map, hcomp, ← List.map_map, hn, List.map_append, List.map_replicate]
  rfl

end Fits

/-- The frame type once an object is initialised. -/
def FrameType.initialise (kind : ObjectKind) (site : Nat) (t : FrameType) : FrameType :=
  ⟨t.operands.map (WordType.initialise kind site),
    fun n => (t.locals n).map (WordType.initialise kind site)⟩

/-! ## Typed instructions -/

/-- Recogniser for the opcodes that work on integers alone. -/
def Opcode.worksOnInts (op : Opcode) : Bool :=
  op == .nop || op == .pop || op == .ineg || op == .returnVoid || op.constant?.isSome ||
    op.operator?.isSome

/-- Words a member takes off and puts on the operand stack. -/
def Member.stackEffect : Member → UInt16 × UInt16
  | stdin | stdout => (0, 1)
  | initDecoder | initReader => (2, 0)
  | readLine | parseInt => (1, 1)
  | println => (2, 0)

/-- The frame types around the use of a member. -/
inductive Member.Types : FrameType → Member → FrameType → Prop where
  | stdin {ws locals} : Member.Types ⟨ws, locals⟩ .stdin ⟨.object .inputStream :: ws, locals⟩
  | stdout {ws locals} : Member.Types ⟨ws, locals⟩ .stdout ⟨.object .printStream :: ws, locals⟩
  | initDecoder {ws locals site} :
      Member.Types ⟨.object .inputStream :: .fresh .decoder site :: ws, locals⟩ .initDecoder
        (FrameType.initialise .decoder site ⟨ws, locals⟩)
  | initReader {ws locals site} :
      Member.Types ⟨.object .decoder :: .fresh .reader site :: ws, locals⟩ .initReader
        (FrameType.initialise .reader site ⟨ws, locals⟩)
  | readLine {ws locals} :
      Member.Types ⟨.object .reader :: ws, locals⟩ .readLine ⟨.line :: ws, locals⟩
  | parseInt {locals} : Member.Types ⟨[.line], locals⟩ .parseInt ⟨[], locals⟩
  | println {locals} : Member.Types ⟨[.int, .object .printStream], locals⟩ .println ⟨[], locals⟩

/-- What the instructions of a method are typed against: its constants, the number of its local
variables, the types these settle on, and what frame types keep to at each offset besides. -/
structure TypeContext where
  constants : StoredPool
  maxLocals : UInt16
  settled : UInt16 → Option WordType
  keeps : Nat → FrameType → Prop

/-- The frame type of labels. -/
def TypeContext.boundary (c : TypeContext) : FrameType := ⟨[], c.settled⟩

/-- The frame types before and behind an instruction that lies at `pc`. -/
inductive Types (c : TypeContext) (pc : Nat) : FrameType → Instruction → FrameType → Prop where
  | ints {locals op} (h : op.worksOnInts = true) : Types c pc ⟨[], locals⟩ (.plain op) ⟨[], locals⟩
  | dup {w ws locals} : Types c pc ⟨w :: ws, locals⟩ (.plain .dup) ⟨w :: w :: ws, locals⟩
  | swap {w locals} : Types c pc ⟨[w], locals⟩ (.plain .swap) ⟨[.int, w], locals⟩
  | bipush {locals operand} : Types c pc ⟨[], locals⟩ (.byte .bipush operand) ⟨[], locals⟩
  | sipush {locals operand} : Types c pc ⟨[], locals⟩ (.short .sipush operand) ⟨[], locals⟩
  | ldc {locals index value} (h : c.constants.integer? index.toUInt16 = some value) :
      Types c pc ⟨[], locals⟩ (.byte .ldc index) ⟨[], locals⟩
  | ldcW {locals index value} (h : c.constants.integer? index = some value) :
      Types c pc ⟨[], locals⟩ (.short .ldcW index) ⟨[], locals⟩
  | new {ws locals index kind} (h : c.constants.allocated? index = some kind) :
      Types c pc ⟨ws, locals⟩ (.short .new index) ⟨.fresh kind pc :: ws, locals⟩
  | use {before after index m} (h : c.constants.member? index = some m)
      (ht : Member.Types before m after) :
      Types c pc before (.member m.opcode index m.stackEffect.1 m.stackEffect.2) after
  | iload {locals slot} (hslot : slot < c.maxLocals) (h : locals slot = some .int) :
      Types c pc ⟨[], locals⟩ (.slot .iload slot) ⟨[], locals⟩
  | aload {ws locals slot kind} (hslot : slot < c.maxLocals)
      (h : locals slot = some (.object kind)) :
      Types c pc ⟨ws, locals⟩ (.slot .aload slot) ⟨.object kind :: ws, locals⟩
  | istore {locals slot} (hslot : slot < c.maxLocals) :
      Types c pc ⟨[], locals⟩ (.slot .istore slot) ⟨[], Function.update locals slot (some .int)⟩
  | astore {ws locals slot kind} (hslot : slot < c.maxLocals) :
      Types c pc ⟨.object kind :: ws, locals⟩ (.slot .astore slot)
        ⟨ws, Function.update locals slot (some (.object kind))⟩
  | goto {target} : Types c pc c.boundary (.jump .goto target) c.boundary
  | branch {op target} (h : op.condition?.isSome = true) :
      Types c pc c.boundary (.jump op target) c.boundary
  | bind {label} : Types c pc c.boundary (.bind label) c.boundary

namespace Types

variable {c : TypeContext} {pc : Nat} {before after : FrameType} {insn : Instruction}

/-- A typed instruction has the operand that belongs to its opcode. -/
theorem regular (h : Types c pc before insn after) : insn.Regular := by
  cases h with
  | @ints _ op h =>
      revert h
      cases op <;> decide
  | @use _ _ index m _ _ => cases m <;> rfl
  | @branch op target h => cases op <;> first | cases h; done | rfl
  | dup | swap => decide
  | bind => trivial
  | _ => rfl

/-- An access to a local variable takes a byte at least. -/
theorem size_slot_pos (op : Opcode) (slot : UInt16) : 1 ≤ (Instruction.slot op slot).size := by
  simp only [Instruction.size]
  split
  · decide
  · split <;> decide

/-- A typed instruction adds no more words than it has bytes. -/
theorem modest (h : Types c pc before insn after) : insn.Modest := by
  unfold Instruction.Modest
  cases h with
  | @ints _ op h =>
      revert h
      cases op <;> decide
  | @use _ _ index m _ _ =>
      cases m <;> simp [Instruction.stackEffect, Instruction.size, Member.stackEffect]
  | @branch op target h =>
      cases op <;> first | cases h; done | simp [Instruction.stackEffect, Opcode.stackEffect]
  | @iload _ slot | @aload _ _ slot => exact le_trans (size_slot_pos _ slot) (Nat.le_add_left _ _)
  | dup | swap | ldc | ldcW | bipush | sipush | new => simp [Instruction.stackEffect,
      Opcode.stackEffect, Instruction.size]
  | _ => exact Nat.zero_le _

end Types

/-! ## Steps of typed instructions -/

/-- What an instruction of a given type may lead to: the instruction behind it, the place that its
jump leads to, the end of the method, or an exception. -/
def Outcome.Follows (c : TypeContext) (f : Frame) (insn : Instruction) (after : FrameType)
    (next : Nat) (distance : Int) : Outcome → Prop
  | .running g =>
    g.stack.length = insn.heightAfter f.stack.length ∧
      (g.pc = next ∧ g.HasType after ∧ insn ≠ .plain .returnVoid ∧
          (∀ target, insn ≠ .jump .goto target) ∨
        (g.pc : Int) = f.pc + distance ∧ g.HasType c.boundary ∧ ∃ op target, insn = .jump op target)
  | .returned g => g = f ∧ insn = .plain .returnVoid
  | .thrown g => g = f
  | .violation _ => False

section Follows

variable {c : TypeContext} {f : Frame} {insn : Instruction} {after : FrameType} {next : Nat}
  {distance : Int}

/-- The instruction behind is reached with another operand stack. -/
theorem follows_resume {stack : List Value} {locals : UInt16 → Option WordType}
    {operands : List WordType} (hf : Holds locals f)
    (hlength : stack.length = insn.heightAfter f.stack.length) (hfits : Fits operands stack)
    (hreturn : insn ≠ .plain .returnVoid) (hgoto : ∀ target, insn ≠ .jump .goto target) :
    (f.resume next stack).Follows c f insn ⟨operands, locals⟩ next distance :=
  ⟨hlength, .inl ⟨rfl, ⟨hfits, hf⟩, hreturn, hgoto⟩⟩

/-- An operator leaves its result, or throws where it stands. -/
theorem follows_result {result : Option Int32} {stack : List Value}
    {locals : UInt16 → Option WordType} (hf : Holds locals f)
    (hlength : stack.length + 1 = insn.heightAfter f.stack.length) (hfits : Fits [] stack)
    (hreturn : insn ≠ .plain .returnVoid) (hgoto : ∀ target, insn ≠ .jump .goto target) :
    Outcome.Follows c f insn ⟨[], locals⟩ next distance
      (match result with
      | some value => f.resume next (.int value :: stack)
      | none => .thrown f) := by
  cases result with
  | none => rfl
  | some value => exact follows_resume hf hlength (hfits.int value) hreturn hgoto

/-- A jump is taken. -/
theorem follows_jump {stack : List Value} {op : Opcode} {target : Label}
    (hf : Holds c.settled f) (hpc : 0 ≤ (f.pc : Int) + distance)
    (hlength : stack.length = (Instruction.jump op target).heightAfter f.stack.length)
    (hfits : Fits [] stack) :
    (f.jump distance stack).Follows c f (.jump op target) after next distance := by
  rw [Frame.jump, if_neg (by omega)]
  exact ⟨hlength, .inr ⟨Int.toNat_of_nonneg hpc, ⟨hfits, hf⟩, op, target, rfl⟩⟩

theorem holds_update {locals : UInt16 → Option WordType} (hf : Holds locals f) (slot : UInt16)
    (v : Value) {g : Frame} (hg : g.locals = Function.update f.locals slot (some v)) :
    Holds (Function.update locals slot (some v.type)) g := by
  intro n w' hw'
  by_cases hn : n = slot
  · subst hn
    rw [Function.update_self] at hw'
    cases hw'
    exact ⟨v, by rw [hg, Function.update_self], rfl⟩
  · rw [Function.update_of_ne hn] at hw'
    rw [hg, Function.update_of_ne hn]
    exact hf n w' hw'

theorem holds_initialise {locals : UInt16 → Option WordType} (hf : Holds locals f)
    (kind : ObjectKind) (site : Nat) {g : Frame}
    (hg : g.locals = fun n => (f.locals n).map (Value.initialise kind site)) :
    Holds (fun n => (locals n).map (WordType.initialise kind site)) g := by
  intro n w hw
  obtain ⟨w', hw', rfl⟩ := Option.map_eq_some_iff.1 hw
  obtain ⟨v, hv, rfl⟩ := hf n w' hw'
  exact ⟨v.initialise kind site, by rw [hg]; exact congrArg _ hv, type_initialise kind site v⟩

/-- Library members find their operands. -/
theorem follows_use {before : FrameType} {m : Member} {index : UInt16}
    (ht : Member.Types before m after) (hf : f.HasType before) :
    (f.use next m).Follows c f (.member m.opcode index m.stackEffect.1 m.stackEffect.2) after next
      distance := by
  obtain ⟨pc, stack, locals, input, output⟩ := f
  obtain ⟨hfits, hholds⟩ := hf
  cases ht with
  | stdin | stdout => exact follows_resume hholds rfl (hfits.cons rfl) (by simp) (by simp)
  | initDecoder | initReader =>
      obtain ⟨v, rest, rfl, hv, hrest⟩ := hfits.uncons
      obtain ⟨w, rest, rfl, hw, hrest⟩ := hrest.uncons
      rw [type_eq_object hv, type_eq_fresh hw]
      refine ⟨?_, .inl ⟨rfl, ⟨hrest.initialise _ _, holds_initialise hholds _ _ rfl⟩, by simp,
        by simp⟩⟩
      exact List.length_map _
  | readLine =>
      obtain ⟨v, rest, rfl, hv, hrest⟩ := hfits.uncons
      rw [type_eq_object hv]
      exact ⟨rfl, .inl ⟨rfl, ⟨hrest.cons rfl, hholds⟩, by simp, by simp⟩⟩
  | parseInt =>
      obtain ⟨v, rest, rfl, hv, hrest⟩ := hfits.uncons
      obtain ⟨content, rfl⟩ := type_eq_line hv
      cases content with
      | none => exact rfl
      | some value => exact follows_resume hholds rfl (hrest.int value) (by simp) (by simp)
  | println =>
      obtain ⟨v, rest, rfl, hv, hrest⟩ := hfits.uncons
      obtain ⟨w, rest, rfl, hw, hrest⟩ := hrest.uncons
      obtain ⟨value, rfl⟩ := type_eq_int hv
      rw [type_eq_object hw]
      exact ⟨rfl, .inl ⟨rfl, ⟨hrest, hholds⟩, by simp, by simp⟩⟩

/-- Opcodes on integers find their operands. -/
theorem follows_ints {op : Opcode} {locals : UInt16 → Option WordType}
    (hop : op.worksOnInts = true) (hf : f.HasType ⟨[], locals⟩)
    (hpops : op.stackEffect.1 ≤ f.stack.length) :
    (f.plain next op).Follows c f (.plain op) ⟨[], locals⟩ next distance := by
  obtain ⟨pc, stack, frameLocals, input, output⟩ := f
  obtain ⟨hfits, hholds⟩ := hf
  dsimp only at hfits hpops
  cases op <;> first | cases hop; done | skip
  case nop => exact follows_resume hholds rfl hfits (by decide) (by simp)
  case pop =>
      obtain ⟨value, rest, rfl, hrest⟩ := hfits.unint hpops
      exact follows_resume hholds rfl hrest (by decide) (by simp)
  case ineg =>
      obtain ⟨value, rest, rfl, hrest⟩ := hfits.unint hpops
      exact follows_resume hholds rfl (hrest.int _) (by decide) (by simp)
  case returnVoid => exact ⟨rfl, rfl⟩
  case iconstM1 | iconst0 | iconst1 | iconst2 | iconst3 | iconst4 | iconst5 =>
      exact follows_resume hholds rfl (hfits.int _) (by decide) (by simp)
  case iadd | isub | imul | iand | ior =>
      obtain ⟨right, left, rest, rfl, hrest⟩ := hfits.unint₂ hpops
      exact follows_resume hholds rfl (hrest.int _) (by decide) (by simp)
  case idiv | irem =>
      obtain ⟨right, left, rest, rfl, hrest⟩ := hfits.unint₂ hpops
      exact follows_result hholds rfl hrest (by decide) (by simp)

/-- A branch on two integers. -/
theorem Frame.branch_eq {f : Frame} {op : Opcode} {condition : Int32 → Int32 → Bool}
    {right left : Int32} {rest : List Value} (hop : op.condition? = some condition)
    (hstack : f.stack = .int right :: .int left :: rest) :
    f.branch next op distance =
      if condition left right then f.jump distance rest else f.resume next rest := by
  unfold Frame.branch
  cases op <;> first | cases hop; done | simp only [hop, hstack]

/-- Branches find their operands. -/
theorem follows_branch {op : Opcode} {target : Label} (hop : op.condition?.isSome = true)
    (hf : f.HasType c.boundary) (hpc : 0 ≤ (f.pc : Int) + distance)
    (hpops : op.stackEffect.1 ≤ f.stack.length) :
    (f.branch next op distance).Follows c f (.jump op target) c.boundary next distance := by
  obtain ⟨condition, hcondition⟩ := Option.isSome_iff_exists.1 hop
  obtain ⟨pc, stack, frameLocals, input, output⟩ := f
  obtain ⟨hfits, hholds⟩ := hf
  have heffect : op.stackEffect = (2, 0) := by
    cases op <;> first | rfl | cases hop
  have hgoto : op ≠ .goto := by
    rintro rfl
    cases hop
  dsimp only at hpops
  rw [heffect] at hpops
  obtain ⟨right, left, rest, rfl, hrest⟩ := hfits.unint₂ hpops
  have hlength : rest.length =
      (Instruction.jump op target).heightAfter (Value.int right :: .int left :: rest).length := by
    simp [Instruction.heightAfter, Instruction.stackEffect, heffect]
  rw [Frame.branch_eq hcondition rfl]
  split
  · exact follows_jump hholds hpc hlength hrest
  · refine follows_resume hholds hlength hrest (by simp) ?_
    intro label heq
    injection heq with heq _
    exact hgoto heq

/-- Accesses to local variables find them set to words of the right kind. -/
theorem follows_access {e : Executable} {op : Opcode} {slot : UInt16} {before : FrameType}
    (hlocals : e.maxLocals = c.maxLocals) (ht : Types c f.pc before (.slot op slot) after)
    (hf : f.HasType before) (hpops : op.stackEffect.1 ≤ f.stack.length) :
    (f.access e next op slot).Follows c f (.slot op slot) after next distance := by
  obtain ⟨pc, stack, frameLocals, input, output⟩ := f
  obtain ⟨hfits, hholds⟩ := hf
  dsimp only at hfits hpops ht
  unfold Frame.access
  have hin : slot < c.maxLocals → ¬ e.maxLocals ≤ slot := by
    intro hlt hle
    rw [hlocals] at hle
    exact absurd hlt (UInt16.not_lt.2 hle)
  cases ht with
  | iload hslot h =>
      obtain ⟨v, hv, hvtype⟩ := hholds slot _ h
      obtain ⟨value, rfl⟩ := type_eq_int hvtype
      rw [if_neg (hin hslot)]
      simp only at hv
      simp only [hv]
      exact follows_resume hholds rfl (hfits.int value) (by simp) (by simp)
  | aload hslot h =>
      obtain ⟨v, hv, hvtype⟩ := hholds slot _ h
      rw [type_eq_object hvtype] at hv
      rw [if_neg (hin hslot)]
      simp only at hv
      simp only [hv]
      exact follows_resume hholds rfl (hfits.cons rfl) (by simp) (by simp)
  | istore hslot =>
      obtain ⟨value, rest, rfl, hrest⟩ := hfits.unint hpops
      rw [if_neg (hin hslot)]
      exact ⟨rfl, .inl ⟨rfl, ⟨hrest, holds_update hholds slot (.int value) rfl⟩, by simp,
        by simp⟩⟩
  | @astore _ _ _ kind hslot =>
      obtain ⟨v, rest, rfl, hv, hrest⟩ := hfits.uncons
      rw [type_eq_object hv, if_neg (hin hslot)]
      exact ⟨rfl, .inl ⟨rfl, ⟨hrest, holds_update hholds slot (.object kind) rfl⟩, by simp,
        by simp⟩⟩

/-- Typed instructions keep to their types. The instruction finds its operands, its constant and
its local variable, and leaves what its type says. -/
theorem Types.follows {e : Executable} {before : FrameType}
    (hconstants : e.constants = c.constants) (hlocals : e.maxLocals = c.maxLocals)
    (ht : Types c f.pc before insn after) (hf : f.HasType before) (hbind : insn.isBind = false)
    (hpops : insn.stackEffect.1 ≤ f.stack.length)
    (hpc : ∀ op target, insn = .jump op target → 0 ≤ (f.pc : Int) + distance) :
    (f.execute e next (insn.operation distance)).Follows c f insn after next distance := by
  cases ht with
  | ints h => exact follows_ints h hf hpops
  | dup =>
      obtain ⟨v, rest, hstack, hv, hrest⟩ := hf.fits.uncons
      rw [Instruction.operation, Frame.execute_dup hstack]
      exact follows_resume hf.holds (by rw [hstack]; rfl) ((hrest.cons hv).cons hv) (by decide)
        (by simp)
  | swap =>
      obtain ⟨v, tail, hstack, hv, htail⟩ := hf.fits.uncons
      rw [hstack] at hpops
      obtain ⟨value, rest, rfl, hrest⟩ := htail.unint (Nat.le_of_succ_le_succ hpops)
      rw [Instruction.operation, Frame.execute_swap hstack]
      exact follows_resume hf.holds (by rw [hstack]; rfl) ((hrest.cons hv).cons rfl) (by decide)
        (by simp)
  | bipush | sipush => exact follows_resume hf.holds rfl (hf.fits.int _) (by simp) (by simp)
  | ldc h | ldcW h =>
      simp only [Frame.execute, Instruction.operation, Frame.useConstant, hconstants, h]
      exact follows_resume hf.holds rfl (hf.fits.int _) (by simp) (by simp)
  | new h =>
      simp only [Frame.execute, Instruction.operation, Frame.useConstant, hconstants, h]
      exact follows_resume hf.holds rfl (hf.fits.cons rfl) (by simp) (by simp)
  | @use _ _ index m h hm =>
      have hop : Frame.execute e f next (.short m.opcode index) = f.use next m := by
        have hmember := h
        rw [← hconstants] at hmember
        cases m <;> simp only [Frame.execute, Frame.useConstant, Member.opcode, hmember, if_pos]
      rw [Instruction.operation, hop]
      exact follows_use hm hf
  | iload hslot h =>
      exact follows_access hlocals (.iload hslot h) hf hpops
  | aload hslot h =>
      exact follows_access hlocals (.aload hslot h) hf hpops
  | istore hslot =>
      exact follows_access hlocals (.istore hslot) hf hpops
  | astore hslot =>
      exact follows_access hlocals (.astore hslot) hf hpops
  | @goto target =>
      have hlength : f.stack.length =
          (Instruction.jump .goto target).heightAfter f.stack.length := rfl
      have hjump : f.branch next .goto distance = f.jump distance f.stack := rfl
      rw [Instruction.operation, Frame.execute, hjump]
      exact follows_jump hf.holds (hpc _ _ rfl) hlength hf.fits
  | branch h => exact follows_branch h hf (hpc _ _ rfl) hpops
  | bind => cases hbind

end Follows

end StackCodegen.ClassFile
