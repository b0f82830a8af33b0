import StackCodegen.Proofs.ClassFile.Safety
import StackCodegen.Proofs.Managed.Emission

/-!
# Emitted code is typed

The opening leaves the reader in slot 1, the zeroing sets one variable after the other, and from
then on the local variables keep one type: the argument, the reader, and integers (`settledLocals`).
Every block starts and ends with integers alone on the operand stack; references are there only in
the middle of reading and writing. Main statement: the whole body is typed from the entry of the
method (`typed_of_emitted`).
-/

set_option autoImplicit false

namespace StackCodegen.Managed

open ClassFile

/-- Types of the local variables when the first `count` variables are set. -/
def settledLocals (count : Nat) : UInt16 → Option WordType := fun slot =>
  if slot = argumentSlot then some (.object .arguments)
  else if slot = readerSlot then some (.object .reader)
  else if slot.toNat < firstVariableSlot + count then some .int
  else none

/-- Bytes of the instructions that open the reader. -/
def openingSize : Nat := 18

/-- Behind the opening, slot 1 holds the reader. -/
def KeepsReader (pc : Nat) (t : FrameType) : Prop :=
  openingSize ≤ pc → t.locals readerSlot = some (.object .reader)

/-- What the main method of a class with the given constants and variables is typed against. -/
def mainContext (pool : StoredPool) (count : Nat) : TypeContext :=
  ⟨pool, .ofNat (firstVariableSlot + count), settledLocals count, KeepsReader⟩

/-- Variables come and go behind the reader's slot. -/
theorem keepsReader_settled (pc count : Nat) (operands : List WordType) :
    KeepsReader pc ⟨operands, settledLocals count⟩ := fun _ => rfl

theorem settledLocals_of_ge {count : Nat} {slot : UInt16} (h : 2 ≤ slot.toNat) :
    settledLocals count slot =
      if slot.toNat < firstVariableSlot + count then some .int else none := by
  have h0 : slot ≠ argumentSlot := by
    rintro rfl
    exact absurd h (by decide)
  have h1 : slot ≠ readerSlot := by
    rintro rfl
    exact absurd h (by decide)
  rw [settledLocals, if_neg h0, if_neg h1]

/-- One more variable is set. -/
theorem update_settledLocals {count : Nat} {slot : UInt16}
    (h : slot.toNat = firstVariableSlot + count) :
    Function.update (settledLocals count) slot (some .int) = settledLocals (count + 1) := by
  have hge : 2 ≤ slot.toNat := by
    unfold firstVariableSlot at h
    omega
  funext n
  by_cases hn : n = slot
  · subst hn
    rw [Function.update_self, settledLocals_of_ge hge, if_pos (by omega)]
  · rw [Function.update_of_ne hn]
    unfold settledLocals
    split
    · rfl
    · split
      · rfl
      · have hne : n.toNat ≠ slot.toNat := fun heq => hn (UInt16.toNat_inj.1 heq)
        by_cases hlt : n.toNat < firstVariableSlot + count
        · rw [if_pos hlt, if_pos (by omega)]
        · rw [if_neg hlt, if_neg (by omega)]

section Typed

variable {pool : StoredPool} {slots : List (String × UInt16)}

/-- Slots of variables lie within the declared bounds and hold integers. -/
theorem slot_settled (pool : StoredPool) (hslots : Laid slots) {name : String} {slot : UInt16}
    (hmem : (name, slot) ∈ slots) :
    slot < (mainContext pool slots.length).maxLocals ∧
      settledLocals slots.length slot = some .int := by
  obtain ⟨hge, hlt⟩ := hslots.slot_bounds hmem
  have hmax : (UInt16.ofNat (firstVariableSlot + slots.length)).toNat =
      firstVariableSlot + slots.length :=
    UInt16.toNat_ofNat_of_lt' (by have := hslots.length_le; simp only [UInt16.size]; omega)
  refine ⟨UInt16.lt_iff_toNat_lt.2 ?_, ?_⟩
  · rw [mainContext, hmax]
    exact hlt
  · rw [settledLocals_of_ge hge, if_pos hlt]

theorem readerSlot_lt (hslots : Laid slots) :
    readerSlot < (mainContext pool slots.length).maxLocals := by
  have hle := hslots.length_le
  have hmax : (UInt16.ofNat (firstVariableSlot + slots.length)).toNat =
      firstVariableSlot + slots.length :=
    UInt16.toNat_ofNat_of_lt' (by simp only [UInt16.size]; omega)
  refine UInt16.lt_iff_toNat_lt.2 ?_
  rw [mainContext, hmax]
  change 1 < firstVariableSlot + slots.length
  unfold firstVariableSlot
  omega

/-! ## The opening and the zeroing -/

theorem entry_locals_of_ne {slot : UInt16} (h : slot ≠ 0) : FrameType.entry.locals slot = none := by
  simp only [FrameType.entry, Function.update_of_ne h]

/-- Initialising an object changes no local variable before one holds it. -/
theorem initialise_entry (kind : ObjectKind) (site : Nat) :
    (fun n => (FrameType.entry.locals n).map (WordType.initialise kind site)) =
      FrameType.entry.locals := by
  funext n
  by_cases hn : n = 0
  · subst hn
    rfl
  · rw [entry_locals_of_ne hn]
    rfl

/-- The opening puts the reader into its slot. -/
theorem typed_opening (hslots : Laid slots) {opening : List Instruction}
    (h : Opens pool opening) :
    Typed (mainContext pool slots.length) 0 .entry opening ⟨[], settledLocals 0⟩ := by
  have hopened : Function.update FrameType.entry.locals readerSlot (some (.object .reader)) =
      settledLocals 0 := by
    funext n
    by_cases hn : n = readerSlot
    · subst hn
      rfl
    · rw [Function.update_of_ne hn]
      by_cases h0 : n = 0
      · subst h0
        rfl
      · rw [entry_locals_of_ne h0, settledLocals, if_neg (show n ≠ argumentSlot from h0), if_neg hn,
          if_neg]
        have hn0 : n.toNat ≠ 0 := fun heq => h0 (UInt16.toNat_inj.1 heq)
        have hn1 : n.toNat ≠ 1 := fun heq => hn (UInt16.toNat_inj.1 heq)
        unfold firstVariableSlot
        omega
  cases h with
  | @intro reader decoder stdin initDecoder initReader hreader hdecoder hstdin hdec hread =>
      have hdecoded : FrameType.initialise .decoder 4
          ⟨[.fresh .decoder 4, .fresh .reader 0, .fresh .reader 0], FrameType.entry.locals⟩ =
            ⟨[.object .decoder, .fresh .reader 0, .fresh .reader 0], FrameType.entry.locals⟩ := by
        rw [FrameType.initialise, initialise_entry]
        rfl
      have hopen : FrameType.initialise .reader 0
          ⟨[.fresh .reader 0], FrameType.entry.locals⟩ =
            ⟨[.object .reader], FrameType.entry.locals⟩ := by
        rw [FrameType.initialise, initialise_entry]
        rfl
      have hinit : Types (mainContext pool slots.length) 11
          ⟨[.object .inputStream, .fresh .decoder 4, .fresh .decoder 4, .fresh .reader 0,
            .fresh .reader 0], FrameType.entry.locals⟩ (useOf .initDecoder initDecoder)
          ⟨[.object .decoder, .fresh .reader 0, .fresh .reader 0], FrameType.entry.locals⟩ := by
        rw [← hdecoded]
        exact .use hdec .initDecoder
      have hinit' : Types (mainContext pool slots.length) 14
          ⟨[.object .decoder, .fresh .reader 0, .fresh .reader 0], FrameType.entry.locals⟩
          (useOf .initReader initReader) ⟨[.object .reader], FrameType.entry.locals⟩ := by
        rw [← hopen]
        exact .use hread .initReader
      rw [← hopened]
      have hk : ∀ {pc : Nat} {t : FrameType}, pc.blt openingSize = true → KeepsReader pc t := by
        intro pc t hlt hle
        rw [Nat.blt_eq] at hlt
        exact absurd hlt (Nat.not_lt.2 hle)
      exact .cons (hk rfl) (.new hreader) <| .cons (hk rfl) .dup <|
        .cons (hk rfl) (.new hdecoder) <| .cons (hk rfl) .dup <|
        .cons (hk rfl) (.use hstdin .stdin) <| .cons (hk rfl) hinit <|
        .cons (hk rfl) hinit' <|
        .single (hk rfl) (.astore (readerSlot_lt hslots))

/-- The zeroing sets one variable after the other. -/
theorem typed_zeroVariables {c : TypeContext} {pc count : Nat} {entries : List (String × UInt16)}
    (hkeeps : c.keeps = KeepsReader) (hmax : ∀ entry ∈ entries, entry.2 < c.maxLocals)
    (hslot : ∀ (i : Nat) (entry : String × UInt16), entries[i]? = some entry →
      entry.2.toNat = firstVariableSlot + (count + i)) :
    Typed c pc ⟨[], settledLocals count⟩ (zeroVariables entries)
      ⟨[], settledLocals (count + entries.length)⟩ := by
  induction entries generalizing pc count with
  | nil => exact .nil
  | cons entry entries ih =>
      obtain ⟨name, slot⟩ := entry
      have hstore : Types c (pc + 1) ⟨[], settledLocals count⟩ (.slot .istore slot)
          ⟨[], settledLocals (count + 1)⟩ := by
        rw [← update_settledLocals (hslot 0 _ rfl)]
        exact .istore (hmax _ List.mem_cons_self)
      have hrest : Typed c (pc + 1 + (Instruction.slot .istore slot).size)
          ⟨[], settledLocals (count + 1)⟩ (zeroVariables entries)
          ⟨[], settledLocals (count + 1 + entries.length)⟩ := ih
        (fun entry hentry => hmax entry (List.mem_cons_of_mem _ hentry))
        (fun i entry hentry => by rw [hslot (i + 1) entry hentry]; omega)
      rw [List.length_cons, show count + (entries.length + 1) = count + 1 + entries.length by omega]
      exact .cons (hkeeps ▸ keepsReader_settled _ _ _) (.ints rfl)
        (.cons (hkeeps ▸ keepsReader_settled _ _ _) hstore hrest)

/-! ## Blocks -/

/-- A block keeps integers alone on the stack and the local variables settled. -/
theorem typed_block (hslots : Laid slots) {length next mid pc : Nat} {statement : Statement}
    {block : List Instruction} (h : Emits pool slots length statement next block mid) :
    Typed (mainContext pool slots.length) pc (mainContext pool slots.length).boundary block
      (mainContext pool slots.length).boundary := by
  have hk : ∀ {pc : Nat} {ws : List WordType}, KeepsReader pc ⟨ws, settledLocals slots.length⟩ :=
    keepsReader_settled _ _ _
  cases h with
  | nop => exact .single hk (.ints rfl)
  | push h =>
      cases h with
      | @iconst op h =>
          have hop : op.worksOnInts = true := by
            unfold Opcode.iconst? at h
            repeat' split at h
            all_goals cases h
            all_goals rfl
          exact .single hk (.ints hop)
      | bipush => exact .single hk .bipush
      | sipush => exact .single hk .sipush
      | ldc _ h => exact .single hk (.ldc h)
      | ldcW _ _ h => exact .single hk (.ldcW h)
  | load h =>
      obtain ⟨hmax, hint⟩ := slot_settled pool hslots h
      exact .single hk (.iload hmax hint)
  | @store _ _ slot h =>
      obtain ⟨hmax, hint⟩ := slot_settled pool hslots h
      have hsame : Function.update (settledLocals slots.length) slot (some .int) =
          settledLocals slots.length := by
        rw [← hint]
        exact Function.update_eq_self slot _
      have hstore : Types (mainContext pool slots.length) pc ⟨[], settledLocals slots.length⟩
          (.slot .istore slot)
          ⟨[], Function.update (settledLocals slots.length) slot (some .int)⟩ := .istore hmax
      rw [hsame] at hstore
      exact .single hk hstore
  | negate => exact .single hk (.ints rfl)
  | @arithmetic _ op opcode h =>
      have hop : opcode.worksOnInts = true := by
        cases op <;> cases h <;> rfl
      exact .single hk (.ints hop)
  | @comparison _ op branch h =>
      have hbranch : branch.condition?.isSome = true := by
        cases op <;> cases h <;> rfl
      exact .cons hk (.branch hbranch) <| .cons hk (.ints rfl) <| .cons hk .goto <|
        .cons hk .bind <|
        .cons hk (.ints rfl) <| .single hk .bind
  | jump h => exact .single hk .goto
  | jumpIfZero h => exact .cons hk (.ints rfl) (.single hk (.branch rfl))
  | read hline hparse =>
      have hreader : settledLocals slots.length readerSlot = some (.object .reader) := rfl
      exact .cons hk (.aload (readerSlot_lt hslots) hreader) <|
        .cons hk (.use (m := .readLine) hline .readLine) <|
        .single hk (.use (m := .parseInt) hparse .parseInt)
  | write hout hprint =>
      exact .cons hk (.use (m := .stdout) hout .stdout) <| .cons hk .swap <|
        .single hk (.use (m := .println) hprint .println)
  | pop => exact .single hk (.ints rfl)

theorem typed_blocks (hslots : Laid slots) {length index next last pc : Nat}
    {statements : List Statement} {blocks : List (List Instruction)}
    (h : EmitsAll pool slots length index statements next blocks last) :
    Typed (mainContext pool slots.length) pc (mainContext pool slots.length).boundary
      blocks.flatten (mainContext pool slots.length).boundary := by
  induction h generalizing pc with
  | nil => exact .nil
  | cons head _ ih =>
      rw [List.flatten_cons, List.cons_append]
      exact .cons (keepsReader_settled _ _ _) .bind ((typed_block hslots head).append ih)

/-- The whole body is typed from the entry of the method. -/
theorem typed_of_emitted (hslots : Laid slots) {body : Body} {opening : List Instruction}
    {blocks : List (List Instruction)} {code : SymbolicCode}
    (h : Emitted pool slots body opening blocks code) :
    Typed (mainContext pool slots.length) 0 .entry code.instructions.toList
      (mainContext pool slots.length).boundary := by
  have hzero : ∀ pc, Typed (mainContext pool slots.length) pc ⟨[], settledLocals 0⟩
      (zeroVariables slots) (mainContext pool slots.length).boundary := by
    intro pc
    have hall : Typed (mainContext pool slots.length) pc ⟨[], settledLocals 0⟩
        (zeroVariables slots) ⟨[], settledLocals (0 + slots.length)⟩ := typed_zeroVariables rfl
      (fun entry hentry => (slot_settled pool hslots hentry).1)
      (fun i entry hentry => by rw [hslots.slot_eq i entry hentry, Nat.zero_add])
    rwa [Nat.zero_add] at hall
  have hclosing : ∀ pc, Typed (mainContext pool slots.length) pc
      (mainContext pool slots.length).boundary [.bind body.size, .plain .returnVoid]
      (mainContext pool slots.length).boundary :=
    fun pc => .cons (keepsReader_settled _ _ _) .bind
      (.single (keepsReader_settled _ _ _) (.ints rfl))
  rw [h.code_eq]
  exact (((typed_opening hslots h.opens).append (hzero _)).append
    (typed_blocks hslots h.blocks_emitted)).append (hclosing _)

end Typed

end StackCodegen.Managed
