import StackCodegen.Proofs.ClassFile.Disassembly
import StackCodegen.Proofs.ClassFile.PoolRoom
import StackCodegen.Proofs.Managed.StackDiscipline
import StackCodegen.Proofs.Managed.StatementPlaces

/-!
# Limits of class files

A class file has room for so many variables, so many constants, and so much code, and its jumps
reach only so far. What a routine needs of these can be counted before it is compiled
(`WithinLimits`): a variable has its slot by its place among the names, an integer its index by its
place among the distinct constants, and with these the bytes of every statement are known
(`statementSize`), so where it lies (`placeOf`) and how far its jump goes (`jumpDistance`).

Main statement: a routine of statements that the target provides, with jumps inside it, is compiled
if and only if it stays within the limits and keeps to the stack discipline; one within the limits
that does not is refused by the stack checks (`exists_compile_iff`).
-/

set_option autoImplicit false

namespace StackCodegen.Managed

open ClassFile
open ClassFile.ConstantPool (Call IsPrefix distinctParts)

/-! ## Sizes -/

/-- Bytes of an access to a slot. -/
def accessSize (slot : Nat) : Nat :=
  if slot ≤ 3 then 1 else if slot ≤ 255 then 2 else 4

/-- The slot of a variable of a body. -/
def variableSlot (body : Body) (name : String) : Nat :=
  firstVariableSlot + body.variableNames.idxOf name

/-- The calls on the pool of a class up to the code of the main method. -/
def codeCalls (className : String) (body : Body) : List Call :=
  prepareCalls className ++ mainConstants body

/-- The index of an integer that is a constant of a class. -/
def integerIndex (className : String) (body : Body) (value : Int32) : Nat :=
  (distinctParts (codeCalls className body)).idxOf (.integer value) + 1

/-- Bytes of the instruction that pushes an integer. -/
def pushSize (className : String) (body : Body) (value : Int32) : Nat :=
  if (Opcode.iconst? value).isSome then 1
  else if FitsByte value then 2
  else if FitsShort value then 3
  else if integerIndex className body value ≤ 255 then 2
  else 3

/-- Bytes of the code of a statement that the target provides. -/
def statementSize (className : String) (body : Body) : Statement → Nat
  | .push value => pushSize className body value
  | .load name | .store name => accessSize (variableSlot body name)
  | .binary op => if (otherwiseBranch? op).isSome then 8 else 1
  | .jump _ => 3
  | .jumpIfZero _ => 4
  | .call _ => 7
  | _ => 1

/-- Bytes in front of the first statement: the set-up of the reader, and the zeroing of each
variable. -/
def frontSize (body : Body) : Nat :=
  18 + (body.variableNames.map fun name => 1 + accessSize (variableSlot body name)).sum

/-- The place of a statement in the code, or that of the `return` behind the last one. -/
def placeOf (className : String) (body : Body) (k : Nat) : Nat :=
  frontSize body + ((body.toList.take k).map (statementSize className body)).sum

/-- How far the jump of statement `k` goes to statement `target`. A jump takes the last three bytes
of its statement. -/
def jumpDistance (className : String) (body : Body) (k target : Nat) : Int :=
  (placeOf className body target : Int) - (placeOf className body (k + 1) - 3)

/-- What a class file has room for. -/
structure WithinLimits (options : Options) (body : Body) : Prop where
  slots : firstVariableSlot + body.variableNames.length ≤ 65535
  texts : ∀ call ∈ classCalls options body, ¬ call.TooLong
  constants : (distinctParts (classCalls options body)).length ≤ 65534
  code : placeOf options.className body body.size + 1 ≤ 65535
  jumps : ∀ jump ∈ body.jumpTargets,
    -32768 ≤ jumpDistance options.className body jump.1 jump.2.toNat ∧
      jumpDistance options.className body jump.1 jump.2.toNat ≤ 32767

/-- The limits of class files can be checked. -/
instance (options : Options) (body : Body) : Decidable (WithinLimits options body) :=
  decidable_of_iff
    (firstVariableSlot + body.variableNames.length ≤ 65535 ∧
      (∀ call ∈ classCalls options body,
        ∀ text ∈ call.texts, ¬ 65535 < (ModifiedUtf8.encode text).length) ∧
      (distinctParts (classCalls options body)).length ≤ 65534 ∧
      placeOf options.className body body.size + 1 ≤ 65535 ∧
      ∀ jump ∈ body.jumpTargets,
        -32768 ≤ jumpDistance options.className body jump.1 jump.2.toNat ∧
          jumpDistance options.className body jump.1 jump.2.toNat ≤ 32767)
    ⟨fun ⟨hslots, htexts, hconstants, hcode, hjumps⟩ =>
      ⟨hslots, fun call hcall ⟨text, htext, hlong⟩ => htexts call hcall text htext hlong,
        hconstants, hcode, hjumps⟩,
    fun h => ⟨h.slots, fun call hcall text htext hlong =>
      h.texts call hcall ⟨text, htext, hlong⟩, h.constants, h.code, h.jumps⟩⟩

theorem placeOf_succ {className : String} {body : Body} {k : Nat} {statement : Statement}
    (hk : body[k]? = some statement) :
    placeOf className body (k + 1) =
      placeOf className body k + statementSize className body statement := by
  rw [← Array.getElem?_toList] at hk
  rw [placeOf, placeOf, List.take_add_one, hk, Option.toList_some, List.map_append, List.sum_append,
    List.map_singleton, List.sum_singleton, Nat.add_assoc]

/-! ## Jumps of emitted code -/

section Jumps

/-- An element of two rows is in the first or in the second. -/
theorem split_append {α : Type} {front back done todo : List α} {a : α}
    (h : front ++ back = done ++ a :: todo) :
    (∃ here, front = done ++ a :: here ∧ todo = here ++ back) ∨
      ∃ later, done = front ++ later ∧ back = later ++ a :: todo := by
  rcases List.append_eq_append_iff.1 h with ⟨later, hdone, hlater⟩ | ⟨here, hdone, hhere⟩
  · exact .inr ⟨later, hdone, hlater⟩
  · cases here with
    | nil => exact .inr ⟨[], by rw [hdone, List.append_nil, List.append_nil], hhere.symm⟩
    | cons first here =>
        obtain ⟨rfl, htodo⟩ := List.cons.inj hhere
        exact .inl ⟨here, hdone, htodo⟩

variable {pool : StoredPool} {slots : List (String × UInt16)} {length : Nat}

/-- The jump of a statement ends its block. -/
theorem ends_of_emits {next mid : Nat} {statement : Statement} {block : List Instruction}
    (h : Emits pool slots length statement next block mid) {target : UInt64}
    (htarget : statement.jumpTarget? = some target) :
    ∃ inside op, block = inside ++ [.jump op target.toNat] := by
  cases h with
  | jump =>
      cases htarget
      exact ⟨[], _, rfl⟩
  | jumpIfZero =>
      cases htarget
      exact ⟨[.plain .iconst0], _, rfl⟩
  | _ => cases htarget

/-- A jump of a block is that of its statement, or leads to a label of the block, which is short. -/
theorem jump_of_emits {next mid : Nat} {statement : Statement} {block : List Instruction}
    (h : Emits pool slots length statement next block mid) {op : Opcode} {label : Label}
    {inside rest : List Instruction} (hblock : block = inside ++ .jump op label :: rest) :
    (∃ target : UInt64, statement.jumpTarget? = some target ∧ target.toNat ≤ length ∧
      label = target.toNat ∧ rest = []) ∨
      ∃ before after, block = before ++ .bind label :: after ∧ codeSize block ≤ 8 := by
  have hmem : .jump op label ∈ block := by
    rw [hblock]
    exact List.mem_append_right _ List.mem_cons_self
  cases h with
  | push h =>
      rw [List.mem_singleton] at hmem
      subst hmem
      cases h
  | @jump _ target hle =>
      rcases inside with _ | ⟨first, inside⟩
      · cases hblock
        exact .inl ⟨target, rfl, hle, rfl, rfl⟩
      · simp at hblock
  | @jumpIfZero _ target hle =>
      rcases inside with _ | ⟨first, _ | ⟨second, inside⟩⟩
      · cases hblock
      · cases hblock
        exact .inl ⟨target, rfl, hle, rfl, rfl⟩
      · simp at hblock
  | @comparison _ _ branch =>
      simp only [comparison, List.mem_cons, Instruction.jump.injEq, reduceCtorEq, false_or,
        or_false, List.not_mem_nil] at hmem
      rcases hmem with ⟨-, hlabel⟩ | ⟨-, hlabel⟩ <;> rw [hlabel]
      · exact .inr ⟨[.jump branch next, .plain .iconst1, .jump .goto (next + 1)], _, rfl, le_refl 8⟩
      · exact .inr ⟨[.jump branch next, .plain .iconst1, .jump .goto (next + 1), .bind next,
          .plain .iconst0], [], rfl, le_refl 8⟩
  | _ => simp at hmem

/-- A jump among the blocks lies in the block of a statement. -/
theorem block_of_jump_emitsAll {index next last : Nat} {statements : List Statement}
    {blocks : List (List Instruction)}
    (h : EmitsAll pool slots length index statements next blocks last) {back : List Instruction}
    {op : Opcode} {target : Label} (hback : .jump op target ∉ back)
    {done todo : List Instruction}
    (hsplit : blocks.flatten ++ .bind (index + statements.length) :: back =
      done ++ .jump op target :: todo) :
    ∃ i statement front block back' first mid inside rest, statements[i]? = some statement ∧
      Emits pool slots length statement first block mid ∧
      blocks.flatten ++ .bind (index + statements.length) :: back =
        front ++ .bind (index + i) :: (block ++ .bind (index + i + 1) :: back') ∧
      block = inside ++ .jump op target :: rest ∧ done = front ++ .bind (index + i) :: inside := by
  induction h generalizing done with
  | nil =>
      rw [List.flatten_nil, List.nil_append] at hsplit
      have hmem : .jump op target ∈ done ++ .jump op target :: todo :=
        List.mem_append_right _ List.mem_cons_self
      rw [← hsplit] at hmem
      simp [hback] at hmem
  | @cons index statement statements next mid last block blocks head tail ih =>
      rw [List.flatten_cons, List.append_assoc, List.length_cons,
        Nat.add_comm statements.length 1, ← Nat.add_assoc] at hsplit ⊢
      rcases split_append hsplit with ⟨here, hhere, -⟩ | ⟨later, rfl, hlater⟩
      · -- in this block, behind its label
        obtain ⟨back', hnext⟩ := head_of_emitsAll tail back
        rw [hnext]
        cases done with
        | nil => cases hhere
        | cons first inside =>
            cases hhere
            exact ⟨0, statement, [], _, back', _, _, inside, here, rfl, head, rfl, rfl, rfl⟩
      · obtain ⟨i, s, front, block', back', first, mid', inside, rest, hi, hemits, hcode, hblock,
          rfl⟩ := ih hlater
        have hindex : index + (i + 1) = index + 1 + i := by omega
        refine ⟨i + 1, s, (.bind index :: block) ++ front, block', back', first, mid', inside, rest,
          hi, hemits, ?_, hblock, ?_⟩
        · rw [hcode, hindex, List.append_assoc]
        · rw [hindex, List.append_assoc]

variable {body : Body} {opening : List Instruction} {blocks : List (List Instruction)}
  {code : SymbolicCode} (h : Emitted pool slots body opening blocks code)

include h

/-- A jump of emitted code lies in the block of a statement. -/
theorem Emitted.block_of_jump {op : Opcode} {target : Label} {done todo : List Instruction}
    (hcode : code.instructions.toList = done ++ .jump op target :: todo) :
    ∃ k statement front block back first mid inside rest, body[k]? = some statement ∧
      Emits pool slots body.size statement first block mid ∧
      code.instructions.toList = front ++ .bind k :: (block ++ .bind (k + 1) :: back) ∧
      block = inside ++ .jump op target :: rest ∧ done = front ++ .bind k :: inside := by
  have hfront : .jump op target ∉ opening ++ zeroVariables slots := by
    intro hmem
    rcases List.mem_append.1 hmem with hmem | hmem
    · exact absurd (straight_of_opens h.opens _ hmem) (by simp [Instruction.straight])
    · exact absurd (straight_zeroVariables slots _ hmem) (by simp [Instruction.straight])
  rw [h.code_split] at hcode ⊢
  rcases split_append hcode with ⟨here, hhere, -⟩ | ⟨later, rfl, hlater⟩
  · rw [hhere] at hfront
    exact absurd (List.mem_append_right _ List.mem_cons_self) hfront
  · obtain ⟨k, s, front, block, back, first, mid, inside, rest, hk, hemits, hsplit, hblock, rfl⟩ :=
      block_of_jump_emitsAll h.blocks_emitted (by simp) hlater
    have hindex : 0 + k = k := Nat.zero_add k
    rw [Array.getElem?_toList] at hk
    refine ⟨k, s, opening ++ zeroVariables slots ++ front, block, back, first, mid, inside, rest, hk,
      hemits, ?_, hblock, ?_⟩
    · rw [hsplit, hindex, List.append_assoc _ front]
    · rw [hindex, List.append_assoc _ front]

/-- Emitted code is split in one way at a label. -/
theorem Emitted.split_unique {label : Nat} {done done' todo todo' : List Instruction}
    (hcode : code.instructions.toList = done ++ .bind label :: todo)
    (hcode' : code.instructions.toList = done' ++ .bind label :: todo') : done = done' := by
  have hnodup := h.nodup_boundLabels
  have hleft := not_mem_boundLabels_left (hcode ▸ hnodup)
  have hleft' := not_mem_boundLabels_left (hcode' ▸ hnodup)
  exact ClassFile.split_unique (hcode.symm.trans hcode') hleft hleft'

end Jumps

/-! ## Sizes of emitted code -/

theorem size_slot (op : Opcode) (number : UInt16) :
    (Instruction.slot op number).size = accessSize number.toNat := rfl

/-- The slot of a variable is known by its place among the names. -/
theorem toNat_slot {body : Body} {slots : List (String × UInt16)}
    (hslots : allocateSlots body = .ok slots) {name : String} {slot : UInt16}
    (hmem : (name, slot) ∈ slots) : slot.toNat = variableSlot body name := by
  have hlaid := laid_of_allocateSlots hslots
  have hnames := fst_of_allocateSlots hslots
  obtain ⟨i, hi⟩ := List.getElem?_of_mem hmem
  have hname : body.variableNames[i]? = some name := by
    rw [← hnames, List.getElem?_map, hi, Option.map_some]
  obtain ⟨hlt, hget⟩ := List.getElem?_eq_some_iff.1 hname
  have hplace := body.nodup_variableNames.idxOf_getElem i hlt
  rw [hget] at hplace
  rw [variableSlot, hplace]
  exact hlaid.slot_eq i _ hi

/-- A pool that holds integers at the indices that were counted. -/
def Indexes (pool : StoredPool) (className : String) (body : Body) : Prop :=
  ∀ (index : UInt16) (value : Int32), pool.integer? index = some value →
    index.toNat = integerIndex className body value

section Emitted

variable {className : String} {body : Body} {pool : StoredPool} {slots : List (String × UInt16)}
  (hpool : Indexes pool className body)

include hpool

theorem size_of_pushes {value : Int32} {insn : Instruction} (h : Pushes pool value insn) :
    insn.size = pushSize className body value := by
  have hiconst : ¬ FitsByte value → (Opcode.iconst? value).isSome = false := by
    intro hbyte
    cases hop : Opcode.iconst? value with
    | none => rfl
    | some op => exact absurd (fitsByte_of_iconst? hop) hbyte
  have hbyte : ¬ FitsShort value → ¬ FitsByte value := fun hshort h =>
    hshort (fitsShort_of_fitsByte h)
  cases h with
  | iconst h => rw [pushSize, h, Option.isSome_some, if_pos rfl, Instruction.size]
  | bipush hnone h =>
      rw [pushSize, hnone, Option.isSome_none, if_neg Bool.false_ne_true, if_pos h,
        Instruction.size]
  | sipush hlarge h =>
      rw [pushSize, hiconst hlarge, if_neg Bool.false_ne_true, if_neg hlarge, if_pos h,
        Instruction.size]
  | @ldc index hshort h =>
      have hindex := hpool _ _ h
      have hsmall : integerIndex className body value ≤ 255 := by
        rw [← hindex, UInt8.toNat_toUInt16]
        exact Nat.le_of_lt_succ index.toNat_lt
      rw [pushSize, hiconst (hbyte hshort), if_neg Bool.false_ne_true, if_neg (hbyte hshort),
        if_neg hshort, if_pos hsmall, Instruction.size]
  | ldcW hshort hlarge h =>
      rw [hpool _ _ h] at hlarge
      rw [pushSize, hiconst (hbyte hshort), if_neg Bool.false_ne_true, if_neg (hbyte hshort),
        if_neg hshort, if_neg (Nat.not_le.2 hlarge), Instruction.size]

variable (hslots : allocateSlots body = .ok slots)

include hslots

/-- The block of a statement has the size that was counted for it. -/
theorem codeSize_of_emits {length next mid : Nat} {statement : Statement}
    {block : List Instruction} (h : Emits pool slots length statement next block mid) :
    codeSize block = statementSize className body statement := by
  cases h with
  | push h => rw [codeSize_cons, size_of_pushes hpool h, codeSize_nil, Nat.add_zero, statementSize]
  | load hmem | store hmem =>
      rw [codeSize_cons, size_slot, toNat_slot hslots hmem, codeSize_nil, Nat.add_zero,
        statementSize]
  | @arithmetic _ op _ hop => cases op <;> first | rfl | cases hop
  | comparison hbranch =>
      rw [statementSize, hbranch]
      rfl
  | _ => rfl

variable {opening : List Instruction} {blocks : List (List Instruction)} {code : SymbolicCode}

omit hpool in
/-- In front of the first label there are the opening and the zeroing of the variables. -/
theorem codeSize_front (h : Opens pool opening) :
    codeSize (opening ++ zeroVariables slots) = frontSize body := by
  have hzero : ∀ entries : List (String × UInt16), (∀ entry ∈ entries, entry ∈ slots) →
      codeSize (zeroVariables entries) = ((entries.map Prod.fst).map fun name =>
        1 + accessSize (variableSlot body name)).sum := by
    intro entries hentries
    induction entries with
    | nil => rfl
    | cons entry entries ih =>
        have hentry := toNat_slot hslots (hentries entry List.mem_cons_self)
        have hrest := ih fun e he => hentries e (List.mem_cons_of_mem _ he)
        change codeSize ([.plain .iconst0, .slot .istore entry.2] ++ zeroVariables entries) = _
        rw [codeSize_append, hrest, codeSize_cons, codeSize_cons, codeSize_nil, size_slot, hentry]
        rfl
  rw [codeSize_append, hzero slots fun _ => id, fst_of_allocateSlots hslots, frontSize]
  cases h
  rfl

variable (h : Emitted pool slots body opening blocks code)

include h

/-- The label of a statement lies at the place that was counted for it. -/
theorem codeSize_before {k : Nat} (hk : k ≤ body.size) {done todo : List Instruction}
    (hcode : code.instructions.toList = done ++ .bind k :: todo) :
    codeSize done = placeOf className body k := by
  -- each block ends where the next label is bound
  induction k generalizing done todo with
  | zero =>
      obtain ⟨back, hhead⟩ := h.head
      rw [h.split_unique hcode hhead, codeSize_front hslots h.opens]
      rfl
  | succ k ih =>
      have hget := Array.getElem?_eq_getElem (Nat.lt_of_succ_le hk)
      obtain ⟨front, block, back, first, mid, hemits, hsplit⟩ := h.block hget
      have hnext : code.instructions.toList =
          (front ++ .bind k :: block) ++ .bind (k + 1) :: back := by
        rw [hsplit, List.append_assoc, List.cons_append]
      rw [h.split_unique hcode hnext, codeSize_bind, ih (Nat.le_of_succ_le hk) hsplit,
        codeSize_of_emits hpool hslots hemits, placeOf_succ hget]

/-- Behind the last statement there is the `return`. -/
theorem codeSize_emitted :
    codeSize code.instructions.toList = placeOf className body body.size + 1 := by
  obtain ⟨front, hlast⟩ := h.last
  have hplace := codeSize_before hpool hslots h (Nat.le_refl _) hlast
  rw [hlast, codeSize_append, hplace]
  rfl

/-- The jump of a statement goes as far as was counted. -/
theorem exists_distance {k : Nat} {target : UInt64} (hjump : (k, target) ∈ body.jumpTargets)
    (hle : target.toNat ≤ body.size) :
    ∃ done op todo done' todo', code.instructions.toList = done ++ .jump op target.toNat :: todo ∧
      code.instructions.toList = done' ++ .bind target.toNat :: todo' ∧
      (codeSize done' : Int) - codeSize done = jumpDistance className body k target.toNat := by
  obtain ⟨statement, hget, htarget⟩ := Body.mem_jumpTargets.1 hjump
  obtain ⟨front, block, back, first, mid, hemits, hcode⟩ := h.block hget
  obtain ⟨inside, op, hblock⟩ := ends_of_emits hemits htarget
  obtain ⟨done', todo', hlabel⟩ := h.label hle
  have hlt : k < body.size := (Array.getElem?_eq_some_iff.1 hget).1
  have hfront := codeSize_before hpool hslots h (Nat.le_of_lt hlt) hcode
  have hsize := codeSize_of_emits hpool hslots hemits
  rw [hblock, codeSize_append] at hsize
  refine ⟨_, op, _, done', todo', split_inside hcode hblock, hlabel, ?_⟩
  rw [codeSize_before hpool hslots h hle hlabel, codeSize_bind, jumpDistance, placeOf_succ hget,
    hfront, ← hsize]
  simp only [codeSize_cons, codeSize_nil, Instruction.size]
  omega

/-- Every jump is that of a statement, or stays inside the code of a comparison. -/
theorem distance_of_jump {op : Opcode} {target : Nat} {done todo done' todo' : List Instruction}
    (hcode : code.instructions.toList = done ++ .jump op target :: todo)
    (hlabel : code.instructions.toList = done' ++ .bind target :: todo') :
    (∃ jump ∈ body.jumpTargets,
      (codeSize done' : Int) - codeSize done = jumpDistance className body jump.1 jump.2.toNat) ∨
      -8 ≤ (codeSize done' : Int) - codeSize done ∧ (codeSize done' : Int) - codeSize done ≤ 8 := by
  obtain ⟨k, statement, front, block, back, first, mid, inside, rest, hget, hemits, hsplit, hblock,
    rfl⟩ := h.block_of_jump hcode
  have hlt : k < body.size := (Array.getElem?_eq_some_iff.1 hget).1
  have hfront := codeSize_before hpool hslots h (Nat.le_of_lt hlt) hsplit
  rcases jump_of_emits hemits hblock with ⟨t, htarget, hle, rfl, rfl⟩ | ⟨before, after, hbind, hsize⟩
  · refine .inl ⟨(k, t), Body.mem_jumpTargets.2 ⟨statement, hget, htarget⟩, ?_⟩
    have hsize := codeSize_of_emits hpool hslots hemits
    rw [hblock, codeSize_append] at hsize
    rw [codeSize_before hpool hslots h hle hlabel, codeSize_bind, jumpDistance, placeOf_succ hget,
      hfront, ← hsize]
    simp only [codeSize_cons, codeSize_nil, Instruction.size]
    omega
  · -- jump and label are in one block, which is short
    have hown := h.split_unique hlabel (split_inside hsplit hbind)
    have hjump := congrArg codeSize hblock
    have hplace := congrArg codeSize hbind
    rw [codeSize_append] at hjump hplace
    rw [hown, codeSize_bind, codeSize_bind]
    exact .inr (by omega)

end Emitted

/-! ## Compiling -/

theorem typed_prepareCalls (className : String) :
    ∀ call ∈ prepareCalls className, call.isTyped = true :=
  List.all_eq_true.1 rfl

theorem typed_integerConstants (value : Int32) :
    ∀ call ∈ integerConstants value, call.isTyped = true := by
  intro call hcall
  unfold integerConstants at hcall
  split at hcall
  · cases hcall
  · cases List.mem_singleton.1 hcall
    rfl

theorem typed_constantsOf (statement : Statement) :
    ∀ call ∈ constantsOf statement, call.isTyped = true := by
  cases statement with
  | push value => exact typed_integerConstants value
  | call callee =>
      cases callee with
      | intrinsic service => cases service <;> exact List.all_eq_true.1 rfl
      | function declaration => exact List.all_eq_true.1 rfl
  | _ => exact List.all_eq_true.1 rfl

theorem typed_codeCalls (className : String) (body : Body) :
    ∀ call ∈ codeCalls className body, call.isTyped = true := by
  intro call hcall
  rcases List.mem_append.1 hcall with hcall | hcall
  · exact typed_prepareCalls className call hcall
  rcases List.mem_append.1 hcall with hcall | hcall
  · simp only [openingConstants, List.mem_cons, List.not_mem_nil, or_false] at hcall
    rcases hcall with rfl | rfl | rfl | rfl | rfl <;> rfl
  · obtain ⟨statement, -, hcall⟩ := List.mem_flatMap.1 hcall
    exact typed_constantsOf statement call hcall

theorem typed_classCalls (options : Options) (body : Body) :
    ∀ call ∈ classCalls options body, call.isTyped = true := by
  intro call hcall
  rcases List.mem_append.1 hcall with hcall | hcall
  · exact typed_codeCalls options.className body call hcall
  · unfold methodTexts tableTexts at hcall
    split at hcall
    · simp only [List.mem_append, List.mem_cons, List.not_mem_nil, or_false, List.mem_flatMap,
        entryCalls] at hcall
      rcases hcall with (rfl | rfl) | rfl | ⟨entry, -, rfl | rfl⟩ <;> rfl
    · simp only [List.append_nil, List.mem_cons, List.not_mem_nil, or_false] at hcall
      rcases hcall with rfl | rfl <;> rfl

section Compile

variable {options : Options} {body : Body} {e : CodegenError} {lowered : Lowered}

/-- The pool of a lowered class holds the integers at the indices that were counted. -/
theorem indexes_of_settled {className : String} {constructor : Method}
    (h : Settled className body lowered constructor) :
    Indexes lowered.classFile.pool.stored className body := by
  intro index value hvalue
  have hfound : (Call.integer value).FoundAt lowered.classFile.pool index :=
    ConstantPool.get?_of_integer? hvalue
  rw [h.pool_eq] at hfound
  exact ConstantPool.index_of_foundAt (typed_codeCalls className body) h.roomFor rfl hfound

/-- Within the limits there is room for the constants and the slots. -/
theorem WithinLimits.not_noRoom (h : WithinLimits options body) :
    ¬ NoRoom (classCalls options body) body e := by
  rintro (full | many)
  · exact full ((ConstantPool.roomFor_empty_iff (typed_classCalls options body)).2
      ⟨h.texts, h.constants⟩)
  · exact absurd h.slots (Nat.not_le.2 many)

/-- Within the limits the code is short enough, and so are its jumps. -/
theorem WithinLimits.not_tooLarge (h : WithinLimits options body)
    (hlowered : lowerClass options.className body = .ok lowered) : ¬ TooLarge lowered.main e := by
  obtain ⟨constructor, hsettled⟩ := settled_of_lowerClass hlowered
  obtain ⟨⟨opening, blocks, hemitted⟩, -⟩ := hsettled.emitted _ (IsPrefix.refl _)
  have hpool := indexes_of_settled hsettled
  have hslots := hsettled.slots_eq
  rintro (hlong | ⟨hlayout, hsplit, hbound, hfar⟩)
  · rw [codeSize_emitted hpool hslots hemitted] at hlong
    exact absurd h.code (Nat.not_le.2 hlong)
  · obtain ⟨done', todo', hlabel, -, rfl⟩ := Layout.binding_spec hlayout hbound
    rw [branchField?, ite_eq_right_iff] at hfar
    rcases distance_of_jump hpool hslots hemitted hsplit hlabel with ⟨jump, hjump, hdistance⟩ | hnear
    · rw [hdistance] at hfar
      cases hfar (h.jumps jump hjump)
    · cases hfar ⟨by dsimp only; omega, by dsimp only; omega⟩

/-- A routine that is compiled stays within the limits. -/
theorem withinLimits_of_compileClass (hprovided : Provided body) {c : ClassFile}
    (h : compileClass options body = .ok c) : WithinLimits options body := by
  obtain ⟨lowered, m, constructor, main, hlowered, hm, hsettled, hadded⟩ :=
    finished_of_compileClass h
  -- the code was assembled as it was emitted, and the method found room behind it
  obtain ⟨⟨opening, blocks, hemitted⟩, -⟩ := hsettled.emitted _ (IsPrefix.refl _)
  have hpool := indexes_of_settled hsettled
  have hslots := hsettled.slots_eq
  have hfit := hemitted.fitting hsettled.laid
  obtain ⟨layout, flow, hassembly⟩ := assembly_of_assemble hfit hm
  have hroom : ConstantPool.empty.RoomFor (classCalls options body) := by
    have hmethod := hadded.roomFor
    dsimp only at hmethod
    rw [hsettled.tableName_eq, methodCalls_main hslots, hsettled.pool_eq] at hmethod
    exact ConstantPool.roomFor_append.2 ⟨hsettled.roomFor, hmethod⟩
  obtain ⟨htexts, hconstants⟩ :=
    (ConstantPool.roomFor_empty_iff (typed_classCalls options body)).1 hroom
  refine ⟨(allocateSlots_eq_ok_iff.1 hslots).1, htexts, hconstants, ?_, ?_⟩
  · rw [← codeSize_emitted hpool hslots hemitted]
    exact Layout.codeSize_le hassembly.layout_eq
  · rintro ⟨k, target⟩ hjump
    -- the encoded jump has the distance that was counted
    obtain ⟨done, op, todo, done', todo', hsplit, hlabel, hdistance⟩ :=
      exists_distance hpool hslots hemitted hjump (hprovided.targets _ hjump)
    have hencodes := hassembly.encodes
    rw [hsplit] at hencodes
    obtain ⟨b, field, hb, hfield⟩ := hencodes.branchField?
    have hbound : target.toNat < lowered.main.labelCount := by
      rw [← Layout.size_bindings hassembly.layout_eq]
      exact (Array.getElem?_eq_some_iff.1 hb).1
    rw [Layout.binding_of_nodup hassembly.layout_eq hemitted.nodup_boundLabels hbound hlabel] at hb
    cases hb
    rw [Nat.zero_add, hdistance] at hfield
    unfold branchField? at hfield
    split at hfield
    next hfits => exact hfits
    next => cases hfield

/-- Routines are compiled if and only if they keep to the stack discipline. The routine may hold any
statements that the target provides, with jumps inside it or to its end, and has to stay within the
limits of class files, as all routines do that are compiled. Within the limits a routine is refused
for nothing but its stack heights. -/
theorem exists_compile_iff (hprovided : Provided body) :
    (WithinLimits options body →
      ((∃ bytes, compile options body = .ok bytes) ↔ body.Disciplined) ∧
        ∀ e, compile options body = .error e → HeightError e) ∧
      ((∃ bytes, compile options body = .ok bytes) → WithinLimits options body) := by
  have hrefused : WithinLimits options body → ∀ e, compile options body = .error e →
      ∃ lowered layout, lowerClass options.className body = .ok lowered ∧
        Layout.of lowered.main = .ok layout ∧
        analyse lowered.main.instructions layout = .error e := by
    intro hlimits e he
    rcases refused_of_compile hprovided he with hnone | ⟨lowered, hlowered, hlarge | hflow⟩
    · exact absurd hnone hlimits.not_noRoom
    · exact absurd hlarge (hlimits.not_tooLarge hlowered)
    · obtain ⟨layout, hlayout, hanalyse⟩ := hflow
      exact ⟨lowered, layout, hlowered, hlayout, hanalyse⟩
  refine ⟨fun hlimits => ⟨⟨?_, fun hdisciplined => ?_⟩, fun e he => ?_⟩, ?_⟩
  · rintro ⟨bytes, h⟩
    obtain ⟨c, hclass, -⟩ := map_eq_ok.1 h
    obtain ⟨lowered, m, -, -, hlowered, hm, -⟩ := finished_of_compileClass hclass
    obtain ⟨layout, -, flow, hlayout, -, hflow, -⟩ := assemble_eq_ok hm
    exact (exists_analyse_iff_disciplined hlowered hlayout).1 ⟨flow, hflow⟩
  · cases h : compile options body with
    | ok bytes => exact ⟨bytes, rfl⟩
    | error e =>
        obtain ⟨lowered, layout, hlowered, hlayout, hflow⟩ := hrefused hlimits e h
        obtain ⟨flow, hok⟩ := (exists_analyse_iff_disciplined hlowered hlayout).2 hdisciplined
        rw [hok] at hflow
        cases hflow
  · obtain ⟨_, _, -, -, hflow⟩ := hrefused hlimits e he
    exact analyse_eq_error hflow
  · rintro ⟨bytes, h⟩
    obtain ⟨c, hclass, -⟩ := map_eq_ok.1 h
    exact withinLimits_of_compileClass hprovided hclass

end Compile

/-- A routine whose loop pushes one word more on each round. -/
def growingRoutine : Body := #[.push 1, .jump 0]

/-- Both routines stay within the limits. The one that counts down is compiled, so it keeps to the
discipline; the growing one is refused at the label of its loop, so it does not. -/
theorem countdown_compiled_growing_mismatched :
    WithinLimits ⟨"Program", false⟩ countdownRoutine ∧
      (∃ bytes, compile ⟨"Program", false⟩ countdownRoutine = .ok bytes) ∧
      countdownRoutine.Disciplined ∧
      WithinLimits ⟨"Program", false⟩ growingRoutine ∧
      compile ⟨"Program", false⟩ growingRoutine = .error (.stackMismatch 18 0 1) ∧
      ¬ growingRoutine.Disciplined := by
  have hcountdown : Provided countdownRoutine := ⟨by decide, by decide⟩
  have hgrowing : Provided growingRoutine := ⟨by decide, by decide⟩
  have hwithin : WithinLimits ⟨"Program", false⟩ countdownRoutine := by decide +kernel
  have hwithin' : WithinLimits ⟨"Program", false⟩ growingRoutine := by decide +kernel
  have hcompiled := exists_ok_of_toBool
    (by decide +kernel : (compile ⟨"Program", false⟩ countdownRoutine).toBool = true)
  have hrefused : compile ⟨"Program", false⟩ growingRoutine = .error (.stackMismatch 18 0 1) := by
    decide +kernel
  refine ⟨hwithin, hcompiled, (((exists_compile_iff hcountdown).1 hwithin).1).1 hcompiled, hwithin',
    hrefused, fun hdisciplined => ?_⟩
  obtain ⟨bytes, hbytes⟩ := (((exists_compile_iff hgrowing).1 hwithin').1).2 hdisciplined
  rw [hbytes] at hrefused
  cases hrefused

end StackCodegen.Managed
