import StackCodegen.Proofs.ClassFile.Slices
import StackCodegen.Proofs.Managed.FirstOffence

/-!
# Places of statements

The code of a main method is the set-up of the reader, the zeroing of the variables, the blocks of
the statements in their order, and a `return`. Label `i` is bound in front of block `i`, and the
label of the body's length in front of the `return` (`split_of_lowerMain`). No label is bound twice,
so the offset that assembling gives to a label is the size of what stands in front of its binding
(`place_eq`); every jump is encoded against these offsets.

Main statement: every statement has its place in the code, its block lies there, and the jumps lead
to the places of their targets (`statements_have_places`).
-/

set_option autoImplicit false

namespace StackCodegen.Managed

open ClassFile
open ClassFile.ConstantPool (Asks Interning IsPrefix run_bind_eq_ok)

/-! ## Lowering in parts -/

section Lowering

variable {slots : List (String × UInt16)} {body : Body} {pool pool' : ConstantPool}
  {code : SymbolicCode}

/-- Statements are lowered in two parts, one after the other. -/
theorem lowerFrom_append (slots : Std.TreeMap String UInt16) (length index : Nat)
    (front back : List Statement) (next : Label) :
    (lowerFrom slots length index (front ++ back)).run next = do
      let first ← (lowerFrom slots length index front).run next
      let rest ← (lowerFrom slots length (index + front.length) back).run first.2
      return (first.1 ++ rest.1, rest.2) := by
  simp only [lowerFrom, List.zipIdx_append, List.mapM_append, StateT.run_bind, StateT.run_pure]

/-- A statement is lowered after those in front of it, and before those behind it. -/
theorem lowerFrom_eq_ok {slots : Std.TreeMap String UInt16} {length index : Nat}
    {front back : List Statement} {statement : Statement} {next last : Label}
    {blocks : List (List Instruction)}
    (h : ((lowerFrom slots length index (front ++ statement :: back)).run next).run pool =
      (.ok (blocks, last), pool')) :
    ∃ done first before block mid after rest,
      ((lowerFrom slots length index front).run next).run pool = (.ok (done, first), before) ∧
      ((lowerStatement slots length (index + front.length) statement).run first).run before =
        (.ok (block, mid), after) ∧
      ((lowerFrom slots length (index + front.length + 1) back).run mid).run after =
        (.ok (rest, last), pool') ∧
      blocks = done ++ (.bind (index + front.length) :: block) :: rest := by
  rw [lowerFrom_append] at h
  obtain ⟨⟨done, first⟩, before, hfront, h⟩ := run_bind_eq_ok h
  rw [lowerFrom_cons, bind_assoc] at h
  obtain ⟨⟨block, mid⟩, after, hblock, h⟩ := run_bind_eq_ok h
  rw [bind_assoc] at h
  obtain ⟨⟨rest, last'⟩, final, hback, h⟩ := run_bind_eq_ok h
  cases h
  exact ⟨done, first, before, block, mid, after, rest, hfront, hblock, hback, rfl⟩

/-- The block of statement `k`: what lowering makes of the statement after the reader is opened and
the statements in front are lowered. -/
inductive BlockAt (slots : List (String × UInt16)) (body : Body) (pool : ConstantPool) (k : Nat)
    (statement : Statement) (block : List Instruction) : Prop where
  | intro {front : List (List Instruction)} {next mid : Label} {before after : ConstantPool}
      (hfront : (lowerFront slots body k).run pool = (.ok (front, next), before))
      (hblock : ((lowerStatement (.ofList slots) body.size k statement).run next).run before =
        (.ok (block, mid), after)) :
      BlockAt slots body pool k statement block

/-- A lowered main method is emitted, its opening and its blocks lowered one after the other. -/
theorem emitted_of_lowerMain (hslots : Laid slots)
    (h : (lowerMain slots body).run pool = (.ok code, pool')) :
    ∃ opening opened blocks, openReader.run pool = (.ok opening, opened) ∧
      ((lowerFrom (.ofList slots) body.size 0 body.toList).run (body.size + 1)).run opened =
        (.ok (blocks, code.labelCount), pool') ∧
      Emitted pool'.stored slots body opening blocks code := by
  unfold lowerMain at h
  obtain ⟨opening, opened, hopening, h⟩ := run_bind_eq_ok h
  obtain ⟨⟨blocks, last⟩, mid, hblocks, h⟩ := run_bind_eq_ok h
  cases h
  -- the constants of the opening are kept while the blocks are lowered
  have hasks : Asks _ (fun _ => False) _ _ := asks_openReader
  obtain ⟨-, -, hopens⟩ := hasks.succeeds _ _ _ hopening
  have hfrom := asks_lowerFrom hslots body.size body.toList 0 (body.size + 1)
  obtain ⟨-, -, hemits⟩ := hfrom.succeeds _ _ _ hblocks
  exact ⟨opening, opened, blocks, hopening, hblocks, (hopens _ (hfrom.isPrefix hblocks)).1,
    (hemits _ (IsPrefix.refl _)).1, by simp⟩

/-- The lowered block of a statement lies between its label and the next one. -/
theorem split_of_lowerMain (hslots : Laid slots)
    (h : (lowerMain slots body).run pool = (.ok code, pool')) {k : Nat} {statement : Statement}
    (hk : body[k]? = some statement) :
    ∃ front block back first mid, BlockAt slots body pool k statement block ∧
      Emits pool'.stored slots body.size statement first block mid ∧
      code.instructions.toList = front ++ .bind k :: (block ++ .bind (k + 1) :: back) := by
  obtain ⟨opening, opened, blocks, hopening, hblocks, hemitted⟩ := emitted_of_lowerMain hslots h
  rw [← Array.getElem?_toList] at hk
  obtain ⟨hlt, rfl⟩ := List.getElem?_eq_some_iff.1 hk
  have hlength : (body.toList.take k).length = k := by
    rw [List.length_take, Nat.min_eq_left (Nat.le_of_lt hlt)]
  -- the statements in front, the statement, and those behind are lowered in turn
  rw [← List.take_append_drop k body.toList, List.drop_eq_getElem_cons hlt] at hblocks
  obtain ⟨done, first, before, block, mid, after, rest, hfront, hblock, hback, rfl⟩ :=
    lowerFrom_eq_ok hblocks
  rw [hlength, Nat.zero_add] at hblock hback hemitted
  have hbefore : (lowerFront slots body k).run pool = (.ok (done, first), before) := by
    rw [lowerFront, ConstantPool.run_bind, hopening]
    exact hfront
  -- what is lowered behind the block starts with the binding of the next label
  obtain ⟨-, -, hemits⟩ := (asks_lowerStatement hslots _ _ _ _).succeeds _ _ _ hblock
  have hrest := asks_lowerFrom hslots body.size (body.toList.drop (k + 1)) (k + 1) mid
  obtain ⟨-, -, hemitsAll⟩ := hrest.succeeds _ _ _ hback
  obtain ⟨back, hhead⟩ := head_of_emitsAll (hemitsAll _ (IsPrefix.refl _)).1 [.plain .returnVoid]
  have hend : k + 1 + (body.toList.drop (k + 1)).length = body.size := by
    rw [List.length_drop, Array.length_toList]
    exact Nat.add_sub_of_le (Array.length_toList ▸ hlt)
  rw [hend] at hhead
  refine ⟨opening ++ zeroVariables slots ++ done.flatten, block, back, first, mid,
    .intro hbefore hblock, (hemits _ (hrest.isPrefix hback)).1, ?_⟩
  rw [hemitted.code_eq]
  simp [← hhead]

end Lowering

/-! ## Places -/

/-- The block of a statement is not empty. -/
theorem codeSize_pos_of_emits {pool : StoredPool} {slots : List (String × UInt16)}
    {length first mid : Nat} {statement : Statement} {block : List Instruction}
    (h : Emits pool slots length statement first block mid) : 0 < codeSize block := by
  -- the first instruction of a block is no binding
  obtain ⟨insn, rest, rfl, hinsn⟩ :
      ∃ insn rest, block = insn :: rest ∧ insn.isBind = false := by
    cases h with
    | push h => exact ⟨_, [], rfl, by cases h <;> rfl⟩
    | _ => exact ⟨_, _, rfl, rfl⟩
  rw [codeSize_cons]
  exact Nat.lt_of_lt_of_le (Instruction.size_pos hinsn) (Nat.le_add_right _ _)

/-- Where the branches of statement `k` lead to. A jump leads to the place of its target; a
comparison branches to its own last instruction, and leaves for the next statement. -/
def Branches (m : MethodCode) (length k : Nat) : Statement → Prop
  | .jump target =>
    target.toNat ≤ length ∧ m.BranchesAt (m.place k) .goto (m.place target.toNat)
  | .jumpIfZero target =>
    target.toNat ≤ length ∧ m.BranchesAt (m.place k + 1) .ifIcmpeq (m.place target.toNat)
  | .binary op => ∀ branch, otherwiseBranch? op = some branch →
    m.BranchesAt (m.place k) branch (m.place k + 7) ∧
      m.BranchesAt (m.place k + 4) .goto (m.place (k + 1)) ∧ m.place (k + 1) = m.place k + 8
  | _ => True

/-- What stands in a block stands in the code. -/
theorem split_inside {code : SymbolicCode} {k : Nat} {front block back : List Instruction}
    (hcode : code.instructions.toList = front ++ .bind k :: (block ++ .bind (k + 1) :: back))
    {insn : Instruction} {done todo : List Instruction} (hblock : block = done ++ insn :: todo) :
    code.instructions.toList =
      (front ++ .bind k :: done) ++ insn :: (todo ++ .bind (k + 1) :: back) := by
  rw [hcode, hblock]
  simp

section Places

variable {pool : StoredPool} {slots : List (String × UInt16)} {body : Body}
  {opening : List Instruction} {blocks : List (List Instruction)} {code : SymbolicCode}
  {m : MethodCode} (hslots : Laid slots) (h : Emitted pool slots body opening blocks code)
  (hassemble : code.assemble = .ok m)

include hslots h

theorem Emitted.fitting : ∀ insn ∈ code.instructions.toList, insn.Fitting :=
  fun insn hinsn => (regular_of_emitted hslots h insn hinsn).fitting

include hassemble

/-- A label of emitted code has an offset, the size of what stands in front of its binding. -/
theorem labelOffset_eq {label : Label} {done todo : List Instruction}
    (hcode : code.instructions.toList = done ++ .bind label :: todo) :
    m.labelOffsets[label]? = some (codeSize done) := by
  have hbound : label ∈ boundLabels code.instructions.toList := by
    rw [hcode, boundLabels_append, boundLabels_bind]
    exact List.mem_append_right _ List.mem_cons_self
  obtain ⟨layout, flow, hassembly⟩ := assembly_of_assemble (h.fitting hslots) hassemble
  exact hassembly.labelOffset h.nodup_boundLabels (h.mem_boundLabels_iff.1 hbound) hcode

/-- The place of a label is the size of what stands in front of it. -/
theorem place_eq {label : Label} {done todo : List Instruction}
    (hcode : code.instructions.toList = done ++ .bind label :: todo) :
    m.place label = codeSize done := by
  rw [MethodCode.place, List.getD_eq_getElem?_getD, labelOffset_eq hslots h hassemble hcode,
    Option.getD_some]

theorem size_lt_labelOffsets : body.size < m.labelOffsets.length := by
  obtain ⟨front, hcode⟩ := h.last
  exact (List.getElem?_eq_some_iff.1 (labelOffset_eq hslots h hassemble hcode)).1

/-- In front of the first statement there are the set-up of the reader and the zeroing of the
variables, encoded one instruction after the other. -/
theorem take_place_zero :
    m.code.take (m.place 0) = (opening ++ zeroVariables slots).flatMap Instruction.encode ∧
      m.place 0 = ((opening ++ zeroVariables slots).flatMap Instruction.encode).length := by
  obtain ⟨back, hcode⟩ := h.head
  have hfit := h.fitting hslots
  have hbytes := code_eq_bytesFrom hfit hassemble
  rw [hcode] at hfit hbytes
  -- there are no jumps, so the bytes do not depend on where they lie
  have hstraight : ∀ insn ∈ opening ++ zeroVariables slots, insn.straight = true := by
    intro insn hinsn
    rcases List.mem_append.1 hinsn with hinsn | hinsn
    · exact straight_of_opens h.opens insn hinsn
    · exact straight_zeroVariables slots insn hinsn
  have hfront : ∀ insn ∈ opening ++ zeroVariables slots, insn.Fitting :=
    fun i hi => hfit i (List.mem_append_left _ hi)
  rw [place_eq hslots h hassemble hcode, ← bytesFrom_of_straight hstraight, hbytes]
  exact ⟨take_bytesFrom hfront, (length_bytesFrom hfront).symm⟩

/-- Behind the last statement there is the byte of the `return`. -/
theorem drop_place_size :
    m.code.drop (m.place body.size) = [Opcode.returnVoid.byte] ∧
      m.code.length = m.place body.size + 1 := by
  obtain ⟨front, hcode⟩ := h.last
  have hfit := h.fitting hslots
  have hbytes := code_eq_bytesFrom hfit hassemble
  rw [place_eq hslots h hassemble hcode]
  rw [hcode] at hfit hbytes
  rw [hbytes, drop_bytesFrom fun i hi => hfit i (List.mem_append_left _ hi), length_bytesFrom hfit,
    codeSize_append]
  exact ⟨rfl, rfl⟩

section Block

variable {k : Nat} {front block back : List Instruction}
  (hcode : code.instructions.toList = front ++ .bind k :: (block ++ .bind (k + 1) :: back))

include hcode

theorem place_succ_eq : m.place (k + 1) = m.place k + codeSize block := by
  have hnext : code.instructions.toList =
      (front ++ .bind k :: block) ++ .bind (k + 1) :: back := by
    rw [hcode, List.append_assoc, List.cons_append]
  rw [place_eq hslots h hassemble hcode, place_eq hslots h hassemble hnext, codeSize_bind]

/-- A label inside a block lies behind what stands in front of it there. -/
theorem place_inside {label : Label} (done : List Instruction) {todo : List Instruction}
    (hblock : block = done ++ .bind label :: todo) :
    m.place label = m.place k + codeSize done := by
  rw [place_eq hslots h hassemble hcode,
    place_eq hslots h hassemble (split_inside hcode hblock), codeSize_bind]

/-- A jump inside a block leads to the place of its label. -/
theorem branchesAt_inside {op : Opcode} {target : Label} (done : List Instruction)
    {todo : List Instruction} (hblock : block = done ++ .jump op target :: todo) :
    m.BranchesAt (m.place k + codeSize done) op (m.place target) := by
  have hinside := split_inside hcode hblock
  have hreg : (Instruction.jump op target).Regular :=
    regular_of_emitted hslots h _ (by rw [hinside]; simp)
  have hbranches := branchesAt_of_assemble (h.fitting hslots) hassemble hreg hinside
  rw [codeSize_bind] at hbranches
  rw [place_eq hslots h hassemble hcode]
  exact hbranches

/-- The branches of a statement lead where they should. -/
theorem branches_of_emits {statement : Statement} {first mid : Nat}
    (hemits : Emits pool slots body.size statement first block mid) :
    Branches m body.size k statement := by
  cases hemits with
  | jump htarget =>
      exact ⟨htarget, branchesAt_inside hslots h hassemble hcode [] rfl⟩
  | jumpIfZero htarget =>
      exact ⟨htarget, branchesAt_inside hslots h hassemble hcode [.plain .iconst0] rfl⟩
  | @arithmetic _ op _ hopcode =>
      -- an operator is arithmetic or a comparison
      intro branch hbranch
      cases op <;> first | cases hopcode; done | cases hbranch
  | @comparison _ op branch hbranch =>
      intro branch' hbranch'
      cases hbranch.symm.trans hbranch'
      -- `first` is bound in front of the pushed 0, and `first + 1` at the end of the block
      have hfails := branchesAt_inside hslots h hassemble hcode [] rfl
      have hleaves := branchesAt_inside hslots h hassemble hcode
        [.jump branch first, .plain .iconst1] rfl
      have hotherwise := place_inside hslots h hassemble hcode
        [.jump branch first, .plain .iconst1, .jump .goto (first + 1)] rfl
      have hafter := place_inside hslots h hassemble hcode
        [.jump branch first, .plain .iconst1, .jump .goto (first + 1), .bind first,
          .plain .iconst0] rfl
      have hnext : m.place (k + 1) = m.place k + 8 := place_succ_eq hslots h hassemble hcode
      rw [hotherwise] at hfails
      rw [hafter] at hleaves
      rw [hnext]
      exact ⟨hfails, hleaves, rfl⟩
  | _ => trivial

/-- The bytes of a block lie between its label and the next one. -/
theorem slice_eq : (m.code.drop (m.place k)).take (m.place (k + 1) - m.place k) =
    bytesFrom m.labelOffsets (m.place k) block := by
  have hfit := h.fitting hslots
  have hbytes := code_eq_bytesFrom hfit hassemble
  -- the binding takes no bytes, so the block starts at the label's place
  have hsplit : code.instructions.toList =
      (front ++ [.bind k]) ++ (block ++ .bind (k + 1) :: back) := by
    rw [hcode, List.append_assoc]
    rfl
  have hplace : m.place k = codeSize (front ++ [.bind k]) := by
    rw [place_eq hslots h hassemble hcode, codeSize_append]
    rfl
  rw [hsplit] at hfit hbytes
  rw [place_succ_eq hslots h hassemble hcode, Nat.add_sub_cancel_left, hplace, hbytes,
    slice_bytesFrom hfit, Nat.zero_add]

end Block

theorem place_lt_succ {k : Nat} (hk : k < body.size) : m.place k < m.place (k + 1) := by
  obtain ⟨_, _, _, _, _, hemits, hcode⟩ := h.block (Array.getElem?_eq_getElem hk)
  rw [place_succ_eq hslots h hassemble hcode]
  exact Nat.lt_add_of_pos_right (codeSize_pos_of_emits hemits)

/-- Places increase, up to that of the end. -/
theorem place_lt_place {i j : Nat} (hlt : i < j) (hj : j ≤ body.size) : m.place i < m.place j := by
  induction hlt with
  | refl => exact place_lt_succ hslots h hassemble hj
  | step _ ih => exact (ih (Nat.le_of_lt hj)).trans (place_lt_succ hslots h hassemble hj)

end Places

/-! ## The whole method -/

/-- The places of the statements of a body in the code of its main method, which was lowered on a
pool of constants. -/
structure HasPlaces (slots : List (String × UInt16)) (body : Body) (pool : ConstantPool)
    (m : MethodCode) : Prop where
  labelled : body.size < m.labelOffsets.length
  opening : ∃ reader opened, openReader.run pool = (.ok reader, opened) ∧
    m.code.take (m.place 0) = (reader ++ zeroVariables slots).flatMap Instruction.encode ∧
    m.place 0 = ((reader ++ zeroVariables slots).flatMap Instruction.encode).length
  increasing : ∀ i j, i < j → j ≤ body.size → m.place i < m.place j
  blocks : ∀ k statement, body[k]? = some statement →
    ∃ block, BlockAt slots body pool k statement block ∧
      (m.code.drop (m.place k)).take (m.place (k + 1) - m.place k) =
        bytesFrom m.labelOffsets (m.place k) block
  branches : ∀ k statement, body[k]? = some statement → Branches m body.size k statement
  ending : m.code.drop (m.place body.size) = [Opcode.returnVoid.byte] ∧
    m.code.length = m.place body.size + 1

/-- Every statement of a routine has its place in the code of the main method. If a body whose
variables have slots is lowered, and assembled, then label `i` has an offset for every statement `i`
and for the end. These places increase. The first one lies behind the set-up of the reader and the
zeroing of the variables; from the place of a statement to the next place there are the bytes of the
statement's own block; and the last one is that of the final `return`, which ends the code. A jump
leads to the place of its target, be it the end, and a comparison branches to its own last
instruction or to the next statement. -/
theorem statements_have_places {body : Body} {slots : List (String × UInt16)}
    (hslots : allocateSlots body = .ok slots) {pool pool' : ConstantPool} {code : SymbolicCode}
    (hlower : (lowerMain slots body).run pool = (.ok code, pool')) {m : MethodCode}
    (hassemble : code.assemble = .ok m) : HasPlaces slots body pool m := by
  have hlaid := laid_of_allocateSlots hslots
  obtain ⟨opening, opened, blocks, hopening, -, h⟩ := emitted_of_lowerMain hlaid hlower
  obtain ⟨htake, hlength⟩ := take_place_zero hlaid h hassemble
  refine
    { labelled := size_lt_labelOffsets hlaid h hassemble
      opening := ⟨opening, opened, hopening, htake, hlength⟩
      increasing := fun i j => place_lt_place hlaid h hassemble
      blocks := fun k statement hk => ?_
      branches := fun k statement hk => ?_
      ending := drop_place_size hlaid h hassemble }
  · obtain ⟨_, block, _, _, _, hblock, -, hcode⟩ := split_of_lowerMain hlaid hlower hk
    exact ⟨block, hblock, slice_eq hlaid h hassemble hcode⟩
  · obtain ⟨_, _, _, _, _, -, hemits, hcode⟩ := split_of_lowerMain hlaid hlower hk
    exact branches_of_emits hlaid h hassemble hcode hemits

/-- A routine that compares what it reads with a wide constant, and writes it if it is less. -/
def comparesWide : Body :=
  #[.call (.intrinsic .read), .store "n", .load "n", .push 70000, .binary .lt, .jumpIfZero 8,
    .load "n", .call (.intrinsic .write)]

/-- The conditional jump of the routine leads to the `return` at offset 51. -/
theorem comparesWide_has_places :
    ∃ code pool m, allocateSlots comparesWide = .ok [("n", 2)] ∧
      (lowerMain [("n", 2)] comparesWide).run .empty = (.ok code, pool) ∧
      code.assemble = .ok m ∧ HasPlaces [("n", 2)] comparesWide .empty m ∧
      (List.range 9).map m.place = [20, 27, 28, 29, 31, 39, 43, 44, 51] ∧
      m.BranchesAt 40 .ifIcmpeq 51 := by
  have hslots : allocateSlots comparesWide = .ok [("n", 2)] := by decide +kernel
  have hplaces : (((lowerMain [("n", 2)] comparesWide).run .empty).1 >>= fun code =>
      (fun m => (List.range 9).map m.place) <$> code.assemble) =
        .ok [20, 27, 28, 29, 31, 39, 43, 44, 51] := by decide +kernel
  cases hlower : (lowerMain [("n", 2)] comparesWide).run .empty with
  | mk result pool =>
      rw [hlower] at hplaces
      obtain ⟨code, rfl, hplaces⟩ := bind_eq_ok.1 hplaces
      obtain ⟨m, hassemble, hplace⟩ := map_eq_ok.1 hplaces
      -- the offsets are computed; where the jump leads is the theorem's
      have hall := statements_have_places hslots hlower hassemble
      have hjump : m.place 5 = 39 := congrArg (fun places => places.getD 5 0) hplace
      have hend : m.place 8 = 51 := congrArg (fun places => places.getD 8 0) hplace
      have hbranch : m.BranchesAt (m.place 5 + 1) .ifIcmpeq (m.place 8) := (hall.branches 5 _ rfl).2
      rw [hjump, hend] at hbranch
      exact ⟨code, pool, m, hslots, rfl, hassemble, hall, hplace, hbranch⟩

end StackCodegen.Managed
