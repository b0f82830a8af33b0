import StackCodegen.Proofs.Managed.Refusals
import StackCodegen.Proofs.Program.StackDiscipline

/-!
# Stack checks decide the stack discipline

The stack checks run on the code that a body is lowered to, where a write pushes a reference and
swaps, a conditional jump pushes a 0, and a comparison is a diamond of its own. All the same they
ask of the heights at the statements' labels what the stack discipline asks of the heights at the
statements: where a block is accepted, the statement finds its operands and hands the height behind
it to its successors (`agree_of_admits`), and where that is so the block is accepted
(`admits_of_agree`).

Main statement: the stack checks of a lowered routine succeed if and only if the routine keeps to the
stack discipline (`exists_analyse_iff_disciplined`).
-/

set_option autoImplicit false

namespace StackCodegen.Managed

open ClassFile
open ClassFile.ConstantPool (IsPrefix)

/-! ## Heights in blocks -/

/-- How the block of a statement looks to the stack checks: a row without labels that takes off and
puts on what the statement does, the diamond of a comparison, or a jump. -/
inductive Shape (next : Label) : Statement → List Instruction → Prop where
  | inner {statement block} (hinner : ∀ insn ∈ block, insn.isInner = true)
      (heffect : netEffect block = (statement.pops, statement.pushes))
      (hnext : ∀ index, statement.successors index = [index + 1]) : Shape next statement block
  | comparison {op branch} (h : otherwiseBranch? op = some branch) :
      Shape next (.binary op) (Managed.comparison branch next (next + 1))
  | jump {target} : Shape next (.jump target) [.jump .goto target.toNat]
  | jumpIfZero {target} :
      Shape next (.jumpIfZero target) [.plain .iconst0, .jump .ifIcmpeq target.toNat]

section Blocks

variable {pool : StoredPool} {slots : List (String × UInt16)} {length next mid index : Nat}
  {statement : Statement} {block : List Instruction} {heights : LabelHeights}

/-- The push of a constant adds one word. -/
theorem netEffect_of_pushes {value : Int32} {insn : Instruction} (h : Pushes pool value insn) :
    insn.isInner = true ∧ netEffect [insn] = (0, 1) := by
  cases h with
  | iconst h =>
      unfold Opcode.iconst? at h
      repeat' split at h
      all_goals first
        | cases h; done
        | cases h
          exact ⟨rfl, rfl⟩
  | _ => exact ⟨rfl, rfl⟩

theorem shape_of_emits (hemits : Emits pool slots length statement next block mid) :
    Shape next statement block := by
  cases hemits with
  | push h =>
      obtain ⟨hinner, heffect⟩ := netEffect_of_pushes h
      exact .inner (by simpa using hinner) heffect fun _ => rfl
  | @arithmetic _ op opcode h =>
      refine .inner ?_ ?_ fun _ => rfl <;> cases op <;> cases h <;> first | rfl | decide
  | comparison h => exact .comparison h
  | jump h => exact .jump
  | jumpIfZero h => exact .jumpIfZero
  | _ =>
      refine .inner ?_ rfl fun _ => rfl
      simp [Instruction.isInner, Instruction.straight, Instruction.isBind]

/-- A branch on the comparison of two words. -/
theorem stackEffect_of_otherwiseBranch? {op : BinaryOp} {branch : Opcode}
    (h : otherwiseBranch? op = some branch) : branch.stackEffect = (2, 0) ∧ branch ≠ .goto := by
  cases op <;> cases h <;> exact ⟨rfl, by decide⟩

section Comparisons

variable {op : BinaryOp} {branch : Opcode} {otherwise after : Label} {height : Nat}

/-- A comparison takes off two words; its labels lie before and behind its result. -/
theorem admits_comparison (hbranch : otherwiseBranch? op = some branch) :
    Admits heights (some height) (comparison branch otherwise after) ↔
      2 ≤ height ∧ heights otherwise = some (height - 2) ∧ heights after = some (height - 1) := by
  obtain ⟨heffect, hgoto⟩ := stackEffect_of_otherwiseBranch? hbranch
  have hone : ∀ n, (Instruction.plain .iconst1).heightAfter n = n + 1 := fun n => rfl
  have hzero : ∀ n, (Instruction.plain .iconst0).heightAfter n = n + 1 := fun n => rfl
  have hbefore : (Instruction.jump branch otherwise).heightAfter height = height - 2 := by
    rw [Instruction.heightAfter, Instruction.stackEffect, heffect, Nat.add_zero]
  have hsame : ∀ n, (Instruction.jump .goto after).heightAfter n = n := fun n => rfl
  rw [comparison, admits_cons, accepts_jump, carry_branch hgoto, Option.map_some, hbefore, heffect,
    admits_cons, accepts_inner rfl, carry_inner rfl, Option.map_some, hone, admits_cons,
    accepts_jump, carry_goto, hsame, admits_cons, accepts_bind, carry_bind]
  constructor
  · rintro ⟨⟨hpops, hotherwise⟩, -, ⟨-, hafter⟩, -⟩
    exact ⟨hpops, hotherwise, by rw [hafter]; congr 1; omega⟩
  · rintro ⟨hpops, hotherwise, hafter⟩
    refine ⟨⟨hpops, hotherwise⟩, Nat.zero_le _, ⟨Nat.zero_le _, ?_⟩, ?_, ?_⟩
    · rw [hafter]
      congr 1
      omega
    · intro n hn
      cases hn
    · rw [hotherwise, admits_cons, accepts_inner rfl, carry_inner rfl, Option.map_some, hzero,
        admits_cons, accepts_bind, hafter]
      refine ⟨Nat.zero_le _, ?_, trivial⟩
      intro n hn
      cases hn
      congr 1
      omega

/-- A comparison that is not reached. -/
theorem admits_none_comparison (hotherwise : heights otherwise = none) :
    Admits heights none (comparison branch otherwise after) := by
  rw [comparison, admits_cons, carry_none rfl, admits_cons, carry_none rfl, admits_cons, carry_goto,
    admits_cons, accepts_bind, carry_bind, hotherwise, admits_cons, carry_none rfl, admits_cons,
    accepts_bind]
  refine ⟨accepts_none rfl, accepts_none rfl, accepts_none rfl, ?_, accepts_none rfl, ?_, trivial⟩
  · intro n hn
    cases hn
  · intro n hn
    cases hn

theorem carriedBehind_comparison (carried : Option Nat) :
    carriedBehind heights carried (comparison branch otherwise after) = heights after := by
  rw [comparison, carriedBehind_cons, carriedBehind_cons, carriedBehind_cons, carriedBehind_cons,
    carriedBehind_cons, carriedBehind_cons, carry_bind]
  rfl

end Comparisons

/-- A conditional jump takes off one word, whether it is taken or not. -/
theorem admits_jumpIfZero {target : Label} {height : Nat} :
    Admits heights (some height) [.plain .iconst0, .jump .ifIcmpeq target] ↔
      1 ≤ height ∧ heights target = some (height - 1) := by
  have hzero : ∀ n, (Instruction.plain .iconst0).heightAfter n = n + 1 := fun n => rfl
  have hbranch : ∀ n, (Instruction.jump .ifIcmpeq target).heightAfter n = n - 2 := fun n => rfl
  rw [admits_cons, accepts_inner rfl, carry_inner rfl, Option.map_some, hzero, admits_cons,
    accepts_jump, hbranch]
  constructor
  · rintro ⟨-, ⟨hpops, htarget⟩, -⟩
    exact ⟨Nat.le_of_succ_le_succ hpops, htarget⟩
  · rintro ⟨hpops, htarget⟩
    exact ⟨Nat.zero_le _, ⟨Nat.succ_le_succ hpops, htarget⟩, trivial⟩

theorem carriedBehind_jumpIfZero {target : Label} {height : Nat} :
    carriedBehind heights (some height) [.plain .iconst0, .jump .ifIcmpeq target] =
      some (height - 1) := by
  rw [carriedBehind_cons, carry_inner rfl, carriedBehind_cons, carry_branch (by decide)]
  rfl

/-- Where a block is reached and accepted, the statement finds its operands, and its successors
have the height behind it. -/
theorem agree_of_admits {height : Nat} (hshape : Shape next statement block)
    (h : Admits heights (some height) block)
    (hnext : ∀ after, carriedBehind heights (some height) block = some after →
      heights (index + 1) = some after) :
    statement.pops ≤ height ∧ ∀ successor ∈ statement.successors index,
      heights successor = some (statement.heightAfter height) := by
  cases hshape with
  | inner hinner heffect hsuccessors =>
      have hpops : (netEffect block).1 ≤ height := (admits_inner hinner).1 h
      have hcarried : carriedBehind heights (some height) block = _ :=
        carriedBehind_inner hinner hpops
      rw [heffect] at hpops hcarried
      refine ⟨hpops, fun successor hmem => ?_⟩
      rw [hsuccessors, List.mem_singleton] at hmem
      rw [hmem]
      exact hnext _ hcarried
  | @comparison op branch hbranch =>
      obtain ⟨hpops, -, hafter⟩ := (admits_comparison hbranch).1 h
      refine ⟨hpops, fun successor hmem => ?_⟩
      rw [List.mem_singleton.1 hmem]
      refine hnext _ ((carriedBehind_comparison _).trans (hafter.trans ?_))
      rw [Statement.heightAfter, Statement.pops, Statement.pushes]
      congr 1
      omega
  | @jump target =>
      refine ⟨Nat.zero_le _, fun successor hmem => ?_⟩
      rw [List.mem_singleton.1 hmem]
      exact (accepts_jump.1 h.1).2
  | @jumpIfZero target =>
      obtain ⟨hpops, htarget⟩ := admits_jumpIfZero.1 h
      refine ⟨hpops, fun successor hmem => ?_⟩
      rcases List.mem_cons.1 hmem with rfl | hmem
      · exact hnext _ carriedBehind_jumpIfZero
      · rw [List.mem_singleton.1 hmem]
        exact htarget

/-- Where the successors of a statement have the height behind it, its block is accepted, and
carries that height on to the next statement. -/
theorem admits_of_agree {height : Nat} (hshape : Shape next statement block)
    (hpops : statement.pops ≤ height)
    (hsuccessors : ∀ successor ∈ statement.successors index,
      heights successor = some (statement.heightAfter height))
    (hlabels : ∀ label ∈ boundLabels block, heights label = some (height - 2 + (label - next))) :
    Admits heights (some height) block ∧
      ∀ after, carriedBehind heights (some height) block = some after →
        heights (index + 1) = some after := by
  cases hshape with
  | inner hinner heffect hnext =>
      have hpops' : (netEffect block).1 ≤ height := by rw [heffect]; exact hpops
      refine ⟨(admits_inner hinner).2 hpops', fun after hcarried => ?_⟩
      rw [carriedBehind_inner hinner hpops', heffect] at hcarried
      rw [hsuccessors _ (by rw [hnext]; exact List.mem_singleton_self _)]
      exact hcarried
  | @comparison op branch hbranch =>
      change 2 ≤ height at hpops
      have hotherwise : heights next = some (height - 2) := by
        rw [hlabels next List.mem_cons_self, Nat.sub_self]
        rfl
      have hafter : heights (next + 1) = some (height - 1) := by
        rw [hlabels (next + 1) (List.mem_cons_of_mem _ (List.mem_singleton_self _))]
        congr 1
        omega
      refine ⟨(admits_comparison hbranch).2 ⟨hpops, hotherwise, hafter⟩, fun after hcarried => ?_⟩
      rw [carriedBehind_comparison, hafter] at hcarried
      rw [hsuccessors _ (List.mem_singleton_self _), ← hcarried, Statement.heightAfter,
        Statement.pops, Statement.pushes]
      congr 1
      omega
  | @jump target =>
      refine ⟨⟨accepts_jump.2 ⟨Nat.zero_le _, hsuccessors _ (List.mem_singleton_self _)⟩, trivial⟩,
        fun after hcarried => ?_⟩
      cases hcarried
  | @jumpIfZero target =>
      refine ⟨admits_jumpIfZero.2 ⟨hpops, ?_⟩, fun after hcarried => ?_⟩
      · exact hsuccessors _ (List.mem_cons_of_mem _ (List.mem_singleton_self _))
      · rw [carriedBehind_jumpIfZero] at hcarried
        rw [hsuccessors _ List.mem_cons_self]
        exact hcarried

/-- A block that is not reached is accepted, if its labels are not reached. -/
theorem admits_of_unreached (hshape : Shape next statement block)
    (hlabels : ∀ label ∈ boundLabels block, heights label = none) :
    Admits heights none block ∧ carriedBehind heights none block = none := by
  cases hshape with
  | inner hinner _ _ => exact admits_none fun insn hinsn => isBind_of_isInner (hinner insn hinsn)
  | comparison h =>
      have hafter := hlabels (next + 1) (List.mem_cons_of_mem _ (List.mem_singleton_self _))
      exact ⟨admits_none_comparison (hlabels next List.mem_cons_self),
        (carriedBehind_comparison _).trans hafter⟩
  | jump => exact admits_none (by simp [Instruction.isBind])
  | jumpIfZero => exact admits_none (by simp [Instruction.isBind])

end Blocks

/-! ## Heights in bodies -/

section Bodies

variable {pool : StoredPool} {slots : List (String × UInt16)} {body : Body}
  {opening : List Instruction} {blocks : List (List Instruction)} {code : SymbolicCode}
  {heights : LabelHeights}

/-- Opening the reader leaves the operand stack as it was. -/
theorem netEffect_of_opens (h : Opens pool opening) :
    (∀ insn ∈ opening, insn.isInner = true) ∧ netEffect opening = (0, 0) := by
  cases h
  exact ⟨by simp [Instruction.isInner, Instruction.straight, Instruction.isBind], rfl⟩

/-- So does setting the variables. -/
theorem netEffect_zeroVariables (slots : List (String × UInt16)) :
    (∀ insn ∈ zeroVariables slots, insn.isInner = true) ∧
      netEffect (zeroVariables slots) = (0, 0) := by
  induction slots with
  | nil => exact ⟨fun insn h => absurd h List.not_mem_nil, rfl⟩
  | cons entry slots ih =>
      change (∀ insn ∈ .plain .iconst0 :: .slot .istore entry.2 :: zeroVariables slots, _) ∧
        netEffect (.plain .iconst0 :: .slot .istore entry.2 :: zeroVariables slots) = _
      refine ⟨?_, ?_⟩
      · intro insn hinsn
        rcases List.mem_cons.1 hinsn with rfl | hinsn
        · rfl
        · rcases List.mem_cons.1 hinsn with rfl | hinsn
          · rfl
          · exact ih.1 insn hinsn
      · rw [netEffect, netEffect, ih.2]
        rfl

/-- The first statement is reached with an empty stack. -/
theorem carriedBehind_front (h : Emitted pool slots body opening blocks code) :
    Admits heights (some 0) (opening ++ zeroVariables slots) ∧
      carriedBehind heights (some 0) (opening ++ zeroVariables slots) = some 0 := by
  obtain ⟨hopening, hopens⟩ := netEffect_of_opens h.opens
  obtain ⟨hzero, hzeroes⟩ := netEffect_zeroVariables slots
  have hmid : carriedBehind heights (some 0) opening = some 0 := by
    rw [carriedBehind_inner hopening (by rw [hopens]), hopens]
    rfl
  rw [admits_append, carriedBehind_append, hmid, admits_inner hopening, admits_inner hzero, hopens,
    hzeroes, carriedBehind_inner hzero (by rw [hzeroes]), hzeroes]
  exact ⟨⟨le_refl _, le_refl _⟩, rfl⟩

/-- Heights of labels give heights of statements. -/
theorem disciplined_of_admits (hemitted : Emitted pool slots body opening blocks code)
    (h : Admits heights (some 0) code.instructions.toList) : body.Disciplined := by
  have hstart : heights 0 = some 0 := by
    obtain ⟨back, hcode⟩ := hemitted.head
    rw [hcode, admits_append, (carriedBehind_front hemitted).2, admits_cons, accepts_bind] at h
    exact h.2.1 0 rfl
  -- a statement whose label has a height finds its operands and hands the height on
  have hstatement : ∀ index statement height, heights index = some height →
      body[index]? = some statement → statement.pops ≤ height ∧
        ∀ successor ∈ statement.successors index,
          heights successor = some (statement.heightAfter height) := by
    intro index statement height hheight hget
    obtain ⟨front, block, back, first, mid, hemits, hcode⟩ := hemitted.block hget
    rw [hcode, admits_append, admits_cons, carry_bind, hheight, admits_append, admits_cons] at h
    exact agree_of_admits (shape_of_emits hemits) h.2.2.1 (accepts_bind.1 h.2.2.2.1)
  have hreached : ∀ index, body.Reaches index → ∃ height, heights index = some height := by
    intro index hreaches
    induction hreaches with
    | start => exact ⟨0, hstart⟩
    | step _ hget hnext ih =>
        obtain ⟨height, hheight⟩ := ih
        exact ⟨_, (hstatement _ _ height hheight hget).2 _ hnext⟩
  refine ⟨fun index => (heights index).getD 0, by simp [hstart], ?_, ?_⟩
  · intro index statement hreaches hget
    obtain ⟨height, hheight⟩ := hreached index hreaches
    rw [hheight]
    exact (hstatement index statement height hheight hget).1
  · intro index statement next hreaches hget hnext
    obtain ⟨height, hheight⟩ := hreached index hreaches
    rw [hheight, (hstatement index statement height hheight hget).2 next hnext]
    rfl

/-- The successors of an emitted statement lie in the body or at its end. -/
theorem successor_le {statement : Statement} {first mid index successor : Nat}
    {block : List Instruction} (hemits : Emits pool slots body.size statement first block mid)
    (hindex : index < body.size) (h : successor ∈ statement.successors index) :
    successor ≤ body.size := by
  cases hemits with
  | jump hle => rw [List.mem_singleton.1 h]; exact hle
  | jumpIfZero hle =>
      rcases List.mem_cons.1 h with rfl | h
      · exact hindex
      · rw [List.mem_singleton.1 h]; exact hle
  | _ => rw [List.mem_singleton.1 h]; exact hindex

/-- The labels that a statement's block has of its own get heights, the others keep theirs. -/
def withOwn (heights : LabelHeights) (before : Option Nat) (first mid : Label) : LabelHeights :=
  fun label =>
    if first ≤ label ∧ label < mid then before.map fun height => height - 2 + (label - first)
    else heights label

theorem withOwn_of_lt {before : Option Nat} {first mid label : Label} (h : label < first) :
    withOwn heights before first mid label = heights label :=
  if_neg fun hown => absurd hown.1 (Nat.not_le.2 h)

theorem withOwn_own {before : Option Nat} {first mid label : Label} (h : first ≤ label)
    (h' : label < mid) :
    withOwn heights before first mid label =
      before.map fun height => height - 2 + (label - first) :=
  if_pos ⟨h, h'⟩

open Classical in
/-- Heights of statements as heights of their labels. -/
noncomputable def statementHeights (body : Body) (height : Nat → Nat) : LabelHeights := fun label =>
  if body.Reaches label then some (height label) else none

/-- The blocks of a body accept heights of its statements, with heights for their own labels. -/
theorem admits_of_emitsAll {height : Nat → Nat} (hheight : body.Heights height)
    {statements : List Statement} {index next last : Nat}
    (hemits : EmitsAll pool slots body.size index statements next blocks last)
    (hstatements : ∀ k statement, statements[k]? = some statement →
      body[index + k]? = some statement)
    (hlength : index + statements.length ≤ body.size) (hnext : body.size < next)
    (hheights : ∀ label ≤ body.size, heights label = statementHeights body height label) :
    ∃ heights' : LabelHeights, (∀ label < next, heights' label = heights label) ∧
      ∀ carried, (∀ h, carried = some h → heights index = some h) →
        Admits heights' carried blocks.flatten ∧
          ∀ h, carriedBehind heights' carried blocks.flatten = some h →
            heights (index + statements.length) = some h := by
  induction hemits generalizing heights with
  | nil => exact ⟨heights, fun _ _ => rfl, fun carried hcarried => ⟨trivial, hcarried⟩⟩
  | @cons index statement statements next mid last block blocks head tail ih =>
      rw [List.length_cons] at hlength
      have hget : body[index]? = some statement := hstatements 0 statement rfl
      obtain ⟨hmid, hown⟩ := boundLabels_emits head
      obtain ⟨heights', hbelow, htail⟩ := @ih (withOwn heights (heights index) next mid)
        (fun k s hk => by rw [Nat.add_assoc, Nat.add_comm 1]; exact hstatements (k + 1) s hk)
        (by omega) (by omega)
        (fun label hlabel =>
          (withOwn_of_lt (Nat.lt_of_le_of_lt hlabel hnext)).trans (hheights label hlabel))
      have hold : ∀ label < next, heights' label = heights label := fun label hlabel =>
        (hbelow label (Nat.lt_of_lt_of_le hlabel hmid)).trans (withOwn_of_lt hlabel)
      have hlabels : ∀ label ∈ boundLabels block,
          heights' label = (heights index).map fun height => height - 2 + (label - next) := by
        intro label hlabel
        rw [hown, List.mem_range'_1] at hlabel
        have hlt : label < mid := by omega
        rw [hbelow label hlt, withOwn_own hlabel.1 hlt]
      have hat : heights' index = heights index := hold index (by omega)
      refine ⟨heights', hold, fun carried hcarried => ?_⟩
      -- the block hands its height on to the label of the next statement
      have hblock : Admits heights' (heights index) block ∧
          ∀ h, carriedBehind heights' (heights index) block = some h →
            heights' (index + 1) = some h := by
        by_cases hreaches : body.Reaches index
        · have hindex : heights index = some (height index) := by
            rw [hheights index (by omega), statementHeights, if_pos hreaches]
          rw [hindex] at hlabels ⊢
          have hpops := hheight.pops_le index statement hreaches hget
          refine admits_of_agree (shape_of_emits head) hpops ?_ hlabels
          intro successor hsuccessor
          have hle : successor ≤ body.size := successor_le head (by omega) hsuccessor
          rw [hold successor (by omega), hheights successor hle, statementHeights,
            if_pos (hreaches.step hget hsuccessor),
            hheight.agree _ _ _ hreaches hget hsuccessor]
        · have hindex : heights index = none := by
            rw [hheights index (by omega), statementHeights, if_neg hreaches]
          rw [hindex] at hlabels ⊢
          obtain ⟨hadmits, hbehind⟩ := admits_of_unreached (shape_of_emits head) hlabels
          refine ⟨hadmits, fun h hh => ?_⟩
          rw [hbehind] at hh
          cases hh
      rw [List.flatten_cons, List.cons_append, admits_cons, accepts_bind, carry_bind, admits_append,
        carriedBehind_cons, carry_bind, carriedBehind_append, hat]
      have hlt : index + 1 < next := by omega
      obtain ⟨hadmits, hbehind⟩ := htail (carriedBehind heights' (heights index) block)
        fun h hh => by rw [withOwn_of_lt hlt, ← hold _ hlt]; exact hblock.2 h hh
      refine ⟨⟨hcarried, hblock.1, hadmits⟩, fun h hh => ?_⟩
      have hlt : index + 1 + statements.length < next := by omega
      have hlast := hbehind h hh
      rw [withOwn_of_lt hlt] at hlast
      rw [List.length_cons, Nat.add_comm statements.length, ← Nat.add_assoc]
      exact hlast

/-- Heights of statements give heights of labels. -/
theorem admits_of_disciplined (hemitted : Emitted pool slots body opening blocks code)
    (h : body.Disciplined) : ∃ heights, Admits heights (some 0) code.instructions.toList := by
  obtain ⟨height, hheight⟩ := h
  have hstart : statementHeights body height 0 = some 0 := by
    rw [statementHeights, if_pos .start, hheight.start]
  obtain ⟨heights, hbelow, hblocks⟩ := admits_of_emitsAll hheight hemitted.blocks_emitted
    (fun k statement hk => by rw [Nat.zero_add, ← Array.getElem?_toList]; exact hk)
    (by simp) (Nat.lt_succ_self _) (fun _ _ => rfl)
  obtain ⟨hfront, hcarried⟩ : Admits heights _ _ ∧ carriedBehind heights _ _ = _ :=
    carriedBehind_front hemitted
  obtain ⟨hadmits, hbehind⟩ := hblocks (some 0) fun h hh => hh ▸ hstart
  refine ⟨heights, ?_⟩
  rw [hemitted.code_eq, admits_append, admits_append,
    carriedBehind_append (opening ++ zeroVariables slots), hcarried]
  refine ⟨⟨hfront, hadmits⟩, ?_⟩
  rw [admits_cons, accepts_bind, carry_bind, admits_cons]
  refine ⟨fun h hh => ?_, accepts_return, trivial⟩
  have hlast := hbehind h hh
  rw [Array.length_toList, Nat.zero_add] at hlast
  rw [hbelow _ (Nat.lt_succ_self _), hlast]

/-- Heights for the labels of emitted code are there if and only if the body keeps to the stack
discipline. -/
theorem exists_admits_iff (hemitted : Emitted pool slots body opening blocks code) :
    (∃ heights, Admits heights (some 0) code.instructions.toList) ↔ body.Disciplined :=
  ⟨fun ⟨_, h⟩ => disciplined_of_admits hemitted h, admits_of_disciplined hemitted⟩

/-- The instructions of emitted code add no more words than they have bytes. -/
theorem modest_of_emitted (hslots : Laid slots)
    (hemitted : Emitted pool slots body opening blocks code) :
    ∀ insn ∈ code.instructions.toList, insn.Modest := by
  obtain ⟨types, -, htypes⟩ := (typed_of_emitted hslots hemitted).types
  intro insn hinsn
  obtain ⟨done, todo, hcode⟩ := List.append_of_mem hinsn
  exact (htypes done insn todo hcode).2.modest

end Bodies

/-! ## Lowered routines -/

/-- The stack checks of a lowered routine decide its stack discipline. -/
theorem exists_analyse_iff_disciplined {className : String} {body : Body} {lowered : Lowered}
    {layout : Layout} (hlowered : lowerClass className body = .ok lowered)
    (hlayout : Layout.of lowered.main = .ok layout) :
    (∃ flow, analyse lowered.main.instructions layout = .ok flow) ↔ body.Disciplined := by
  obtain ⟨constructor, hsettled⟩ := settled_of_lowerClass hlowered
  obtain ⟨⟨opening, blocks, hemitted⟩, -⟩ := hsettled.emitted _ (IsPrefix.refl _)
  rw [exists_analyse_iff hlayout (modest_of_emitted hsettled.laid hemitted) hemitted.labelled,
    exists_admits_iff hemitted]

/-- A routine that counts down what it reads: a comparison, a conditional jump to the end, and a
loop. -/
def countdownRoutine : Body :=
  #[.call (.intrinsic .read), .store "n", .load "n", .push 0, .binary .gt, .jumpIfZero 13,
    .load "n", .call (.intrinsic .write), .load "n", .push 1, .binary .sub, .store "n", .jump 2]

end StackCodegen.Managed
