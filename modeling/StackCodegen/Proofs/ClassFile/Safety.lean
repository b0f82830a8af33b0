import StackCodegen.Proofs.ClassFile.Typing

/-!
# Typed bodies run safely

A row of instructions is `Typed` if every instruction leaves the frame type that the next one asks
for. A method whose body is typed from its entry, ends in `return` and assembles is `Checked`: its
code is that of the body, its declared sizes are those of the assembly and of the types.

Every frame such a method meets stands at an instruction of the body (`Located`): the program
counter is the instruction's offset, the operand stack has the height the flow analysis gave to the
instruction, and the frame has the instruction's type. Main statements: the entry is located, a step
keeps frames located (`located_of_step`), so every reachable frame is (`located_of_reaches`); and a
located frame is never refused (`step_ne_violation`).
-/

set_option autoImplicit false

namespace StackCodegen.ClassFile

/-! ## Typed bodies -/

/-- Instructions from `pc` on, each of which leaves the frame type that the next one asks for. -/
inductive Typed (c : TypeContext) : Nat → FrameType → List Instruction → FrameType → Prop where
  | nil {pc t} : Typed c pc t [] t
  | cons {pc before mid after insn code} (keeps : c.keeps pc before)
      (head : Types c pc before insn mid) (tail : Typed c (pc + insn.size) mid code after) :
      Typed c pc before (insn :: code) after

namespace Typed

variable {c : TypeContext} {pc : Nat} {before after : FrameType}

theorem single {insn : Instruction} (hkeeps : c.keeps pc before)
    (h : Types c pc before insn after) : Typed c pc before [insn] after := .cons hkeeps h .nil

theorem append {front back : List Instruction} {mid : FrameType}
    (h : Typed c pc before front mid) (h' : Typed c (pc + codeSize front) mid back after) :
    Typed c pc before (front ++ back) after := by
  induction h with
  | nil => exact h'
  | cons keeps head _ ih =>
      refine .cons keeps head (ih ?_)
      rw [Nat.add_assoc]
      rwa [codeSize_cons] at h'

/-- The frame types before all instructions of a typed row. -/
theorem types {code : List Instruction} (h : Typed c pc before code after) :
    ∃ types : Nat → FrameType, types 0 = before ∧
      ∀ done insn todo, code = done ++ insn :: todo →
        c.keeps (pc + codeSize done) (types done.length) ∧
          Types c (pc + codeSize done) (types done.length) insn (types (done.length + 1)) := by
  induction h with
  | @nil _ t => exact ⟨fun _ => t, rfl, fun done insn todo h => by simp at h⟩
  | @cons pc before mid after insn code keeps head tail ih =>
      obtain ⟨types, hstart, htypes⟩ := ih
      refine ⟨fun n => if n = 0 then before else types (n - 1), if_pos rfl, ?_⟩
      intro done insn' todo hcode
      cases done with
      | nil =>
          rw [List.nil_append] at hcode
          injection hcode with hinsn _
          subst hinsn
          exact ⟨by simpa using keeps, by simpa [hstart] using head⟩
      | cons _ done =>
          rw [List.cons_append] at hcode
          injection hcode with hinsn hrest
          subst hinsn
          have hnext := htypes done insn' todo hrest
          rw [Nat.add_assoc] at hnext
          simpa using hnext

end Typed

/-- The frame type a static main method is entered with. -/
def FrameType.entry : FrameType :=
  ⟨[], Function.update (fun _ => none) 0 (some (.object .arguments))⟩

/-- A method ready to run whose body was typed and assembled. -/
structure Checked (e : Executable) (c : TypeContext) (body : SymbolicCode) (m : MethodCode)
    (layout : Layout) (flow : Flow) (types : Nat → FrameType) : Prop where
  assembly : Assembly body m layout flow
  code_eq : e.code = m.code
  maxStack_eq : e.maxStack = m.maxStack
  constants_eq : e.constants = c.constants
  maxLocals_eq : e.maxLocals = c.maxLocals
  entry : types 0 = .entry
  keeps : ∀ done insn todo, body.instructions.toList = done ++ insn :: todo →
    c.keeps (codeSize done) (types done.length)
  typed : ∀ done insn todo, body.instructions.toList = done ++ insn :: todo →
    Types c (codeSize done) (types done.length) insn (types (done.length + 1))
  returns : ∃ front, body.instructions.toList = front ++ [.plain .returnVoid]

/-- A typed body that ends in `return` and assembles makes a checked method. -/
theorem checked_of_typed {c : TypeContext} {body : SymbolicCode} {m : MethodCode}
    {after : FrameType} (htyped : Typed c 0 .entry body.instructions.toList after)
    (hreturns : ∃ front, body.instructions.toList = front ++ [.plain .returnVoid])
    (h : body.assemble = .ok m) :
    ∃ layout flow types,
      Checked ⟨c.constants, m.code, m.maxStack, c.maxLocals⟩ c body m layout flow types := by
  obtain ⟨types, hentry, htypes⟩ := htyped.types
  have hreg : ∀ insn ∈ body.instructions.toList, insn.Regular := by
    intro insn hinsn
    obtain ⟨done, todo, hcode⟩ := List.append_of_mem hinsn
    exact (htypes done insn todo hcode).2.regular
  obtain ⟨layout, flow, hassembly⟩ := assembly_of_assemble (fun insn hinsn =>
    (hreg insn hinsn).fitting) h
  refine ⟨layout, flow, types, hassembly, rfl, rfl, rfl, rfl, hentry, ?_, ?_, hreturns⟩
  · intro done insn todo hcode
    simpa using (htypes done insn todo hcode).1
  · intro done insn todo hcode
    simpa using (htypes done insn todo hcode).2

/-! ## Located frames -/

/-- A frame that stands between `done` and `todo`. -/
structure StandsAt (body : SymbolicCode) (flow : Flow) (types : Nat → FrameType)
    (done todo : List Instruction) (f : Frame) : Prop where
  split : body.instructions.toList = done ++ todo
  pc_eq : f.pc = codeSize done
  known : flow.Known done.length f.stack.length
  hasType : f.HasType (types done.length)

/-- A frame that stands at an instruction. -/
def Located (body : SymbolicCode) (flow : Flow) (types : Nat → FrameType) (f : Frame) : Prop :=
  ∃ done insn todo, StandsAt body flow types done (insn :: todo) f ∧ insn.isBind = false

namespace Checked

variable {e : Executable} {c : TypeContext} {body : SymbolicCode} {m : MethodCode}
  {layout : Layout} {flow : Flow} {types : Nat → FrameType} {done todo : List Instruction}
  {insn : Instruction} {f g : Frame}

theorem regular (h : Checked e c body m layout flow types) :
    ∀ insn ∈ body.instructions.toList, insn.Regular := by
  intro insn hinsn
  obtain ⟨done, todo, hcode⟩ := List.append_of_mem hinsn
  exact (h.typed done insn todo hcode).regular

theorem final (h : Checked e c body m layout flow types) :
    flow.Final body.instructions layout := by
  refine analyse_spec ?_ h.assembly.flow_eq
  intro insn hinsn
  obtain ⟨done, todo, hcode⟩ := List.append_of_mem hinsn
  exact (h.typed done insn todo hcode).modest

/-- The declared stack size is the largest height. -/
theorem maxStack_toNat (h : Checked e c body m layout flow types) :
    e.maxStack.toNat = flow.highest := by
  have hle := h.final.highest_le
  have hsize := Layout.codeSize_le h.assembly.layout_eq
  unfold maxCodeLength at hsize
  rw [h.maxStack_eq, h.assembly.maxStack_eq]
  exact UInt16.toNat_ofNat_of_lt' (show flow.highest < 65536 by omega)

/-- The bytes at an instruction's offset are decoded to it, a jump with the distance to the
binding of its label. -/
theorem decode?_eq (h : Checked e c body m layout flow types)
    (hcode : body.instructions.toList = done ++ insn :: todo) (hbind : insn.isBind = false) :
    ∃ distance : Int,
      decode? (e.code.drop (codeSize done)) = some (insn.operation distance, insn.size) ∧
        ∀ op target, insn = .jump op target →
          ∃ b, layout.bindings[target]? = some b ∧ distance = (b.offset : Int) - codeSize done := by
  have hencodes := h.assembly.encodes
  rw [hcode] at hencodes
  have hreg := h.regular
  rw [hcode] at hreg
  have hrest := hencodes.drop fun insn hinsn => (hreg insn hinsn).fitting
  rw [Nat.zero_add] at hrest
  obtain ⟨distance, hdecode, hjump⟩ := hrest.decode?_cons
    (hreg insn (List.mem_append_right _ List.mem_cons_self)) hbind
  rw [h.code_eq]
  exact ⟨distance, hdecode, hjump⟩

/-- A step from an instruction's offset is the instruction. -/
theorem step_eq (h : Checked e c body m layout flow types)
    (hcode : body.instructions.toList = done ++ insn :: todo) (hbind : insn.isBind = false)
    (hpc : f.pc = codeSize done) :
    ∃ distance : Int,
      e.step f = e.bounded (f.execute e (codeSize done + insn.size) (insn.operation distance)) ∧
        ∀ op target, insn = .jump op target →
          ∃ b, layout.bindings[target]? = some b ∧ distance = (b.offset : Int) - codeSize done := by
  obtain ⟨distance, hdecode, hjump⟩ := h.decode?_eq hcode hbind
  refine ⟨distance, ?_, hjump⟩
  rw [Executable.step, hpc, hdecode]

theorem getElem?_split (hcode : body.instructions.toList = done ++ insn :: todo) :
    body.instructions[done.length]? = some insn := by
  rw [← Array.getElem?_toList, hcode, List.getElem?_append_right (Nat.le_refl _), Nat.sub_self]
  rfl

/-- The frame type of labels stands before and behind each of them. -/
theorem types_bind (h : Checked e c body m layout flow types) {label : Label}
    (hcode : body.instructions.toList = done ++ .bind label :: todo) :
    types done.length = c.boundary ∧ types (done.length + 1) = c.boundary := by
  have htyped := h.typed done _ todo hcode
  generalize types done.length = before at htyped ⊢
  generalize types (done.length + 1) = after at htyped ⊢
  cases htyped
  exact ⟨rfl, rfl⟩

/-- Something follows every instruction but `return`. -/
theorem succ_lt_size (h : Checked e c body m layout flow types)
    (hcode : body.instructions.toList = done ++ insn :: todo) (hinsn : insn ≠ .plain .returnVoid) :
    done.length + 1 < flow.heights.size := by
  obtain ⟨front, hfront⟩ := h.returns
  rw [h.final.size_eq, ← Array.length_toList, hcode, List.length_append, List.length_cons]
  cases todo with
  | nil =>
      rw [hcode] at hfront
      have hlast := List.append_inj_right' hfront rfl
      injection hlast with hlast
      exact absurd hlast hinsn
  | cons _ _ =>
      rw [List.length_cons]
      omega

/-- Labels take no bytes, so a frame that stands at one stands at the instruction behind it. -/
theorem located_of_standsAt (h : Checked e c body m layout flow types)
    (hf : StandsAt body flow types done todo f) : Located body flow types f := by
  induction todo generalizing done with
  | nil =>
      -- past the end no height is known
      have hlt := (Array.getElem?_eq_some_iff.1 hf.known).1
      have hsplit := congrArg List.length hf.split
      rw [List.append_nil, Array.length_toList] at hsplit
      rw [h.final.size_eq, hsplit] at hlt
      exact absurd hlt (Nat.lt_irrefl _)
  | cons insn todo ih =>
      cases hbind : insn.isBind with
      | false => exact ⟨done, insn, todo, hf, hbind⟩
      | true =>
          obtain ⟨label, rfl⟩ : ∃ label, insn = .bind label := by
            cases insn <;> first | cases hbind; done | exact ⟨_, rfl⟩
          have hsplit : body.instructions.toList = (done ++ [.bind label]) ++ todo := by
            rw [hf.split, List.append_assoc]
            rfl
          have hlength : (done ++ [Instruction.bind label]).length = done.length + 1 := by
            rw [List.length_append]
            rfl
          obtain ⟨hbefore, hafter⟩ := h.types_bind hf.split
          have hnext := h.succ_lt_size hf.split (by simp)
          refine ih ⟨hsplit, ?_, ?_, ?_⟩
          · rw [hf.pc_eq, codeSize_append]
            rfl
          · rw [hlength]
            exact (h.final.carries done.length _ _ hf.known (getElem?_split hf.split)).2.2.2 _
              (List.mem_singleton_self _) hnext
          · rw [hlength, hafter, ← hbefore]
            exact hf.hasType

/-- What a step of a located frame is. -/
theorem follows_of_standsAt (h : Checked e c body m layout flow types)
    (hf : StandsAt body flow types done (insn :: todo) f) (hbind : insn.isBind = false) :
    ∃ distance : Int,
      e.step f = e.bounded (f.execute e (codeSize done + insn.size) (insn.operation distance)) ∧
        (f.execute e (codeSize done + insn.size) (insn.operation distance)).Follows c f insn
          (types (done.length + 1)) (codeSize done + insn.size) distance ∧
        ∀ op target, insn = .jump op target →
          ∃ b, layout.bindings[target]? = some b ∧ distance = (b.offset : Int) - codeSize done := by
  obtain ⟨distance, hstep, hjump⟩ := h.step_eq hf.split hbind hf.pc_eq
  refine ⟨distance, hstep, ?_, hjump⟩
  have htyped := h.typed done insn todo hf.split
  rw [← hf.pc_eq] at htyped
  refine htyped.follows h.constants_eq h.maxLocals_eq hf.hasType hbind
    (h.final.carries _ _ _ hf.known (getElem?_split hf.split)).1 ?_
  intro op target hinsn
  obtain ⟨b, -, hdistance⟩ := hjump op target hinsn
  rw [hf.pc_eq, hdistance]
  omega

/-- A located frame is never refused. -/
theorem step_ne_violation (h : Checked e c body m layout flow types)
    (hf : Located body flow types f) (cause : Violation) : e.step f ≠ .violation cause := by
  obtain ⟨done, insn, todo, hf, hbind⟩ := hf
  obtain ⟨distance, hstep, hfollows, -⟩ := h.follows_of_standsAt hf hbind
  rw [hstep]
  cases hout : f.execute e (codeSize done + insn.size) (insn.operation distance) with
  | running g =>
      rw [hout] at hfollows
      have hheight := (h.final.carries _ _ _ hf.known (getElem?_split hf.split)).2.2.1
      have hroom : g.stack.length ≤ e.maxStack.toNat := by
        rw [hfollows.1, h.maxStack_toNat]
        exact hheight
      rw [Executable.bounded, if_pos hroom]
      simp
  | returned g => simp [Executable.bounded]
  | thrown g => simp [Executable.bounded]
  | violation cause =>
      rw [hout] at hfollows
      exact hfollows.elim

/-- A step that goes on is the unchecked effect of the instruction. -/
theorem running_of_step (h : Checked e c body m layout flow types)
    (hf : Located body flow types f) {outcome : Outcome} (hstep : e.step f = e.bounded outcome)
    (hg : outcome = .running g) : e.step f = .running g := by
  have hne := h.step_ne_violation hf .overflow
  rw [hstep, hg, Executable.bounded] at hne ⊢
  by_cases hroom : g.stack.length ≤ e.maxStack.toNat
  · rw [if_pos hroom]
  · rw [if_neg hroom] at hne
    exact absurd rfl hne

/-- Behind an instruction that is no return and no `goto` a frame is located. -/
theorem located_behind (h : Checked e c body m layout flow types) {done todo : List Instruction}
    {insn : Instruction} (hf : StandsAt body flow types done (insn :: todo) f)
    (hreturn : insn ≠ .plain .returnVoid) (hgoto : ∀ target, insn ≠ .jump .goto target)
    (hlength : g.stack.length = insn.heightAfter f.stack.length)
    (hpc : g.pc = codeSize done + insn.size) (htype : g.HasType (types (done.length + 1))) :
    Located body flow types g := by
  have hsucc : Flow.successors layout done.length insn =
      (done.length + 1) :: (Flow.successors layout done.length insn).tail := by
    cases insn with
    | plain op =>
        cases op <;> first | exact absurd rfl hreturn | rfl
    | jump op target =>
        have hop : op ≠ .goto := fun hop => hgoto target (hop ▸ rfl)
        simp only [Flow.successors, if_neg hop, List.tail_cons]
    | _ => rfl
  have hlt := h.succ_lt_size hf.split hreturn
  have hlen : (done ++ [insn]).length = done.length + 1 := by
    rw [List.length_append]
    rfl
  have hstands : StandsAt body flow types (done ++ [insn]) todo g → Located body flow types g :=
    h.located_of_standsAt
  refine hstands ⟨?_, ?_, ?_, ?_⟩
  · rw [hf.split, List.append_assoc]
    rfl
  · rw [hpc, codeSize_append]
    rfl
  · rw [hlen, hlength]
    refine (h.final.carries _ _ _ hf.known (getElem?_split hf.split)).2.2.2 _ ?_ hlt
    rw [hsucc]
    exact List.mem_cons_self
  · rw [hlen]
    exact htype

/-- Where the label of a jump is bound a frame is located. -/
theorem located_target (h : Checked e c body m layout flow types) {done todo : List Instruction}
    {op : Opcode} {target : Label} {b : Binding}
    (hf : StandsAt body flow types done (.jump op target :: todo) f)
    (hb : layout.bindings[target]? = some b)
    (hlength : g.stack.length = (Instruction.jump op target).heightAfter f.stack.length)
    (hpc : g.pc = b.offset) (htype : g.HasType c.boundary) : Located body flow types g := by
  obtain ⟨done', todo', hcode', -, rfl⟩ := Layout.binding_spec h.assembly.layout_eq hb
  obtain ⟨hboundary, -⟩ := h.types_bind hcode'
  have hmem : done'.length ∈ Flow.successors layout done.length (.jump op target) := by
    simp only [Flow.successors, hb, Option.toList_some, List.map_cons, List.map_nil]
    split
    · exact List.mem_singleton_self _
    · exact List.mem_cons_of_mem _ (List.mem_singleton_self _)
  refine h.located_of_standsAt ⟨hcode', hpc, ?_, ?_⟩
  · rw [hlength]
    refine (h.final.carries _ _ _ hf.known (getElem?_split hf.split)).2.2.2 _ hmem ?_
    rw [h.final.size_eq]
    exact (Array.getElem?_eq_some_iff.1 (getElem?_split hcode')).1
  · rw [hboundary]
    exact htype

/-- A step leads from a located frame to a located frame. -/
theorem located_of_step (h : Checked e c body m layout flow types)
    (hf : Located body flow types f) (hg : e.Step f g) : Located body flow types g := by
  obtain ⟨done, insn, todo, hf, hbind⟩ := hf
  obtain ⟨distance, hstep, hfollows, hjump⟩ := h.follows_of_standsAt hf hbind
  have hout : f.execute e (codeSize done + insn.size) (insn.operation distance) = .running g := by
    have hrun : e.step f = .running g := hg
    rw [hstep] at hrun
    exact Executable.running_of_bounded hrun
  rw [hout] at hfollows
  obtain ⟨hlength, ⟨hpc, htype, hreturn, hgoto⟩ | ⟨hpc, htype, op, target, rfl⟩⟩ := hfollows
  · exact h.located_behind hf hreturn hgoto hlength hpc htype
  · obtain ⟨b, hb, hdistance⟩ := hjump op target rfl
    rw [hf.pc_eq, hdistance] at hpc
    exact h.located_target hf hb hlength (by omega) htype

/-- The frame a method is entered with is located. -/
theorem located_start (h : Checked e c body m layout flow types) (input : List Int32) :
    Located body flow types (Executable.start input) := by
  have hpos : 0 < body.instructions.size := by
    obtain ⟨front, hfront⟩ := h.returns
    rw [← Array.length_toList, hfront, List.length_append]
    exact Nat.succ_pos _
  have htype : (Executable.start input).HasType (types 0) := by
    rw [h.entry]
    refine ⟨Fits.nil, ?_⟩
    intro slot w hw
    by_cases hslot : slot = 0
    · subst hslot
      cases hw
      exact ⟨.object .arguments, rfl, rfl⟩
    · simp only [FrameType.entry, Function.update_of_ne hslot] at hw
      cases hw
  have hstands : StandsAt body flow types [] body.instructions.toList (Executable.start input) :=
    ⟨rfl, rfl, h.final.start hpos, htype⟩
  exact h.located_of_standsAt hstands

/-- Every reachable frame is located. -/
theorem located_of_reaches (h : Checked e c body m layout flow types) {input : List Int32}
    (hf : e.Reaches input f) : Located body flow types f := by
  induction hf with
  | refl => exact h.located_start input
  | tail _ hstep ih => exact h.located_of_step ih hstep

end Checked

end StackCodegen.ClassFile
