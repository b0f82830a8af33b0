import StackCodegen.Proofs.Machine.Runs
import StackCodegen.Proofs.Managed.Blocks

/-!
# Compiled routines do what their statements do

Between two statements the reference machine's run is met by a frame that stands at the label of the
next statement and agrees with the active call (`Meets`). The opening and the zeroing lead from the
entry of the method to such a frame (`meets_start`); each step of the reference machine is followed
by the steps of one block (`followed_of_meets`), whether the statement goes on, divides by zero,
reads past the input or is the end of the routine.
-/

set_option autoImplicit false

namespace StackCodegen.Managed

open ClassFile

/-! ## Frames that meet a run -/

/-- A frame that stands where a label is bound. -/
def AtLabel (code : SymbolicCode) (label : Nat) (f : Frame) : Prop :=
  ∃ done todo, code.instructions.toList = done ++ .bind label :: todo ∧ f.pc = codeSize done

/-- A frame that stands at the next statement of a run without callers. -/
structure Meets (slots : List (String × UInt16)) (body : Body) (code : SymbolicCode)
    (r : Machine.Run) (f : Frame) : Prop where
  callers_eq : r.callers = []
  body_eq : r.active.body = body
  next_le : r.active.next ≤ body.size
  at_label : AtLabel code r.active.next f
  agrees : Agrees slots r.machine r.active f

/-- A program counter from the label of a statement up to that of the next. -/
def InBlock (labelOffsets : List Nat) (index pc : Nat) : Prop :=
  ∃ first last, labelOffsets[index]? = some first ∧ labelOffsets[index + 1]? = some last ∧
    first ≤ pc ∧ pc < last

/-- What a method does from a frame on for what a routine's next step leads to. -/
def Followed (e : Executable) (slots : List (String × UInt16)) (body : Body) (code : SymbolicCode)
    (labelOffsets : List Nat) (index : Nat) (f : Frame) : Machine.Progress → Prop
  | .running r => ∃ g, e.Steps f g ∧ Meets slots body code r g
  | .stopped m (.ok _) =>
    ∃ g g', e.Steps f g ∧ e.step g = .returned g' ∧ g'.output = m.output.toList
  | .stopped m (.error fault) =>
    (∃ limit, fault = .stepLimitExceeded limit) ∨
      Throws index fault ∧ ∃ g, e.Steps f g ∧ e.step g = .thrown g ∧
        InBlock labelOffsets index g.pc ∧ g.output = m.output.toList

/-! ## The opening and the zeroing -/

section Opening

variable {e : Executable} {slots : List (String × UInt16)}

/-- The opening leaves the reader in its slot and nothing on the stack. -/
theorem runLine_opening (hslots : Laid slots)
    (hmax : e.maxLocals = (mainContext e.constants slots.length).maxLocals)
    {opening : List Instruction} (h : Opens e.constants opening) (input : List Int32) :
    ∃ g, (Executable.start input).runLine e opening = .running g ∧ g.stack = [] ∧
      g.locals readerSlot = some (.object .reader) ∧ g.input = input ∧ g.output = [] := by
  obtain ⟨hreader, hdecoder, hstdin, hinitDecoder, hinitReader⟩ := h
  have hslot : readerSlot < e.maxLocals := hmax ▸ readerSlot_lt hslots
  rw [runLine_cons (g := _) ((Frame.execute_new hreader).trans rfl),
    runLine_cons (g := _) ((Frame.execute_dup rfl).trans rfl),
    runLine_cons (g := _) ((Frame.execute_new hdecoder).trans rfl),
    runLine_cons (g := _) ((Frame.execute_dup rfl).trans rfl),
    runLine_cons (g := _) ((Frame.execute_use hstdin).trans rfl),
    runLine_cons (g := _) ((Frame.execute_use hinitDecoder).trans rfl),
    runLine_cons (g := _) ((Frame.execute_use hinitReader).trans rfl),
    runLine_single]
  refine ⟨_, Frame.execute_astore hslot rfl, rfl, ?_, rfl, rfl⟩
  simp only [Function.update_self]

/-- One variable is set to 0. -/
theorem runLine_zeroVariable {slot : UInt16} (hslot : slot < e.maxLocals) {f : Frame}
    (hf : f.stack = []) (code : List Instruction) :
    ∃ g : Frame, f.runLine e (.plain .iconst0 :: .slot .istore slot :: code) = g.runLine e code ∧
      g.stack = [] ∧ g.input = f.input ∧ g.output = f.output ∧
      g.locals = Function.update f.locals slot (some (.int 0)) := by
  rw [runLine_cons (g := _) (execute_iconst (show Opcode.iconst? 0 = some .iconst0 by decide)),
    runLine_cons (g := _) (Frame.execute_istore hslot rfl)]
  exact ⟨_, rfl, hf, rfl, rfl, rfl⟩

/-- The zeroing sets every variable to 0 and nothing else. -/
theorem runLine_zeroVariables {entries : List (String × UInt16)}
    (hentries : ∀ entry ∈ entries, entry.2 < e.maxLocals) {f : Frame} (hf : f.stack = []) :
    ∃ g, f.runLine e (zeroVariables entries) = .running g ∧ g.stack = [] ∧
      g.input = f.input ∧ g.output = f.output ∧
      (∀ entry ∈ entries, g.locals entry.2 = some (.int 0)) ∧
      ∀ slot, slot ∉ entries.map Prod.snd → g.locals slot = f.locals slot := by
  induction entries generalizing f with
  | nil =>
      exact ⟨f, rfl, hf, rfl, rfl, fun entry h => absurd h List.not_mem_nil, fun _ _ => rfl⟩
  | cons entry entries ih =>
      obtain ⟨name, slot⟩ := entry
      have hslot : slot < e.maxLocals := hentries _ List.mem_cons_self
      obtain ⟨g₀, hrun₀, hstack₀, hinput₀, houtput₀, hlocals₀⟩ :=
        runLine_zeroVariable hslot hf (zeroVariables entries)
      obtain ⟨g, hrun, hstack, hinput, houtput, hzero, hkept⟩ :=
        ih (fun entry h => hentries entry (List.mem_cons_of_mem _ h)) hstack₀
      refine ⟨g, hrun₀.trans hrun, hstack, hinput.trans hinput₀, houtput.trans houtput₀, ?_, ?_⟩
      · intro entry hentry
        rcases List.mem_cons.1 hentry with rfl | hentry
        · by_cases hlater : slot ∈ entries.map Prod.snd
          · obtain ⟨entry', hentry', hslot'⟩ := List.mem_map.1 hlater
            rw [← hslot']
            exact hzero entry' hentry'
          · rw [hkept slot hlater, hlocals₀, Function.update_self]
        · exact hzero entry hentry
      · intro slot' hslot'
        rw [List.map_cons, List.mem_cons, not_or] at hslot'
        rw [hkept slot' hslot'.2, hlocals₀, Function.update_of_ne hslot'.1]

end Opening

/-! ## Steps -/

section Steps

variable {options : Options} {body : Body} {c : ClassFile} {lowered : Lowered} {mc : MethodCode}
  {e : Executable} {layout : Layout} {flow : Flow} {types : Nat → FrameType}
  {opening : List Instruction} {blocks : List (List Instruction)} {input : List Int32} {f : Frame}

namespace Compiled

theorem constants_eq (h : Compiled options body c lowered mc e layout flow types opening blocks) :
    e.constants = c.pool.stored := h.checked.constants_eq

theorem maxLocals_eq (h : Compiled options body c lowered mc e layout flow types opening blocks) :
    e.maxLocals = (mainContext e.constants lowered.slots.length).maxLocals := h.checked.maxLocals_eq

/-- A label is bound in one place. -/
theorem pc_of_atLabel (h : Compiled options body c lowered mc e layout flow types opening blocks)
    {label : Label} (hf : AtLabel lowered.main label f) {done todo : List Instruction}
    (hcode : lowered.main.instructions.toList = done ++ .bind label :: todo) :
    f.pc = codeSize done := by
  obtain ⟨done', todo', hcode', hpc⟩ := hf
  have hnodup := h.emitted.nodup_boundLabels
  have hsame : done' = done := by
    rw [hcode] at hnodup hcode'
    have hleft := not_mem_boundLabels_left hnodup
    rw [hcode'] at hnodup
    exact (split_unique hcode' hleft (not_mem_boundLabels_left hnodup)).symm
  rw [hpc, hsame]

/-- The offset of a statement's label is where its block starts. -/
theorem labelOffset (h : Compiled options body c lowered mc e layout flow types opening blocks)
    {k : Nat} (hk : k ≤ body.size) {done todo : List Instruction}
    (hcode : lowered.main.instructions.toList = done ++ .bind k :: todo) :
    mc.labelOffsets[k]? = some (codeSize done) :=
  h.checked.assembly.labelOffset h.emitted.nodup_boundLabels
    (Nat.lt_of_le_of_lt hk h.emitted.size_lt_labelCount) hcode

/-- The opening and the zeroing lead to the first statement. -/
theorem meets_start (h : Compiled options body c lowered mc e layout flow types opening blocks)
    (input : List Int32) {limits : Limits} {function : Function} (hbody : function.body = body)
    {first : Machine.Run}
    (hfirst : Machine.enter limits (.ofInput input) function [] 0 [] = .running first) :
    ∃ g, e.Reaches input g ∧ Meets lowered.slots body lowered.main first g := by
  have hopens := h.emitted.opens
  rw [← h.constants_eq] at hopens
  obtain ⟨f, hopened, hstack, hreader, hinput, houtput⟩ :=
    runLine_opening h.laid h.maxLocals_eq hopens input
  have hslots : ∀ entry ∈ lowered.slots, entry.2 < e.maxLocals := by
    intro entry hentry
    rw [h.maxLocals_eq]
    exact (slot_settled e.constants h.laid hentry).1
  obtain ⟨g, hzeroed, hstack', hinput', houtput', hzero, hkept⟩ :=
    runLine_zeroVariables hslots hstack
  obtain ⟨back, hcode⟩ := h.emitted.head
  have hstart : lowered.main.instructions.toList = [] ++ opening ++
      (zeroVariables lowered.slots ++ .bind 0 :: back) := by
    rw [hcode, List.append_assoc]
    rfl
  obtain ⟨hsteps, hpc⟩ := h.checked.steps_of_runLine (f := Executable.start input) .refl hstart rfl
    (straight_of_opens hopens) hopened
  obtain ⟨hsteps', hpc'⟩ := h.checked.steps_of_runLine hsteps hcode hpc
    (straight_zeroVariables _) hzeroed
  refine ⟨g, hsteps.trans hsteps', ?_⟩
  unfold Machine.enter at hfirst
  split at hfirst
  · cases hfirst
  · cases hfirst
    refine ⟨rfl, hbody, Nat.zero_le _, ⟨_, _, hcode, hpc'⟩, hstack', ?_, ?_, ?_, ?_⟩
    · rw [hkept, hreader]
      intro hmem
      obtain ⟨⟨name, slot⟩, hentry, hslot⟩ := List.mem_map.1 hmem
      dsimp only at hslot
      subst hslot
      exact absurd (h.laid.slot_bounds hentry).1 (by decide)
    · intro name slot hmem
      rw [hzero _ hmem]
      simp
    · exact hinput'.trans hinput
    · exact houtput'.trans houtput

/-- What is known where a statement's block is about to run. -/
structure Entered (slots : List (String × UInt16)) (body : Body) (code : SymbolicCode)
    (front block back : List Instruction) (m : Machine) (a : Machine.Activation) (k : Nat)
    (f : Frame) : Prop where
  code_eq : code.instructions.toList = front ++ .bind k :: (block ++ .bind (k + 1) :: back)
  lt_size : k < body.size
  pc_eq : f.pc = codeSize (front ++ [.bind k])
  body_eq : a.body = body
  next_eq : a.next = k + 1
  agrees : Agrees slots m a f

section Block

variable {front block back : List Instruction} {m : Machine} {a : Machine.Activation} {k : Nat}
  {limits : Limits} {program : Program}

theorem Entered.split
    (hf : Entered lowered.slots body lowered.main front block back m a k f) :
    lowered.main.instructions.toList =
      (front ++ [.bind k]) ++ block ++ .bind (k + 1) :: back := by
  rw [hf.code_eq]
  simp

/-- A block without jumps follows its statement. -/
theorem followed_straight
    (h : Compiled options body c lowered mc e layout flow types opening blocks)
    (hreach : e.Reaches input f)
    (hf : Entered lowered.slots body lowered.main front block back m a k f) {statement : Statement}
    {first mid : Nat}
    (hemits : Emits c.pool.stored lowered.slots body.size statement first block mid)
    (hstraight : ∀ insn ∈ block, insn.straight = true) :
    Followed e lowered.slots body lowered.main mc.labelOffsets k f
      (Machine.execute limits program m a [] k statement) := by
  rw [← h.constants_eq] at hemits
  have hcorresponds := corresponds_of_emits limits program h.laid
    h.maxLocals_eq hemits hstraight hf.agrees k
  have hends := h.checked.lineEnds hreach hf.split hf.pc_eq hstraight
  cases hprogress : Machine.execute limits program m a [] k statement with
  | running r =>
      rw [hprogress] at hcorresponds
      cases hout : f.runLine e block with
      | running g =>
          rw [hout] at hcorresponds hends
          obtain ⟨hcallers, hbody, hnext, hagrees⟩ := hcorresponds
          rw [hf.body_eq] at hbody
          rw [hf.next_eq] at hnext
          refine ⟨g, hends.1, hcallers, hbody, hnext ▸ hf.lt_size, ?_, hagrees⟩
          rw [hnext]
          exact ⟨_, _, hf.split, hends.2⟩
      | thrown g | returned g | violation cause =>
          rw [hout] at hcorresponds
          exact hcorresponds.elim
  | stopped m' outcome =>
      rw [hprogress] at hcorresponds
      cases outcome with
      | ok value => exact hcorresponds.elim
      | error fault =>
          cases hout : f.runLine e block with
          | running g | returned g =>
              rw [hout] at hcorresponds
              exact hcorresponds.elim
          | thrown g =>
              rw [hout] at hcorresponds hends
              obtain ⟨hsteps, hthrown, hge, hlt⟩ := hends
              refine .inr ⟨hcorresponds.1, g, hsteps, hthrown, ?_, hcorresponds.2⟩
              refine ⟨_, _, h.labelOffset (Nat.le_of_lt hf.lt_size) hf.code_eq,
                h.labelOffset hf.lt_size hf.split, ?_, hlt⟩
              rw [codeSize_append] at hge
              exact Nat.le_trans (Nat.le_add_right _ _) hge
          | violation cause =>
              rw [hout] at hends
              exact hends.elim

/-- A jump leads to the label of its target. -/
theorem followed_jump
    (h : Compiled options body c lowered mc e layout flow types opening blocks)
    (hreach : e.Reaches input f) {target : UInt64}
    (hf : Entered lowered.slots body lowered.main front [.jump .goto target.toNat] back m a k f)
    (htarget : target.toNat ≤ body.size) :
    Followed e lowered.slots body lowered.main mc.labelOffsets k f
      (Machine.execute limits program m a [] k (.jump target)) := by
  obtain ⟨done, todo, hlabel⟩ := h.emitted.label htarget
  have hgoto : lowered.main.instructions.toList = (front ++ [.bind k]) ++
      .jump .goto target.toNat :: .bind (k + 1) :: back := by
    rw [hf.split, List.append_assoc]
    rfl
  have hstep := h.checked.step_goto hreach h.emitted.nodup_boundLabels hgoto hf.pc_eq hlabel
  have hinside : ¬ a.body.size < target.toNat := by
    rw [hf.body_eq]
    omega
  simp only [Machine.execute, if_neg hinside]
  refine ⟨_, .single hstep, rfl, hf.body_eq, htarget, ⟨_, _, hlabel, rfl⟩, ?_⟩
  exact ⟨hf.agrees.stack_eq, hf.agrees.reader_eq, hf.agrees.locals_eq, hf.agrees.input_eq,
    hf.agrees.output_eq⟩

/-- A conditional jump leads to the label of its target on 0, else to the next statement. -/
theorem followed_jumpIfZero
    (h : Compiled options body c lowered mc e layout flow types opening blocks)
    (hreach : e.Reaches input f) {target : UInt64}
    (hf : Entered lowered.slots body lowered.main front
      [.plain .iconst0, .jump .ifIcmpeq target.toNat] back m a k f)
    (htarget : target.toNat ≤ body.size) :
    Followed e lowered.slots body lowered.main mc.labelOffsets k f
      (Machine.execute limits program m a [] k (.jumpIfZero target)) := by
  obtain ⟨done, todo, hlabel⟩ := h.emitted.label htarget
  have hpush : lowered.main.instructions.toList = (front ++ [.bind k]) ++ [.plain .iconst0] ++
      .jump .ifIcmpeq target.toNat :: .bind (k + 1) :: back := by
    rw [hf.split]
    simp
  have hnext : lowered.main.instructions.toList =
      (front ++ [.bind k] ++ [.plain .iconst0] ++ [.jump .ifIcmpeq target.toNat]) ++
        .bind (k + 1) :: back := by
    rw [hf.split]
    simp
  obtain ⟨hsteps, hpc⟩ := h.checked.steps_of_runLine hreach hpush hf.pc_eq
    (by simp [Instruction.straight]) (runLine_single e f (.plain .iconst0))
  have hreach' := hreach.trans hsteps
  obtain ⟨right, left, stack, hstack⟩ := h.checked.operands_of_branch hreach' hpush hpc rfl
  have hstep :=
    h.checked.step_branch hreach' h.emitted.nodup_boundLabels hpush hpc rfl hstack hlabel
  injection hstack with hright hleft
  cases hright
  have hagrees := hf.agrees.stack_eq
  rw [hleft] at hagrees
  cases hs : a.stack with
  | nil =>
      rw [hs] at hagrees
      cases hagrees
  | cons value rest =>
      rw [hs, List.map_cons] at hagrees
      injection hagrees with hvalue hrest
      cases hvalue
      have hinside : ¬ a.body.size < target.toNat := by
        rw [hf.body_eq]
        omega
      have hkept : ∀ pc next, Agrees lowered.slots m { a with next := next, stack := rest }
          { f with pc := pc, stack := stack } := fun pc next =>
        ⟨hrest, hf.agrees.reader_eq, hf.agrees.locals_eq, hf.agrees.input_eq, hf.agrees.output_eq⟩
      simp only [Machine.execute, hs, if_neg hinside]
      by_cases hzero : left = 0
      · rw [if_pos hzero]
        rw [if_pos (by simpa using hzero)] at hstep
        exact ⟨_, hsteps.tail hstep, rfl, hf.body_eq, htarget, ⟨_, _, hlabel, rfl⟩, hkept _ _⟩
      · rw [if_neg hzero]
        rw [if_neg (by simpa using hzero)] at hstep
        refine ⟨_, hsteps.tail hstep, rfl, hf.body_eq, hf.next_eq ▸ hf.lt_size, ?_, hkept _ _⟩
        rw [hf.next_eq]
        refine ⟨_, _, hnext, ?_⟩
        rw [codeSize_append _ [Instruction.jump .ifIcmpeq target.toNat]]
        rfl

/-- A comparison's branch is taken where the operator gives 0. -/
theorem eval_of_otherwiseBranch? {op : BinaryOp} {branch : Opcode}
    (h : otherwiseBranch? op = some branch) :
    ∃ condition, branch.condition? = some condition ∧
      ∀ left right, op.eval left right = some (truthWord (!condition left right)) := by
  have hlt : ∀ x y : Int32, decide (x < y) = !decide (y ≤ x) := by
    intro x y
    rw [← decide_not]
    simp only [Int32.not_le]
  cases op <;> cases h <;> refine ⟨_, rfl, fun left right => ?_⟩ <;> simp [BinaryOp.eval, hlt]

/-- A comparison leaves 1 or 0 in the place of its operands. -/
theorem followed_comparison
    (h : Compiled options body c lowered mc e layout flow types opening blocks)
    (hreach : e.Reaches input f) {op : BinaryOp} {branch : Opcode} {label : Label}
    (hf : Entered lowered.slots body lowered.main front (comparison branch label (label + 1)) back
      m a k f)
    (hbranch : otherwiseBranch? op = some branch) :
    Followed e lowered.slots body lowered.main mc.labelOffsets k f
      (Machine.execute limits program m a [] k (.binary op)) := by
  obtain ⟨condition, hcondition, heval⟩ := eval_of_otherwiseBranch? hbranch
  have hsplit := hf.split
  have hjump : lowered.main.instructions.toList = (front ++ [.bind k]) ++
      .jump branch label :: ([.plain .iconst1, .jump .goto (label + 1), .bind label,
        .plain .iconst0, .bind (label + 1)] ++ .bind (k + 1) :: back) := by
    rw [hsplit]
    simp [comparison]
  have hotherwise : lowered.main.instructions.toList =
      (front ++ [.bind k, .jump branch label, .plain .iconst1, .jump .goto (label + 1)]) ++
        .bind label :: ([.plain .iconst0, .bind (label + 1)] ++ .bind (k + 1) :: back) := by
    rw [hsplit]
    simp [comparison]
  have hafter : lowered.main.instructions.toList =
      (front ++ [.bind k, .jump branch label, .plain .iconst1, .jump .goto (label + 1),
        .bind label, .plain .iconst0]) ++ .bind (label + 1) :: (.bind (k + 1) :: back) := by
    rw [hsplit]
    simp [comparison]
  obtain ⟨right, left, stack, hstack⟩ :=
    h.checked.operands_of_branch hreach hjump hf.pc_eq hcondition
  have hstep := h.checked.step_branch hreach h.emitted.nodup_boundLabels hjump hf.pc_eq hcondition
    hstack hotherwise
  have hreach' := hreach.tail hstep
  have hagrees := hf.agrees.stack_eq
  rw [hstack] at hagrees
  obtain ⟨rest, hs, hrest⟩ : ∃ rest, a.stack = right :: left :: rest ∧ stack = rest.map .int := by
    rcases hs : a.stack with _ | ⟨x, _ | ⟨y, rest⟩⟩ <;> rw [hs] at hagrees
    · cases hagrees
    · cases hagrees
    · simp only [List.map_cons, List.cons.injEq, Value.int.injEq] at hagrees
      obtain ⟨rfl, rfl, htail⟩ := hagrees
      exact ⟨rest, rfl, htail⟩
  have hkept : ∀ pc value, Agrees lowered.slots m { a with stack := value :: rest }
      { f with pc := pc, stack := .int value :: stack } := fun pc value =>
    ⟨congrArg (Value.int value :: ·) hrest, hf.agrees.reader_eq, hf.agrees.locals_eq,
      hf.agrees.input_eq, hf.agrees.output_eq⟩
  have hexecute : Machine.execute limits program m a [] k (.binary op) = .running
      ⟨m, { a with stack := truthWord (!condition left right) :: rest }, []⟩ := by
    simp only [Machine.execute, hs, heval]
  rw [hexecute]
  -- both ways meet behind the diamond
  suffices hmeet : ∃ pc, e.Steps f
        { f with pc := pc, stack := .int (truthWord (!condition left right)) :: stack } ∧
      pc = codeSize (front ++ [.bind k, .jump branch label, .plain .iconst1,
        .jump .goto (label + 1), .bind label, .plain .iconst0]) by
    obtain ⟨pc, hsteps, hpc⟩ := hmeet
    refine ⟨_, hsteps, rfl, hf.body_eq, hf.next_eq ▸ hf.lt_size, ?_, hkept pc _⟩
    rw [hf.next_eq]
    refine ⟨_, _, hsplit, ?_⟩
    rw [hpc]
    simp [comparison, Instruction.size]
  cases htaken : condition left right with
  | true =>
      rw [htaken, if_pos rfl] at hstep hreach'
      have hzero : lowered.main.instructions.toList =
          (front ++ [.bind k, .jump branch label, .plain .iconst1, .jump .goto (label + 1)]) ++
            [.bind label, .plain .iconst0] ++ .bind (label + 1) :: .bind (k + 1) :: back := by
        rw [hotherwise]
        simp
      obtain ⟨hsteps, hpc⟩ := h.checked.steps_of_runLine hreach' hzero rfl
        (by simp [Instruction.straight]) (g := _) (by rw [runLine_cons rfl, runLine_single]; rfl)
      exact ⟨_, .head hstep hsteps, hpc.trans (by simp)⟩
  | false =>
      rw [htaken, if_neg Bool.false_ne_true] at hstep hreach'
      have hone : lowered.main.instructions.toList =
          (front ++ [.bind k, .jump branch label]) ++ [.plain .iconst1] ++
            .jump .goto (label + 1) :: .bind label :: .plain .iconst0 :: .bind (label + 1) ::
              .bind (k + 1) :: back := by
        rw [hotherwise]
        simp
      obtain ⟨hsteps, hpc⟩ := h.checked.steps_of_runLine hreach' hone (by simp [Instruction.size])
        (by simp [Instruction.straight]) (g := _) (by rw [runLine_single]; rfl)
      have hgoto := h.checked.step_goto (hreach'.trans hsteps) h.emitted.nodup_boundLabels hone hpc
        hafter
      exact ⟨_, .head hstep (hsteps.tail hgoto), rfl⟩

end Block

/-- The block of any statement follows it. -/
theorem followed_statement
    (h : Compiled options body c lowered mc e layout flow types opening blocks)
    (hreach : e.Reaches input f) {front block back : List Instruction} {m : Machine}
    {a : Machine.Activation} {k : Nat}
    (hf : Entered lowered.slots body lowered.main front block back m a k f) {limits : Limits}
    {program : Program} {statement : Statement} {first mid : Nat}
    (hemits : Emits c.pool.stored lowered.slots body.size statement first block mid) :
    Followed e lowered.slots body lowered.main mc.labelOffsets k f
      (Machine.execute limits program m a [] k statement) := by
  have hemits' := hemits
  cases hemits with
  | jump htarget => exact h.followed_jump hreach hf htarget
  | jumpIfZero htarget => exact h.followed_jumpIfZero hreach hf htarget
  | comparison hbranch => exact h.followed_comparison hreach hf hbranch
  | push hpushes =>
      refine h.followed_straight hreach hf hemits' ?_
      simpa using straight_of_pushes hpushes
  | @arithmetic _ op opcode hopcode =>
      refine h.followed_straight hreach hf hemits' ?_
      cases op <;> cases hopcode <;> simp [Instruction.straight]
  | nop | load | store | negate | read | write | pop =>
      exact h.followed_straight hreach hf hemits' (by simp [Instruction.straight])

/-- At the end of the routine the method returns. -/
theorem returned_of_atLabel
    (h : Compiled options body c lowered mc e layout flow types opening blocks)
    (hf : AtLabel lowered.main body.size f) : e.step f = .returned f := by
  obtain ⟨front, hcode⟩ := h.emitted.last
  have hpc := h.pc_of_atLabel hf hcode
  have hreturn : lowered.main.instructions.toList =
      (front ++ [.bind body.size]) ++ .plain .returnVoid :: [] := by
    rw [hcode]
    simp
  obtain ⟨distance, hstep, -⟩ := h.checked.step_eq (f := f) hreturn rfl
    (by rw [hpc]; simp [Instruction.size])
  rw [hstep]
  rfl

/-- Every step of the routine is followed by the method. -/
theorem followed_of_meets
    (h : Compiled options body c lowered mc e layout flow types opening blocks) (limits : Limits)
    (program : Program) (hreach : e.Reaches input f) {r : Machine.Run}
    (hmeets : Meets lowered.slots body lowered.main r f) :
    Followed e lowered.slots body lowered.main mc.labelOffsets r.active.next f
      (Machine.step limits program r) := by
  obtain ⟨m, a, callers⟩ := r
  obtain ⟨hcallers, hbody, hnext, hlabel, hagrees⟩ := hmeets
  dsimp only at hcallers hbody hnext hlabel hagrees ⊢
  subst hcallers
  simp only [Machine.step]
  cases hk : a.body[a.next]? with
  | none =>
      have hend : a.next = body.size := by
        have hge := Array.getElem?_eq_none_iff.1 hk
        rw [hbody] at hge
        omega
      rw [hend] at hlabel
      exact ⟨f, f, .refl, h.returned_of_atLabel hlabel, hagrees.output_eq⟩
  | some statement =>
      dsimp only
      split
      · exact .inl ⟨_, rfl⟩
      · obtain ⟨front, block, back, first, mid, hemits, hcode⟩ := h.emitted.block (hbody ▸ hk)
        have hpc := h.pc_of_atLabel hlabel hcode
        have hlt : a.next < body.size := by
          rw [← hbody]
          exact (Array.getElem?_eq_some_iff.1 hk).1
        have hentered : Entered lowered.slots body lowered.main front block back m.count
            { a with next := a.next + 1 } a.next f := by
          refine ⟨hcode, hlt, ?_, hbody, rfl, ?_⟩
          · rw [hpc]
            simp [Instruction.size]
          · exact ⟨hagrees.stack_eq, hagrees.reader_eq, hagrees.locals_eq, hagrees.input_eq,
              hagrees.output_eq⟩
        exact h.followed_statement hreach hentered hemits

/-- Every run of the routine is met by a frame of the method. -/
theorem meets_of_goes
    (h : Compiled options body c lowered mc e layout flow types opening blocks)
    (hreach : e.Reaches input f) {limits : Limits} {program : Program} {r r' : Machine.Run}
    (hmeets : Meets lowered.slots body lowered.main r f)
    (hgoes : Machine.Goes limits program r r') :
    ∃ g, e.Reaches input g ∧ Meets lowered.slots body lowered.main r' g := by
  induction hgoes with
  | refl => exact ⟨f, hreach, hmeets⟩
  | tail _ hstep ih =>
      obtain ⟨g, hg, hmeets'⟩ := ih
      have hfollowed := h.followed_of_meets limits program hg hmeets'
      rw [hstep] at hfollowed
      obtain ⟨g', hsteps, hmeets''⟩ := hfollowed
      exact ⟨g', hg.trans hsteps, hmeets''⟩

end Compiled

end Steps

end StackCodegen.Managed
