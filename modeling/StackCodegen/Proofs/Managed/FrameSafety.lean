import StackCodegen.Proofs.Managed.CompiledClass

/-!
# Compiled classes run safely

The bytes of a compiled class, loaded and run on any input, never meet a frame that a checking
machine refuses. `FrameSafe` lists what holds of a frame: where its program counter stands, how high
its stack is, that its next step is no violation, which words are on the stack at the boundary of a
statement, and what is in the local variables that an access finds. Main statement: every reachable
frame is safe, whether the run returns, throws or never ends (`reachable_frames_safe`).
-/

set_option autoImplicit false

namespace StackCodegen.Managed

open ClassFile

/-- The access to a local variable finds a slot within the declared bounds that is set and holds a
word of the right kind, or a word of that kind to put there. -/
def AccessSafe (e : Executable) (f : Frame) (op : Opcode) (number : UInt16) : Prop :=
  number < e.maxLocals ∧
    match op with
    | .iload => ∃ value, f.locals number = some (.int value)
    | .aload => ∃ kind, f.locals number = some (.object kind)
    | .istore => ∃ value stack, f.stack = .int value :: stack
    | .astore => ∃ kind stack, f.stack = .object kind :: stack
    | _ => False

/-- What holds of every frame that the main method of a routine meets. -/
structure FrameSafe (body : Body) (code : SymbolicCode) (layout : Layout) (flow : Flow)
    (e : Executable) (f : Frame) : Prop where
  /-- The program counter is the first byte of an emitted instruction, which is decoded there, and
  the operand stack has the height that the flow analysis gave to it. -/
  instruction : ∃ position insn distance,
    code.instructions[position]? = some insn ∧ insn.isBind = false ∧
      layout.offset position = f.pc ∧
      decode? (e.code.drop f.pc) = some (insn.operation distance, insn.size) ∧
      flow.heights[position]? = some (some f.stack.length)
  inside : f.pc < e.code.length
  height_le : f.stack.length ≤ e.maxStack.toNat
  /-- The instruction finds its operands, its constants and its local variable, and room on the
  stack for what it leaves. -/
  accepted : ∀ cause, e.step f ≠ .violation cause
  /-- At the label of a statement, or of the end, integers alone are on the stack. -/
  boundary : ∀ index binding, index ≤ body.size → layout.bindings[index]? = some binding →
    f.pc = binding.offset → ∀ v ∈ f.stack, ∃ value, v = .int value
  access : ∀ op number size, decode? (e.code.drop f.pc) = some (.slot op number, size) →
    AccessSafe e f op number
  reader : openingSize ≤ f.pc → f.locals readerSlot = some (.object .reader)

section Located

variable {e : Executable} {c : TypeContext} {code : SymbolicCode} {m : MethodCode}
  {layout : Layout} {flow : Flow} {types : Nat → FrameType} {f : Frame}

/-- Only labels take no bytes. -/
theorem isBind_of_size {insn : Instruction} (h : insn.size = 0) : insn.isBind = true := by
  cases insn with
  | bind label => rfl
  | slot op number =>
      have := Types.size_slot_pos op number
      omega
  | _ => cases h

/-- Where a frame stands at the offset of a label, integers alone are on its stack. -/
theorem ints_of_label (h : Checked e c code m layout flow types)
    (hf : Located code flow types f) {done' todo' : List Instruction} {label : Label}
    (hcode : code.instructions.toList = done' ++ .bind label :: todo')
    (hpc : f.pc = codeSize done') : ∀ v ∈ f.stack, ∃ value, v = .int value := by
  obtain ⟨done, insn, todo, hf, hbind⟩ := hf
  have hsplit := hf.split
  rw [hcode] at hsplit
  have hsize : codeSize done' = codeSize done := by rw [← hpc, hf.pc_eq]
  have htype : types done.length = c.boundary := by
    rcases List.append_eq_append_iff.1 hsplit with ⟨mid, hdone, hmid⟩ | ⟨mid, hdone, hmid⟩
    · -- the label lies before the instruction: between them there are labels alone
      rcases List.eq_nil_or_concat mid with rfl | ⟨mid, last, rfl⟩
      · rw [List.nil_append] at hmid
        injection hmid with hinsn _
        rw [← hinsn] at hbind
        cases hbind
      · rw [List.concat_eq_append] at hdone
        rw [← List.append_assoc] at hdone
        have hzero : last.size = 0 := by
          rw [hdone] at hsize
          simp only [codeSize_append, codeSize_cons, codeSize_nil] at hsize
          omega
        obtain ⟨label', rfl⟩ : ∃ label', last = .bind label' := by
          have := isBind_of_size hzero
          cases last <;> first | exact ⟨_, rfl⟩ | cases this
        have hlast : code.instructions.toList = (done' ++ mid) ++ .bind label' :: insn :: todo := by
          rw [hf.split, hdone, List.append_assoc]
          rfl
        have hlength : done.length = (done' ++ mid).length + 1 := by
          rw [hdone, List.length_append]
          rfl
        rw [hlength]
        exact (h.types_bind hlast).2
    · -- the label lies behind the instruction, which takes bytes
      cases mid with
      | nil =>
          rw [List.nil_append] at hmid
          injection hmid with hinsn _
          rw [hinsn] at hbind
          cases hbind
      | cons head mid =>
          rw [List.cons_append] at hmid
          injection hmid with hinsn _
          have hzero : insn.size = 0 := by
            rw [hdone, ← hinsn] at hsize
            simp only [codeSize_append, codeSize_cons] at hsize
            omega
          rw [isBind_of_size hzero] at hbind
          cases hbind
  obtain ⟨n, hn⟩ := hf.hasType.fits
  rw [htype] at hn
  intro v hv
  have hvtype : v.type ∈ List.replicate n WordType.int := by
    have := List.mem_map_of_mem (f := Value.type) hv
    rwa [hn] at this
  exact type_eq_int (List.eq_of_mem_replicate hvtype)

/-- An access that is no violation is safe. -/
theorem accessSafe_of_accepted {op : Opcode} {number : UInt16} {size : Nat}
    (hdecode : decode? (e.code.drop f.pc) = some (.slot op number, size))
    (haccepted : ∀ cause, e.step f ≠ .violation cause) : AccessSafe e f op number := by
  have hne : f.access e (f.pc + size) op number ≠ .violation .locals := by
    intro hviolation
    refine haccepted .locals ?_
    rw [Executable.step, hdecode]
    simp only [Frame.execute, hviolation, Executable.bounded]
  unfold Frame.access at hne
  split at hne
  · exact absurd rfl hne
  next hmax =>
      refine ⟨UInt16.not_le.1 hmax, ?_⟩
      split at hne
      · exact ⟨_, ‹f.locals number = _›⟩
      · exact ⟨_, ‹f.locals number = _›⟩
      · exact ⟨_, _, ‹f.stack = _›⟩
      · exact ⟨_, _, ‹f.stack = _›⟩
      · exact absurd rfl hne

end Located

/-- A located frame of a compiled class is safe. -/
theorem frameSafe_of_located {body : Body} {pool : StoredPool} {count : Nat} {code : SymbolicCode}
    {m : MethodCode} {layout : Layout} {flow : Flow} {types : Nat → FrameType} {e : Executable}
    {f : Frame} (h : Checked e (mainContext pool count) code m layout flow types)
    (hf : Located code flow types f) : FrameSafe body code layout flow e f := by
  have haccepted := fun cause => h.step_ne_violation hf cause
  have hlocated := hf
  obtain ⟨done, insn, todo, hf, hbind⟩ := hf
  have hinsn := Checked.getElem?_split hf.split
  have hreg := h.regular
  have hencodes := h.assembly.encodes
  rw [hf.split] at hencodes hreg
  have hrest := hencodes.drop fun insn hinsn => (hreg insn hinsn).fitting
  rw [Nat.zero_add] at hrest
  obtain ⟨distance, hdecode, -⟩ := hrest.decode?_cons
    (hreg insn (List.mem_append_right _ List.mem_cons_self)) hbind
  rw [← hf.pc_eq, ← h.code_eq] at hdecode
  have hcarries := h.final.carries _ _ _ hf.known hinsn
  refine ⟨⟨done.length, insn, distance, hinsn, hbind, ?_, hdecode, hf.known⟩, ?_, ?_, haccepted,
    ?_, fun op number size hslot => accessSafe_of_accepted hslot haccepted, ?_⟩
  · rw [Layout.offset_eq h.assembly.layout_eq hf.split, hf.pc_eq]
  · -- past the end there is nothing to decode
    by_contra hge
    rw [List.drop_eq_nil_of_le (Nat.le_of_not_lt hge)] at hdecode
    cases hdecode
  · rw [h.maxStack_toNat]
    exact hcarries.2.1
  · intro index binding _ hlabel hpc
    obtain ⟨done', todo', hcode', -, rfl⟩ := Layout.binding_spec h.assembly.layout_eq hlabel
    exact ints_of_label h hlocated hcode' hpc
  · intro hpc
    rw [hf.pc_eq] at hpc
    have hkeeps : KeepsReader (codeSize done) (types done.length) := h.keeps _ _ _ hf.split
    obtain ⟨v, hv, hvtype⟩ := hf.hasType.holds readerSlot _ (hkeeps hpc)
    rw [hv, type_eq_object hvtype]

/-- Accepted routines run safely. The bytes of a compiled class hold a main method, and every
frame that it meets on any input is safe. -/
theorem reachable_frames_safe {options : Options} {body : Body} {c : ClassFile}
    (h : compileClass options body = .ok c) :
    ∃ lowered layout flow e,
      lowerClass options.className body = .ok lowered ∧
        Layout.of lowered.main = .ok layout ∧
        analyse lowered.main.instructions layout = .ok flow ∧
        loaded? c.bytes = some e ∧
        ∀ input f, e.Reaches input f → FrameSafe body lowered.main layout flow e f := by
  obtain ⟨lowered, m, e, layout, flow, types, opening, blocks, hcompiled⟩ :=
    compiled_of_compileClass h
  have hchecked := hcompiled.checked
  refine ⟨lowered, layout, flow, e, hcompiled.lowered_eq, hchecked.assembly.layout_eq,
    hchecked.assembly.flow_eq, hcompiled.loaded_eq, ?_⟩
  intro input f hf
  exact frameSafe_of_located hchecked (hchecked.located_of_reaches hf)

/-- A routine that prints what it reads, over and over. -/
def echoRoutine : Body :=
  #[.call (.intrinsic .read), .store "x", .load "x", .call (.intrinsic .write), .jump 0]

/-- The routine is accepted, and on any input of two integers it meets safe frames alone. -/
theorem echo_frames_safe :
    ∃ c lowered layout flow e, compileClass ⟨"Program", false⟩ echoRoutine = .ok c ∧
      loaded? c.bytes = some e ∧ ∀ first second f, e.Reaches [first, second] f →
        FrameSafe echoRoutine (Lowered.main lowered) layout flow e f := by
  obtain ⟨c, hc⟩ := exists_ok_of_toBool
    (by decide +kernel : (compileClass ⟨"Program", false⟩ echoRoutine).toBool = true)
  obtain ⟨lowered, layout, flow, e, -, -, -, hloaded, hsafe⟩ := reachable_frames_safe hc
  exact ⟨c, lowered, layout, flow, e, hc, hloaded, fun first second => hsafe [first, second]⟩

end StackCodegen.Managed
