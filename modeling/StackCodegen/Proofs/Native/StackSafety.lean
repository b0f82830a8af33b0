import StackCodegen.Proofs.Native.OperandEffects
import StackCodegen.Proofs.Native.Preservation

/-!
# Native code keeps to its own operands

Lowering checks that every callee has as many parameters as a call has operands, but not that the
operands are there. Where all bodies keep to the stack discipline, they are: whatever the words are
that a program works on, `%esp` lies at or below the locals of the active call between any two
statements, with as many operands below them as the next statement takes off, and no call changes
its return address or anything above its arguments (`reachable_operands_apart`). Where a body does
not keep to it, the code takes a local for an operand (`local_taken_for_operand`).

The argument goes from label to label. The code of a statement leads to labels where the same holds
again, unless the processor stops before (`Leads`), and no label lies in between.
-/

set_option autoImplicit false

namespace StackCodegen.Native

/-! ## From label to label -/

/-- Recogniser for a processor at the label of a statement, or of the end, of a function. -/
def AtStatement (program : Program) (x : Executable) (c : Cpu) : Prop :=
  ∃ f ∈ program.functions, ∃ k ≤ f.body.size, x.position? (statementLabel f.name k) = some c.pc

/-- A processor whose every way on, if it goes far enough, comes to one that is good, and to no
label of a statement before. -/
inductive Leads (x : Executable) (program : Program) (good : Cpu → Prop) : Cpu → Prop where
  | here {c : Cpu} (h : good c) : Leads x program good c
  | step {c : Cpu} (hinner : ¬ AtStatement program x c)
      (h : ∀ d, x.Step c d → Leads x program good d) : Leads x program good c

section Leads

variable {x : Executable} {program : Program} {good : Cpu → Prop} {c d : Cpu}
  {front back : List Item}

/-- At the label of a statement the way is over. -/
theorem Leads.good_of_atStatement (h : Leads x program good c) (hlabel : AtStatement program x c) :
    good c := by
  cases h with
  | here h => exact h
  | step hinner => exact absurd hlabel hinner

/-- Where the good ones lead to good ones, all that is reached does. -/
theorem Leads.steps (hgood : ∀ c, good c → ∀ d, x.Step c d → Leads x program good d)
    (h : Leads x program good c) (hsteps : x.Steps c d) : Leads x program good d := by
  induction hsteps with
  | refl => exact h
  | tail _ hstep ih =>
      -- a good processor starts a way of its own; any other is still on the way to one
      cases ih with
      | here hgood' => exact hgood _ hgood' _ hstep
      | step _ hnext => exact hnext _ hstep

/-- The one step there is leads on. -/
theorem Leads.of_step (hinner : ¬ AtStatement program x c) (hstep : x.Step c d)
    (h : Leads x program good d) : Leads x program good c := by
  refine .step hinner fun e he => ?_
  cases Option.some.inj (hstep.symm.trans he)
  exact h

/-- What lies where a label is found. -/
theorem item_of_position? {name : String} {position : Nat} (h : x.position? name = some position) :
    ∃ comment, x.items[position]? = some (.label name comment) := by
  obtain ⟨hlt, hlabel, -⟩ := List.findIdx?_eq_some_iff_getElem.1 h
  rw [List.getElem?_eq_getElem hlt]
  cases hitem : x.items[position] with
  | label name' comment =>
      rw [hitem] at hlabel
      obtain rfl : name' = name := by simpa [Item.isLabel] using hlabel
      exact ⟨comment, rfl⟩
  | directive text | code insn =>
      rw [hitem] at hlabel
      cases hlabel

theorem not_atStatement_of_code {insn : Instruction}
    (hitems : x.items = front ++ .code insn :: back) (hpc : c.pc = front.length) :
    ¬ AtStatement program x c := by
  rintro ⟨f, -, k, -, hposition⟩
  obtain ⟨comment, hitem⟩ := item_of_position? hposition
  rw [hitems, hpc, List.getElem?_append_right (Nat.le_refl _), Nat.sub_self] at hitem
  cases hitem

/-- The symbol of a function is no label of a statement. -/
theorem not_atStatement_of_symbol (h : Linked program x) {g : Function} (hg : g ∈ program.functions)
    (hposition : x.position? (x.platform.symbol g.name) = some c.pc) :
    ¬ AtStatement program x c := by
  rintro ⟨f, hf, k, hk, hposition'⟩
  obtain ⟨comment, hitem⟩ := item_of_position? hposition
  obtain ⟨comment', hitem'⟩ := item_of_position? hposition'
  obtain ⟨hname, -⟩ := Item.label.inj (Option.some.inj (hitem'.symm.trans hitem))
  obtain ⟨items, hitems, -⟩ := h.loads
  obtain ⟨hclash, -⟩ := blocks_of_compileProgram hitems
  exact not_mem_statementLabels hclash hg hf
    (List.mem_map.2 ⟨k, List.mem_range.2 (Nat.lt_succ_of_le hk), hname⟩)

/-- Outside the code the processor stops. -/
theorem leads_outside (hpc : x.items.length ≤ c.pc) : Leads x program good c := by
  have hnone : x.items[c.pc]? = none := List.getElem?_eq_none hpc
  refine .step ?_ fun d hstep => ?_
  · rintro ⟨f, -, k, -, hposition⟩
    obtain ⟨comment, hitem⟩ := item_of_position? hposition
    cases hnone.symm.trans hitem
  · rw [Executable.Step, Executable.step?, hnone] at hstep
    cases hstep

/-- A row of straight instructions leads to where it ends, if it does. -/
theorem leads_of_row {code : List Instruction}
    (hitems : x.items = front ++ (code.map .code ++ back))
    (hpc : c.pc = front.length) (hcode : ∀ insn ∈ code, insn.straight = true)
    (h : ∀ d, x.runLine code c = some d → x.Steps c d → d.pc = front.length + code.length →
      Leads x program good d) : Leads x program good c := by
  induction code generalizing front c with
  | nil => exact h c rfl .refl hpc
  | cons insn code ih =>
      have hhead : x.items = front ++ .code insn :: (code.map .code ++ back) := hitems
      have hnext : x.items = (front ++ [.code insn]) ++ (code.map .code ++ back) := by
        rw [hhead]
        simp
      refine .step (not_atStatement_of_code hhead hpc) fun e hstep => ?_
      have hexecute := (Executable.step_iff hhead hpc).1 hstep
      rw [← hpc] at hexecute
      have hepc : e.pc = (front ++ [Item.code insn]).length := by
        rw [Executable.pc_execute? (hcode insn List.mem_cons_self) hexecute, Cpu.pc_goto, hpc,
          List.length_append]
        rfl
      refine ih hnext hepc (fun insn' hinsn' => hcode insn' (List.mem_cons_of_mem _ hinsn')) ?_
      intro d hrun hsteps hdpc
      refine h d ((Executable.runLine_cons hexecute).trans hrun) (.head hstep hsteps) ?_
      rw [hdpc, List.length_append, List.length_cons, List.length_cons, List.length_nil]
      omega

end Leads

/-! ## Places in bodies -/

/-- An index of a function that its control flow reaches, with the height it has there. -/
structure Reached (program : Program) (f : Function) (k height : Nat) : Prop where
  mem : f ∈ program.functions
  le : k ≤ f.body.size
  ending : k = f.body.size → needsImplicitReturn f.body = true
  height_eq : ∃ heights, f.body.Heights heights ∧ f.body.Reaches k ∧ heights k = height

theorem successors_cases {s : Statement} {k next : Nat} (h : next ∈ s.successors k) :
    next = k + 1 ∧ s.isReturn = false ∨
      ∃ target, s.jumpTarget? = some target ∧ next = target.toNat := by
  cases s with
  | jump target => exact .inr ⟨target, rfl, List.mem_singleton.1 h⟩
  | jumpIfZero target =>
      rcases List.mem_cons.1 h with rfl | h
      · exact .inl ⟨rfl, rfl⟩
      · exact .inr ⟨target, rfl, List.mem_singleton.1 h⟩
  | returnZero | returnTop | prepareArguments => cases h
  | nop | push | load | store | negate | binary | call | pop =>
      exact .inl ⟨List.mem_singleton.1 h, rfl⟩

namespace Reached

variable {program : Program} {f : Function} {k height : Nat} {s : Statement}

theorem first (hf : f ∈ program.functions) (h : f.body.Disciplined) : Reached program f 0 0 := by
  obtain ⟨heights, hheights⟩ := h
  exact ⟨hf, Nat.zero_le _, needsImplicitReturn_of_empty, heights, hheights, .start, hheights.start⟩

/-- A statement finds its operands. -/
theorem pops_le (h : Reached program f k height) (hk : f.body[k]? = some s) : s.pops ≤ height := by
  obtain ⟨heights, hheights, hreaches, rfl⟩ := h.height_eq
  exact hheights.pops_le k s hreaches hk

/-- Behind a statement there is the height that the statement leaves. -/
theorem next (h : Reached program f k height) (hk : f.body[k]? = some s) {next : Nat}
    (hnext : next ∈ s.successors k)
    (htarget : ∀ target, s.jumpTarget? = some target → target.toNat ≤ f.body.size) :
    Reached program f next (s.heightAfter height) := by
  obtain ⟨heights, hheights, hreaches, rfl⟩ := h.height_eq
  have hheight : ∃ heights', f.body.Heights heights' ∧ f.body.Reaches next ∧
      heights' next = s.heightAfter (heights k) :=
    ⟨heights, hheights, hreaches.step hk hnext, hheights.agree k s next hreaches hk hnext⟩
  rcases successors_cases hnext with ⟨rfl, hs⟩ | ⟨target, hs, rfl⟩
  · exact ⟨h.mem, (Array.getElem?_eq_some_iff.1 hk).1, needsImplicitReturn_of_last hk hs, hheight⟩
  · exact ⟨h.mem, htarget target hs, needsImplicitReturn_of_target hk hs, hheight⟩

end Reached

/-! ## Frames -/

/-- What a call of `f` has kept since it was entered: its base holds the `%ebp` of its caller, and
neither its return address nor anything above its arguments has changed. -/
structure Framed (x : Executable) (f : Function) (base : Int) (entered : Cpu) (memory : Memory) :
    Prop where
  isEntered : Entered x f base entered
  saved : memory base = entered.registers .ebp
  back : memory (base + 4) = entered.memory (base + 4)
  above : ∀ p, base + 8 + 4 * (f.arity : Int) ≤ p → memory p = entered.memory p

/-- The frames from the one of `f` outwards, whatever words they hold. A caller goes on with one
operand more than it has, the value it waits for. -/
inductive Frames (x : Executable) (program : Program) (start : Cpu) (memory : Memory) :
    Cpu → Function → Int → Prop where
  | outermost {f : Function} {base : Int} (framed : Framed x f base start memory) :
      Frames x program start memory start f base
  | caller {f g : Function} {base base' : Int} {entered entered' : Cpu} {position k height : Nat}
      (framed : Framed x f base entered memory) (saved : entered.registers .ebp = .address base')
      (back : entered.memory (base + 4) = .code position) (returns : ReturnsTo x f g k position)
      (reached : Reached program g k (height + 1))
      (top : base + 8 + 8 * (f.arity : Int) = operandTop g base' height)
      (steps : x.Steps entered' entered) (tail : Frames x program start memory entered' g base') :
      Frames x program start memory entered f base

section Frames

variable {x : Executable} {program : Program} {start entered : Cpu} {memory memory' : Memory}
  {f : Function} {base : Int}

theorem Framed.kept (h : Framed x f base entered memory) (hkept : Kept f base memory memory') :
    Framed x f base entered memory' :=
  ⟨h.isEntered, hkept.saved.trans h.saved, hkept.back.trans h.back,
    fun p hp => (hkept.above p hp).trans (h.above p hp)⟩

namespace Frames

theorem framed (h : Frames x program start memory entered f base) :
    Framed x f base entered memory := by
  cases h with
  | outermost framed => exact framed
  | caller framed => exact framed

theorem steps (h : Frames x program start memory entered f base) : x.Steps start entered := by
  induction h with
  | outermost => exact .refl
  | caller _ _ _ _ _ _ steps _ ih => exact ih.trans steps

/-- All frames are kept by what keeps to the innermost one. -/
theorem kept (h : Frames x program start memory entered f base)
    (hkept : Kept f base memory memory') : Frames x program start memory' entered f base := by
  induction h with
  | outermost framed => exact .outermost (framed.kept hkept)
  | @caller f g base base' _ _ _ _ height framed saved back returns reached top steps _ ih =>
      refine .caller (framed.kept hkept) saved back returns reached top steps (ih ?_)
      -- what lies above the arguments of a call lies below the caller's remaining operands
      exact .of_operands height fun p hp => hkept.above p (by omega)

end Frames

end Frames

/-! ## Statements -/

/-- A processor at the label of a statement that has the height of its index. -/
structure Stands (x : Executable) (program : Program) (start c : Cpu) (f : Function) (k : Nat)
    (base : Int) (height : Nat) (entered : Cpu) : Prop where
  reached : Reached program f k height
  at_label : x.position? (statementLabel f.name k) = some c.pc
  at_height : AtHeight f base height c
  frames : Frames x program start c.memory entered f base
  steps : x.Steps entered c

/-- Recogniser for such processors. -/
def Sound (x : Executable) (program : Program) (start c : Cpu) : Prop :=
  ∃ f k base height entered, Stands x program start c f k base height entered

section Statements

variable {x : Executable} {program : Program} {start c d entered : Cpu} {f : Function} {base : Int}
  {k height : Nat} {s : Statement} {front back : List Item} {top : Int} {place : Nat}

/-- A successor of a statement is met with the height that the statement leaves. -/
theorem Stands.next (hstands : Stands x program start c f k base height entered)
    (hk : f.body[k]? = some s) {next : Nat} (hnext : next ∈ s.successors k)
    (htarget : ∀ target, s.jumpTarget? = some target → target.toNat ≤ f.body.size)
    (hlabel : x.position? (statementLabel f.name next) = some d.pc)
    (hheight : AtHeight f base (s.heightAfter height) d) (hkept : Kept f base c.memory d.memory)
    (hsteps : x.Steps c d) : Sound x program start d :=
  ⟨f, next, base, _, entered, hstands.reached.next hk hnext htarget, hlabel, hheight,
    hstands.frames.kept hkept, hstands.steps.trans hsteps⟩

/-- Code without jumps and calls leads to the next statement. -/
theorem Stands.leads_straight (h : Linked program x)
    (hstands : Stands x program start c f k base height entered) (hk : f.body[k]? = some s)
    (hs : s.jumpTarget? = none ∧ s.isReturn = false ∧ ∀ callee, s ≠ .call callee)
    (hnext : k + 1 ∈ s.successors k) :
    Leads x program (Sound x program start) (c.goto (c.pc + 1)) := by
  obtain ⟨code, front, back, hcode, hfront, hstep, hitems, hlabel⟩ :=
    h.loads.located hstands.reached.mem hstands.at_label hk
  refine leads_of_row (c := c.goto (c.pc + 1)) hitems hfront.symm (straight_lowerStatement hcode hs)
    fun d hrun hsteps hpc => .here ?_
  obtain ⟨hheight, hkept⟩ := effect_of_straight (c := c.goto (c.pc + 1)) hcode hs
    ⟨hstands.at_height.esp_eq, hstands.at_height.ebp_eq⟩ (hstands.reached.pops_le hk) hrun
  refine hstands.next hk hnext (by simp [hs.1]) ?_ hheight hkept (.head hstep hsteps)
  rw [hlabel, hpc, hfront]

/-- A jump leads to its target. -/
theorem Stands.leads_jump (h : Linked program x)
    (hstands : Stands x program start c f k base height entered) {target : UInt64}
    (hk : f.body[k]? = some (.jump target)) :
    Leads x program (Sound x program start) (c.goto (c.pc + 1)) := by
  obtain ⟨code, front, back, hcode, hfront, hstep, hitems, -⟩ :=
    h.loads.located hstands.reached.mem hstands.at_label hk
  obtain ⟨label, hlabel, hcode⟩ := bind_eq_ok.1 hcode
  cases hcode
  obtain ⟨htarget, rfl⟩ := jumpLabel_eq_ok hlabel
  obtain ⟨position, hposition⟩ := h.loads.label hstands.reached.mem htarget
  have hjmp : x.Step (c.goto (c.pc + 1)) (c.goto position) := by
    refine Executable.step_of_execute? (c := c.goto (c.pc + 1)) hitems hfront.symm ?_
    rw [Executable.execute?, hposition]
    rfl
  refine .of_step (not_atStatement_of_code (c := c.goto (c.pc + 1)) hitems hfront.symm) hjmp
    (.here ?_)
  exact hstands.next hk (List.mem_singleton_self _) (by rintro _ ⟨⟩; exact htarget) hposition
    ⟨hstands.at_height.esp_eq, hstands.at_height.ebp_eq⟩ (.refl ..)
    ((Relation.ReflTransGen.single hstep).tail hjmp)

/-- A conditional jump leads to its target or to the next statement. -/
theorem Stands.leads_jumpIfZero (h : Linked program x)
    (hstands : Stands x program start c f k base height entered) {target : UInt64}
    (hk : f.body[k]? = some (.jumpIfZero target)) :
    Leads x program (Sound x program start) (c.goto (c.pc + 1)) := by
  obtain ⟨code, front, back, hcode, hfront, hstep, hitems, hnext⟩ :=
    h.loads.located hstands.reached.mem hstands.at_label hk
  obtain ⟨label, hlabel, hcode⟩ := bind_eq_ok.1 hcode
  cases hcode
  obtain ⟨htarget, rfl⟩ := jumpLabel_eq_ok hlabel
  obtain ⟨position, hposition⟩ := h.loads.label hstands.reached.mem htarget
  have hpops := hstands.reached.pops_le hk
  have hrow : x.items = front ++ ((Executable.popsInto [.eax] ++
      [Instruction.cmp (.immediate 0) (reg .eax)]).map .code ++
        (.code (.jz (statementLabel f.name target.toNat)) ::
          .label (statementLabel f.name (k + 1)) none :: back)) := hitems
  refine leads_of_row (c := c.goto (c.pc + 1)) hrow hfront.symm (by decide)
    fun d hrun hsteps hpc => ?_
  obtain ⟨e, hcmp, he⟩ := Executable.became_of_pops (c := c.goto (c.pc + 1)) (by decide)
    hstands.at_height.esp_eq hrun
  have hd := he.trans (Executable.became_of_row (by decide) he.esp_eq hcmp)
  have hheight : AtHeight f base ((Statement.jumpIfZero target).heightAfter height) d :=
    ⟨hd.esp_eq.trans (congrArg _ (operandTop_sub f base hpops)),
      hd.ebp_eq.trans hstands.at_height.ebp_eq⟩
  have hkept : Kept f base c.memory d.memory := by
    rw [hd.memory_eq, he.memory_eq]
    exact .refl ..
  -- the row ends before the branch, which leaves the processor as it is but for its place
  rw [← List.append_assoc] at hrow
  have hjz : d.pc = (front ++ (Executable.popsInto [.eax] ++
      [Instruction.cmp (.immediate 0) (reg .eax)]).map Item.code).length := by
    simp only [hpc, List.length_append, List.length_map]
  refine .step (not_atStatement_of_code hrow hjz) fun e' hstep' => .here ?_
  have hall : x.Steps c e' := (Relation.ReflTransGen.head hstep hsteps).tail hstep'
  have hexecute := (Executable.step_iff hrow hjz).1 hstep'
  obtain ⟨flags, -, hbranch⟩ := Option.bind_eq_some_iff.1 hexecute
  split at hbranch
  · rw [hposition] at hbranch
    cases hbranch
    exact hstands.next hk (List.mem_cons_of_mem _ (List.mem_singleton_self _))
      (by rintro _ ⟨⟩; exact htarget) hposition
      ⟨hheight.esp_eq, hheight.ebp_eq⟩ hkept hall
  · cases hbranch
    refine hstands.next hk List.mem_cons_self (by rintro _ ⟨⟩; exact htarget) ?_
      ⟨hheight.esp_eq, hheight.ebp_eq⟩ hkept hall
    rw [hnext, Cpu.pc_goto, ← hjz, hpc, hfront]
    rfl

end Statements

/-! ## Returns -/

section Returns

variable {x : Executable} {program : Program} {start c d entered : Cpu} {f : Function} {base : Int}
  {k height : Nat} {s : Statement} {front back : List Item} {top : Int} {place : Nat}

/-- Behind a call the arguments are released and an answer is pushed, up to the next
statement. -/
theorem leads_of_release (h : Linked program x) (n : Nat) (returnsValue : Bool)
    (hreached : Reached program f k (if returnsValue then height + 1 else height))
    (hframes : Frames x program start c.memory entered f base) (hsteps : x.Steps entered c)
    (hitems : x.items = front ++
      ((releaseCode n ++ if returnsValue then [Instruction.push (reg .eax)] else []).map .code ++
        .label (statementLabel f.name k) none :: back))
    (hpc : c.pc = front.length)
    (hesp : c.registers .esp = .address (operandTop f base height - 8 * n))
    (hebp : c.registers .ebp = .address base) : Leads x program (Sound x program start) c := by
  have hstraight :
      ∀ insn ∈ releaseCode n ++ if returnsValue then [Instruction.push (reg .eax)] else [],
      insn.straight = true := by
    intro insn hinsn
    rcases List.mem_append.1 hinsn with hinsn | hinsn
    · exact Executable.straight_releaseCode n insn hinsn
    · cases returnsValue with
      | false => cases hinsn
      | true =>
          cases List.mem_singleton.1 hinsn
          rfl
  refine leads_of_row hitems hpc hstraight fun d hrun hsteps' hdpc => .here ?_
  have hlabel : x.position? (statementLabel f.name k) = some d.pc := by
    rw [← List.append_assoc] at hitems
    rw [position?_eq h.loads.nodup hitems, hdpc, List.length_append, List.length_map]
  obtain ⟨e, hrelease, hpush⟩ := Executable.runLine_append_eq_some hrun
  obtain ⟨e', hrelease', -, he⟩ := Executable.runLine_release (x := x) hesp n
  cases hrelease.symm.trans hrelease'
  rw [Int.sub_add_cancel] at he
  cases returnsValue with
  | false =>
      cases hpush
      exact ⟨f, k, base, height, entered, hreached, hlabel, ⟨he.esp_eq, he.ebp_eq.trans hebp⟩,
        he.memory_eq ▸ hframes, hsteps.trans hsteps'⟩
  | true =>
      obtain ⟨d', hpush', hd⟩ := Executable.runLine_push (x := x) (reg .eax) he.esp_eq rfl
      cases hpush.symm.trans hpush'
      refine ⟨f, k, base, height + 1, entered, hreached, hlabel,
        ⟨hd.esp_eq.trans (congrArg _ (operandTop_succ f base height).symm),
          (hd.ebp_eq.trans he.ebp_eq).trans hebp⟩, ?_, hsteps.trans hsteps'⟩
      rw [hd.memory_eq, he.memory_eq]
      exact hframes.kept (.push ..)

/-- A return leads behind the call, or out of the code. -/
theorem leads_of_epilogue (h : Linked program x)
    (hframes : Frames x program start c.memory entered f base) (hsteps : x.Steps entered c)
    (hitems : x.items = front ++ (epilogue.map .code ++ back)) (hpc : c.pc = front.length)
    (hebp : c.registers .ebp = .address base) (hcalled : CalledFrom start top place)
    (hplace : x.items.length ≤ place) : Leads x program (Sound x program start) c := by
  have hleave : x.items = front ++ .code .leave :: (.code .ret :: back) := hitems
  have hret : x.items = (front ++ [.code .leave]) ++ .code .ret :: back := by
    rw [hleave]
    simp
  obtain ⟨d, hstep, hdpc, hdebp, -, hdesp, hdmemory, -⟩ := Executable.step_leave hleave hpc hebp
  have hdpc' : d.pc = (front ++ [Item.code .leave]).length := by
    rw [hdpc, List.length_append]
    rfl
  refine .of_step (not_atStatement_of_code hleave hpc) hstep ?_
  cases hframes with
  | outermost framed =>
      -- the entry returns to the code that called it, where no item lies
      have htop : top = base + 4 :=
        Word.address.inj (hcalled.esp_eq.symm.trans framed.isEntered.esp_eq)
      have hback : d.memory (base + 4) = .code place := by
        rw [hdmemory, framed.back, ← htop, hcalled.back]
      obtain ⟨e, hstep', hepc, -⟩ := Executable.step_ret hret hdpc' hdesp hback
      exact .of_step (not_atStatement_of_code hret hdpc') hstep' (leads_outside (hepc ▸ hplace))
  | @caller _ g _ base' _ entered' position k' height' framed saved back' returns reached top'
      hsteps' tail =>
      -- any other function returns behind its call, and the arguments are still on the stack
      have hback : d.memory (base + 4) = .code position := by
        rw [hdmemory, framed.back, back']
      obtain ⟨e, hstep', hepc, -, he⟩ := Executable.step_ret hret hdpc' hdesp hback
      obtain ⟨front', back'', hlength, hreturns⟩ := returns
      have hesp : e.registers .esp = .address (operandTop g base' height' - 8 * f.arity) := by
        rw [he.esp_eq, ← top', Int.add_sub_cancel]
        congr 1
        omega
      have hebp' : e.registers .ebp = .address base' := by
        rw [he.ebp_eq, hdebp, framed.saved, saved]
      have hcaller : Frames x program start e.memory entered' g base' := by
        rw [he.memory_eq, hdmemory]
        exact tail
      have hall : x.Steps entered' e := ((hsteps'.trans hsteps).tail hstep).tail hstep'
      exact .of_step (not_atStatement_of_code hret hdpc') hstep' (leads_of_release h f.arity true
        reached hcaller hall hreturns (hepc.trans hlength.symm) hesp hebp')

/-- A return whose value is put into `%eax` by one instruction. -/
theorem leads_of_return (h : Linked program x)
    (hframes : Frames x program start c.memory entered f base) (hsteps : x.Steps entered c)
    {insn : Instruction} (hstraight : insn.straight = true)
    (hitems : x.items = front ++ ((insn :: epilogue).map .code ++ back)) (hpc : c.pc = front.length)
    (hebp : c.registers .ebp = .address base)
    (hinsn : ∀ d, x.runLine [insn] c = some d → ∃ top', c.Became d top' c.memory)
    (hcalled : CalledFrom start top place) (hplace : x.items.length ≤ place) :
    Leads x program (Sound x program start) c := by
  have hrow : x.items = front ++ ([insn].map .code ++ (epilogue.map .code ++ back)) := hitems
  refine leads_of_row hrow hpc (by simpa using hstraight) fun d hrun hsteps' hdpc => ?_
  obtain ⟨top', hd⟩ := hinsn d hrun
  rw [← List.append_assoc] at hrow
  refine leads_of_epilogue h (hd.memory_eq ▸ hframes) (hsteps.trans hsteps') hrow ?_
    (hd.ebp_eq.trans hebp) hcalled hplace
  rw [hdpc, List.length_append, List.length_map]

/-- A return of 0 leads behind the call. -/
theorem leads_of_returnZero (h : Linked program x)
    (hframes : Frames x program start c.memory entered f base) (hsteps : x.Steps entered c)
    (hitems : x.items = front ++
      ((Instruction.mov (.immediate 0) (reg .eax) :: epilogue).map .code ++ back))
    (hpc : c.pc = front.length) (hheight : AtHeight f base height c)
    (hcalled : CalledFrom start top place) (hplace : x.items.length ≤ place) :
    Leads x program (Sound x program start) c :=
  leads_of_return h hframes hsteps rfl hitems hpc hheight.ebp_eq
    (fun _ hrun => ⟨_, Executable.became_of_row (by decide) hheight.esp_eq hrun⟩) hcalled hplace

/-- A return with a value leads behind the call. -/
theorem leads_of_returnTop (h : Linked program x)
    (hframes : Frames x program start c.memory entered f base) (hsteps : x.Steps entered c)
    (hitems : x.items = front ++ ((Instruction.pop (reg .eax) :: epilogue).map .code ++ back))
    (hpc : c.pc = front.length) (hheight : AtHeight f base height c)
    (hcalled : CalledFrom start top place) (hplace : x.items.length ≤ place) :
    Leads x program (Sound x program start) c := by
  refine leads_of_return h hframes hsteps rfl hitems hpc hheight.ebp_eq (fun d hrun => ?_) hcalled
    hplace
  obtain ⟨e, hrun', -, -, he⟩ := Executable.runLine_pop (x := x) (r := .eax) hheight.esp_eq
    (by decide) (by decide)
  cases hrun.symm.trans hrun'
  exact ⟨_, he⟩

end Returns

/-! ## Calls -/

section Calls

variable {x : Executable} {program : Program} {start c d entered : Cpu} {f g : Function}
  {base : Int} {k height : Nat} {front back : List Item} {top : Int}

/-- The runtime leaves the frame alone, and the words above its arguments. -/
theorem kept_of_service? {residue : Residue} {service : Intrinsic}
    (hesp : c.registers .esp = .address top) (h : c.service? residue service = some d) :
    d.registers .esp = .address top ∧ d.registers .ebp = c.registers .ebp ∧
      ∀ p, top + 4 * service.arity ≤ p → d.memory p = c.memory p := by
  cases service with
  | read =>
      simp only [Cpu.service?, Cpu.address?_eq hesp] at h
      split at h
      next byte _ _ heq _ =>
          cases heq
          cases h
          exact ⟨hesp, rfl, fun p hp => if_neg (by simp [Intrinsic.arity] at hp; omega)⟩
      next => cases h
  | write =>
      simp only [Cpu.service?, Cpu.address?_eq hesp] at h
      split at h
      · cases h
        exact ⟨hesp, rfl, fun p hp => if_neg (by simp [Intrinsic.arity] at hp; omega)⟩
      · cases h

/-- The statement behind a call has the height without the operands, and one more with an answer. -/
theorem Reached.behind_call {callee : Callee} (h : Reached program f k height)
    (hk : f.body[k]? = some (.call callee)) :
    Reached program f (k + 1)
      (if callee.returnsValue then height - callee.arity + 1 else height - callee.arity) := by
  have hnext := h.next hk (List.mem_singleton_self _) (by rintro _ ⟨⟩)
  cases hreturns : callee.returnsValue <;>
    simpa [Statement.heightAfter, Statement.pops, Statement.pushes, hreturns] using hnext

/-- The code of a call comes to the call itself, with copies of the operands on the stack. -/
theorem Stands.leads_copies (h : Linked program x)
    (hstands : Stands x program start c f k base height entered) {callee : Callee} {symbol : String}
    {returnsValue : Bool} (hk : f.body[k]? = some (.call callee))
    (hcode : lowerCall x.platform program callee =
      .ok (callSequence symbol callee.arity returnsValue))
    (hcall : ∀ d front back, x.items = front ++ .code (.call symbol) ::
        ((releaseCode callee.arity ++
          if returnsValue then [Instruction.push (reg .eax)] else []).map .code ++
            .label (statementLabel f.name (k + 1)) none :: back) →
      d.pc = front.length →
      d.registers .esp = .address (operandTop f base height - 4 * callee.arity) →
      d.registers .ebp = .address base → Kept f base c.memory d.memory → x.Steps c d →
      Leads x program (Sound x program start) d) :
    Leads x program (Sound x program start) (c.goto (c.pc + 1)) := by
  obtain ⟨code, front, back, hcode', hfront, hstep, hitems, -⟩ :=
    h.loads.located hstands.reached.mem hstands.at_label hk
  cases hcode.symm.trans hcode'
  rw [callSequence_eq, List.map_append, List.append_assoc] at hitems
  refine leads_of_row (c := c.goto (c.pc + 1)) hitems hfront.symm (Executable.straight_copiesCode _)
    fun d hrun hsteps hpc => ?_
  obtain ⟨e, hcopies, he, habove, -⟩ := Executable.runLine_copies (x := x) (c := c.goto (c.pc + 1))
    hstands.at_height.esp_eq callee.arity
  cases hrun.symm.trans hcopies
  rw [← List.append_assoc] at hitems
  refine hcall d _ back hitems ?_ he.esp_eq (he.ebp_eq.trans hstands.at_height.ebp_eq)
    (.of_operands height habove) (.head hstep hsteps)
  rw [hpc, List.length_append, List.length_map]

/-- A call of the runtime leads to the next statement. -/
theorem Stands.leads_service (h : Linked program x)
    (hstands : Stands x program start c f k base height entered) {service : Intrinsic}
    (hk : f.body[k]? = some (.call (.intrinsic service))) :
    Leads x program (Sound x program start) (c.goto (c.pc + 1)) := by
  refine hstands.leads_copies h hk rfl fun d front back hitems hpc hesp hebp hkept hsteps => ?_
  refine .step (not_atStatement_of_code hitems hpc) fun e hstep => ?_
  have hexecute := (Executable.step_iff hitems hpc).1 hstep
  rw [Executable.execute?, Executable.call?, h.position?_service, Linked.service?_eq] at hexecute
  obtain ⟨hesp', hebp', hmemory⟩ := kept_of_service? (c := d.goto (front.length + 1)) hesp hexecute
  have harity : service.arity ≤ height := hstands.reached.pops_le hk
  have htop := operandTop_sub f base harity
  have hbehind : x.items = (front ++ [.code (.call (x.platform.symbol service.symbol))]) ++
      ((releaseCode service.arity ++
        if service.returnsValue then [Instruction.push (reg .eax)] else []).map .code ++
          .label (statementLabel f.name (k + 1)) none :: back) := by
    rw [hitems, List.append_assoc]
    rfl
  refine leads_of_release h service.arity service.returnsValue (hstands.reached.behind_call hk)
    ((hstands.frames.kept hkept).kept (.of_operands height ?_))
    ((hstands.steps.trans hsteps).tail hstep) hbehind ?_ ?_ (hebp'.trans hebp)
  · intro p hp
    exact hmemory p (by simp [Callee.arity]; omega)
  · rw [pc_service? hexecute, List.length_append]
    rfl
  · rw [hesp']
    change Word.address (_ - 4 * (service.arity : Int)) =
      .address (operandTop f base (height - service.arity) - _)
    congr 1
    omega

/-- A function that is entered comes to its first statement. -/
theorem leads_of_entered (h : Linked program x) (hg : g ∈ program.functions)
    (hdisciplined : g.body.Disciplined) (hentered : Entered x g base c)
    (hframes : Frames x program start (c.memory.store base (c.registers .ebp)) c g base) :
    Leads x program (Sound x program start) c := by
  obtain ⟨front, back, hitems⟩ := h.loads.opening hg
  have hpc : c.pc = front.length := by
    have hposition := position?_eq h.loads.nodup hitems
    rw [hentered.at_symbol] at hposition
    exact Option.some.inj hposition
  have hprologue : x.items = (front ++ [.label (x.platform.symbol g.name) none]) ++
      ((prologue g.frame).map .code ++ .label (statementLabel g.name 0) none :: back) := by
    rw [hitems]
    simp [Function.frame]
  have hstep := Executable.step_of_label hitems hpc
  refine .of_step (not_atStatement_of_symbol h hg hentered.at_symbol) hstep ?_
  refine leads_of_row hprologue (by simp) (Executable.straight_prologue _)
    fun d hrun hsteps hdpc => .here ?_
  obtain ⟨e, hrun', hesp, hebp, hmemory, -⟩ := Executable.runLine_prologue (x := x) (f := g)
    (c := c.goto (front.length + 1)) hentered.esp_eq
  cases hrun.symm.trans hrun'
  rw [← List.append_assoc] at hprologue
  refine ⟨g, 0, base, 0, c, .first hg hdisciplined, ?_, ⟨?_, hebp⟩, ?_, .head hstep hsteps⟩
  · rw [position?_eq h.loads.nodup hprologue, hdpc, List.length_append, List.length_map]
  · rw [hesp, operandTop]
    simp
  · rw [hmemory]
    exact hframes

/-- A call of a function leads to its first statement, the caller's frame being kept. -/
theorem Stands.leads_function (h : Linked program x)
    (hall : ∀ g ∈ program.functions, g.body.Disciplined)
    (hstands : Stands x program start c f k base height entered) {declaration : Declaration}
    (hk : f.body[k]? = some (.call (.function declaration))) :
    Leads x program (Sound x program start) (c.goto (c.pc + 1)) := by
  obtain ⟨code, -, -, hcode, -⟩ := h.loads.located hstands.reached.mem hstands.at_label hk
  obtain ⟨g, hg, harity, rfl⟩ := lowerCall_function_eq_ok hcode
  have hmem : g ∈ program.functions := List.mem_of_find?_eq_some hg
  refine hstands.leads_copies h hk hcode fun d front back hitems hpc hesp hebp hkept hsteps => ?_
  obtain ⟨position, hposition⟩ := h.loads.symbol hmem
  rw [name_of_function? hg] at hposition
  obtain ⟨e, hstep, hepc, he⟩ := step_call hitems hpc hesp hposition
  refine .of_step (not_atStatement_of_code hitems hpc) hstep ?_
  have hle : declaration.arity ≤ height := hstands.reached.pops_le hk
  have htop := operandTop_sub f base hle
  -- the base of the new frame lies below the return address
  obtain ⟨base', hbase⟩ : ∃ base', base' + 4 =
      operandTop f base height - 4 * declaration.arity - 4 := ⟨_, Int.sub_add_cancel _ 4⟩
  have hplace : e.memory = d.memory.store (base' + 4) (.code (front.length + 1)) := by
    rw [hbase]
    exact he.memory_eq
  have hentered : Entered x g base' e := by
    refine ⟨?_, ?_⟩
    · rw [name_of_function? hg, hposition, hepc]
    · rw [hbase]
      exact he.esp_eq
  -- the two words that a call stores lie below the caller's operands
  have hframed : Framed x g base' e (e.memory.store base' (e.registers .ebp)) :=
    ⟨hentered, Memory.store_self, Memory.store_of_apart (.inr (by omega)),
      fun p hp => Memory.store_of_apart (.inr (by omega))⟩
  have hcaller :
      Frames x program start (e.memory.store base' (e.registers .ebp)) entered f base := by
    refine (hstands.frames.kept hkept).kept (.of_operands height fun p hp => ?_)
    rw [Memory.store_of_apart (.inr (by omega)), hplace, Memory.store_of_apart (.inr (by omega))]
  have hreturns : ReturnsTo x g f (k + 1) (front.length + 1) := by
    refine ⟨front ++ [.code (.call (x.platform.symbol declaration.name))], back, by simp, ?_⟩
    rw [hitems, harity, List.append_assoc]
    rfl
  have hreached : Reached program f (k + 1) (height - declaration.arity + 1) :=
    hstands.reached.behind_call hk
  refine leads_of_entered h hmem (hall g hmem) hentered (.caller hframed (he.ebp_eq.trans hebp) ?_
    hreturns hreached ?_ ((hstands.steps.trans hsteps).tail hstep) hcaller)
  · rw [hplace, Memory.store_self]
  · rw [harity]
    omega

end Calls

/-! ## Runs -/

section Runs

variable {x : Executable} {program : Program} {start c d entered : Cpu} {f : Function} {base : Int}
  {k height : Nat} {s : Statement} {top : Int} {place : Nat}

/-- The end of a body leads behind the call. -/
theorem Stands.leads_end (h : Linked program x)
    (hstands : Stands x program start c f k base height entered) (hk : f.body[k]? = none)
    (hcalled : CalledFrom start top place) (hplace : x.items.length ≤ place) (hstep : x.Step c d) :
    Leads x program (Sound x program start) d := by
  have hend : k = f.body.size :=
    Nat.le_antisymm hstands.reached.le (Array.getElem?_eq_none_iff.1 hk)
  -- the end is reached, so the return of 0 behind it was not left out
  obtain ⟨front, back, hitems⟩ := h.loads.ending hstands.reached.mem (hstands.reached.ending hend)
  have hpc : c.pc = front.length := by
    have hposition := position?_eq h.loads.nodup hitems
    rw [← hend, hstands.at_label] at hposition
    exact Option.some.inj hposition
  cases Option.some.inj ((Executable.step_of_label hitems hpc).symm.trans hstep)
  have hcode : x.items = (front ++ [.label (statementLabel f.name f.body.size) none]) ++
      ((Instruction.mov (.immediate 0) (reg .eax) :: epilogue).map .code ++ back) := by
    rw [hitems]
    simp
  exact leads_of_returnZero (c := c.goto (front.length + 1)) h hstands.frames
    (hstands.steps.tail hstep) hcode (by simp)
    ⟨hstands.at_height.esp_eq, hstands.at_height.ebp_eq⟩ hcalled hplace

/-- From label to label processors stay sound. -/
theorem Sound.leads (h : Linked program x) (hall : ∀ g ∈ program.functions, g.body.Disciplined)
    (hcalled : CalledFrom start top place) (hplace : x.items.length ≤ place)
    (hsound : Sound x program start c) (hstep : x.Step c d) :
    Leads x program (Sound x program start) d := by
  obtain ⟨f, k, base, height, entered, hstands⟩ := hsound
  cases hk : f.body[k]? with
  | none => exact hstands.leads_end h hk hcalled hplace hstep
  | some s =>
      obtain ⟨code, front, back, hcode, hfront, hstep', hitems, -⟩ :=
        h.loads.located hstands.reached.mem hstands.at_label hk
      cases Option.some.inj (hstep'.symm.trans hstep)
      have hheight : AtHeight f base height (c.goto (c.pc + 1)) :=
        ⟨hstands.at_height.esp_eq, hstands.at_height.ebp_eq⟩
      cases s with
      | jump target => exact hstands.leads_jump h hk
      | jumpIfZero target => exact hstands.leads_jumpIfZero h hk
      | call callee =>
          cases callee with
          | intrinsic service => exact hstands.leads_service h hk
          | function declaration => exact hstands.leads_function h hall hk
      | returnZero =>
          cases hcode
          exact leads_of_returnZero (c := c.goto (c.pc + 1)) h hstands.frames
            (hstands.steps.tail hstep) hitems hfront.symm hheight hcalled hplace
      | returnTop =>
          cases hcode
          exact leads_of_returnTop (c := c.goto (c.pc + 1)) h hstands.frames
            (hstands.steps.tail hstep) hitems hfront.symm hheight hcalled hplace
      | prepareArguments => cases hcode
      | nop | push | load | store | negate | binary | pop =>
          exact hstands.leads_straight h hk ⟨rfl, rfl, by simp⟩ (List.mem_singleton_self _)

/-- All that is reached from the entry is sound at the labels of statements. -/
theorem sound_of_steps {entry : Function} (h : Linked program x)
    (hall : ∀ g ∈ program.functions, g.body.Disciplined) (hentry : entry ∈ program.functions)
    (hcalls : Calls x entry start top place) (hplace : x.items.length ≤ place)
    (hsteps : x.Steps start c) (hlabel : AtStatement program x c) : Sound x program start c := by
  obtain ⟨base, rfl⟩ : ∃ base, top = base + 4 := ⟨top - 4, by omega⟩
  have hentered : Entered x entry base start := ⟨hcalls.at_symbol, hcalls.called.esp_eq⟩
  have hframes : Frames x program start (start.memory.store base (start.registers .ebp)) start entry
      base :=
    .outermost ⟨hentered, Memory.store_self, Memory.store_of_apart (.inr (by omega)),
      fun p hp => Memory.store_of_apart (.inr (by omega))⟩
  have hfirst := leads_of_entered h hentry (hall entry hentry) hentered hframes
  exact (hfirst.steps (fun c hsound d => hsound.leads h hall hcalls.called hplace) hsteps)
    |>.good_of_atStatement hlabel

end Runs

/-! ## Programs -/

/-- A processor between two statements of a call that keeps to its own operands: `%esp` lies as many
words below the locals as there are operands, and the next statement takes off no more than those.
What the call has kept since it was entered is told by its frame. -/
structure Apart (x : Executable) (start c : Cpu) (f : Function) (k : Nat) (base : Int)
    (height : Nat) (entered : Cpu) : Prop where
  at_label : x.position? (statementLabel f.name k) = some c.pc
  ebp_eq : c.registers .ebp = .address base
  esp_eq : c.registers .esp = .address (base - f.frame.localsSize - 4 * height)
  operands : ∀ s, f.body[k]? = some s → s.pops ≤ height
  reached : x.Steps start entered
  steps : x.Steps entered c
  framed : Framed x f base entered c.memory

/-- Where all bodies keep to the stack discipline, native code keeps to its own operands, in
every state between two statements that is reached from a call of the entry, on every input. The
caller's code lies outside. -/
theorem reachable_operands_apart {platform : Platform} {program : Program} {text : String}
    {entry : Function} (h : compile platform program = .ok text)
    (hconforming : Conforming program entry)
    (hdisciplined : ∀ f ∈ program.functions, f.body.Disciplined) :
    ∃ items, read? text = some items ∧ ∀ (runtime : Runtime) (start c : Cpu) (top : Int)
      (place : Nat), Calls ⟨items, platform, runtime⟩ entry start top place → items.length ≤ place →
      Executable.Steps ⟨items, platform, runtime⟩ start c →
      AtStatement program ⟨items, platform, runtime⟩ c →
      ∃ f ∈ program.functions, ∃ k base height entered,
        Apart ⟨items, platform, runtime⟩ start c f k base height entered := by
  obtain ⟨items, hitems, hread⟩ := read?_compile hconforming.spellable h
  refine ⟨_, hread, ?_⟩
  intro runtime start c top place hcalls hplace hsteps hlabel
  have hlinked : Linked program ⟨items.map Item.bare, platform, runtime⟩ :=
    ⟨⟨items, hitems, rfl⟩, hconforming.nodup, hconforming.name_ne⟩
  have hentry := List.mem_of_find?_eq_some (function?_of_entry_eq hconforming.entry_eq)
  obtain ⟨f, k, base, height, entered, hstands⟩ :=
    sound_of_steps hlinked hdisciplined hentry hcalls hplace hsteps hlabel
  exact ⟨f, hstands.reached.mem, k, base, height, entered, hstands.at_label,
    hstands.at_height.ebp_eq, hstands.at_height.esp_eq, fun s hk => hstands.reached.pops_le hk,
    hstands.frames.steps, hstands.steps, hstands.frames.framed⟩

/-- The program that squares keeps to its operands where it is about to multiply. -/
theorem square_operands_apart :
    ∃ text items position c f k base height entered,
      compile .win squareProgram = .ok text ∧ read? text = some items ∧
        Calls ⟨items, .win, quietRuntime⟩ squareEntry (zeroCaller position [-7]) 0 1000 ∧
        Executable.position? ⟨items, .win, quietRuntime⟩ (statementLabel "square" 2) = some c.pc ∧
        Apart ⟨items, .win, quietRuntime⟩ (zeroCaller position [-7]) c f k base height entered := by
  obtain ⟨text, htext⟩ := exists_ok_of_toBool
    (by decide +kernel : (compile .win squareProgram).toBool = true)
  have hconforming : Conforming squareProgram squareEntry := by decide
  have hdisciplined : ∀ f ∈ squareProgram.functions, f.body.Disciplined := by
    have hentry : squareEntry.body.fits [0, 1, 1, 0] = true := by decide
    have hsquare : square.body.fits [0, 1, 2, 1] = true := by decide
    simpa [squareProgram] using ⟨Body.disciplined_of_fits hentry, Body.disciplined_of_fits hsquare⟩
  obtain ⟨items, hread, hapart⟩ := reachable_operands_apart htext hconforming hdisciplined
  obtain ⟨items', hitems, hread'⟩ := read?_compile hconforming.spellable htext
  cases hread.symm.trans hread'
  have hrun : (compileProgram .win squareProgram).toOption.any fun items =>
      let x : Executable := ⟨items.map Item.bare, .win, quietRuntime⟩
      x.items.length ≤ 1000 ∧ (x.position? "_main").any fun position =>
        (x.after? 16 (zeroCaller position [-7])).any fun c =>
          x.position? (statementLabel "square" 2) = some c.pc := by
    decide +kernel
  rw [hitems] at hrun
  simp only [Except.toOption, Option.any_some, Option.any_eq_true, decide_eq_true_eq] at hrun
  obtain ⟨hlength, position, hposition, c, hc, hlabel⟩ := hrun
  have hcalls := calls_zeroCaller (f := squareEntry) hposition [-7]
  obtain ⟨f, -, k, base, height, entered, hc'⟩ := hapart quietRuntime _ c 0 1000 hcalls hlength
    (Executable.steps_of_after? hc) ⟨square, by decide, 2, by decide, hlabel⟩
  exact ⟨text, _, position, c, f, k, base, height, entered, htext, hread, hcalls, hlabel, hc'⟩

/-- A routine that calls for an operand which is not there. -/
def writesLocal : Function :=
  ⟨⟨"main", []⟩, #[.push 7, .store "x", .call (.intrinsic .write)]⟩

/-- The program of that routine. -/
def writesLocalProgram : Program := ⟨[writesLocal], by decide⟩

/-- A call without its operand takes the local for one. The program is accepted, and between its
last statement and the end `%esp` lies above the locals; 7 is written where the reference machine
finds the stack empty. -/
theorem local_taken_for_operand :
    ∃ text items position c base,
      compile .unix writesLocalProgram = .ok text ∧ read? text = some items ∧
        writesLocalProgram.run [] = .error (.stackUnderflow "main" 2) ∧
        Calls ⟨items, .unix, quietRuntime⟩ writesLocal (zeroCaller position []) 0 1000 ∧
        Executable.Steps ⟨items, .unix, quietRuntime⟩ (zeroCaller position []) c ∧
        Executable.position? ⟨items, .unix, quietRuntime⟩ (statementLabel "main" 3) = some c.pc ∧
        c.registers .ebp = .address base ∧ c.registers .esp = .address base ∧
        base - writesLocal.frame.localsSize < base ∧ c.output = [7] := by
  obtain ⟨text, htext⟩ := exists_ok_of_toBool
    (by decide +kernel : (compile .unix writesLocalProgram).toBool = true)
  have hspellable : Spellable writesLocalProgram := by decide
  obtain ⟨items, hitems, hread⟩ := read?_compile hspellable htext
  have hrun : (compileProgram .unix writesLocalProgram).toOption.any fun items =>
      let x : Executable := ⟨items.map Item.bare, .unix, quietRuntime⟩
      (x.position? "main").any fun position =>
        (x.after? 13 (zeroCaller position [])).any fun c =>
          x.position? (statementLabel "main" 3) = some c.pc ∧
            c.registers .ebp = .address (-4) ∧ c.registers .esp = .address (-4) ∧
            c.output = [7] := by
    decide +kernel
  rw [hitems] at hrun
  simp only [Except.toOption, Option.any_some, Option.any_eq_true, decide_eq_true_eq] at hrun
  obtain ⟨position, hposition, c, hc, hlabel, hebp, hesp, houtput⟩ := hrun
  exact ⟨text, _, position, c, -4, htext, hread, by decide +kernel, calls_zeroCaller hposition [],
    Executable.steps_of_after? hc, hlabel, hebp, hesp, by decide +kernel, houtput⟩

end StackCodegen.Native
