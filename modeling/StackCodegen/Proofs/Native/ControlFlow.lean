import StackCodegen.Proofs.Native.OperandEffects
import StackCodegen.Proofs.Native.Preservation

/-!
# Control flow of compiled programs

Control goes from an element of code to the next one, unless the element jumps or returns, and from
a jump to its label (`Executable.Flows`); a call counts as going on behind it, where it comes back.
These are all the ways there are: a step of the processor inside one activation takes one of them
(`flows_of_localStep`).

The last instruction of a function is a return, and every label that the function jumps to lies
before it: the label of the end is jumped to only where an implicit return lies behind it
(`Block.label_before_ret`). So no way leads out of the function's code. Main statement: control that
enters a function at its symbol stays in the code of the function, before or at its last
instruction (`control_stays_in_function`).
-/

set_option autoImplicit false

namespace StackCodegen.Native

/-! ## Ways through code -/

/-- The label that an instruction may jump to. -/
def Instruction.branch? : Instruction → Option String
  | jmp label | jz label => some label
  | _ => none

/-- Recogniser for the elements that control may go on behind. -/
def Item.fallsThrough : Item → Bool
  | code (.jmp _) | code .ret => false
  | _ => true

/-- The instructions among the elements of code. -/
def instructionsOf (items : List Item) : List Instruction :=
  items.filterMap fun
    | .code insn => some insn
    | _ => none

namespace Executable

variable {x : Executable} {c d : Cpu}

/-- The places that control may go to from a place, whatever the flags are. -/
inductive Flows (x : Executable) (place : Nat) : Nat → Prop where
  | next {item} (h : x.items[place]? = some item) (hfall : item.fallsThrough = true) :
      Flows x place (place + 1)
  | branch {insn label target} (h : x.items[place]? = some (.code insn))
      (hlabel : insn.branch? = some label) (htarget : x.position? label = some target) :
      Flows x place target

/-- One step inside an activation: of the processor, unless it returns or enters a function, or of a
whole call, from the call instruction to where it comes back behind it. -/
inductive LocalStep (x : Executable) (c : Cpu) : Cpu → Prop where
  | step {d : Cpu} (h : x.Step c d) (hret : x.items[c.pc]? ≠ some (.code .ret))
      (hcall : ∀ symbol, x.items[c.pc]? = some (.code (.call symbol)) →
        x.position? symbol = none) : LocalStep x c d
  | call {d e : Cpu} {symbol : String} (h : x.items[c.pc]? = some (.code (.call symbol)))
      (enter : x.Step c d) (run : x.Steps d e) (back : e.pc = c.pc + 1) : LocalStep x c e

/-- What is not straight may jump, call, or return. -/
theorem flows_of_execute? {insn : Instruction} (hitem : x.items[c.pc]? = some (.code insn))
    (hret : insn ≠ .ret) (hcall : ∀ symbol, insn = .call symbol → x.position? symbol = none)
    (h : x.execute? (c.goto (c.pc + 1)) insn = some d) : x.Flows c.pc d.pc := by
  cases hstraight : insn.straight with
  | true =>
      have hpc := pc_execute? hstraight h
      have hfall : (Item.code insn).fallsThrough = true := by
        cases insn <;> first | rfl | cases hstraight
      rw [hpc]
      exact .next hitem hfall
  | false =>
      cases insn with
      | jmp label =>
          obtain ⟨target, htarget, rfl⟩ := Option.map_eq_some_iff.1 h
          exact .branch hitem rfl htarget
      | jz label =>
          obtain ⟨flags, -, h⟩ := Option.bind_eq_some_iff.1 h
          split at h
          · obtain ⟨target, htarget, rfl⟩ := Option.map_eq_some_iff.1 h
            exact .branch hitem rfl htarget
          · cases h
            exact .next hitem rfl
      | call symbol =>
          rw [execute?, call?, hcall symbol rfl] at h
          split at h
          next heq => cases heq
          next =>
              rw [pc_service? h]
              exact .next hitem rfl
          next => cases h
      | ret => exact absurd rfl hret
      | _ => cases hstraight

/-- A step inside an activation takes one of the ways through the code. -/
theorem flows_of_localStep (h : x.LocalStep c d) : x.Flows c.pc d.pc := by
  cases h with
  | step h hret hcall =>
      unfold Step step? at h
      split at h
      next insn hitem =>
          refine flows_of_execute? hitem (fun heq => hret ?_) (fun symbol heq => hcall symbol ?_) h
          · rw [hitem, heq]
          · rw [hitem, heq]
      next item hnone hitem =>
          cases h
          refine .next hitem ?_
          cases item with
          | code insn => exact absurd rfl (hnone insn)
          | directive text | label name comment => rfl
      next => cases h
  | call h enter run back =>
      rw [back]
      exact .next h rfl

/-- A place among `size` elements of the code from `start` on, with an instruction there or further
behind among them. -/
def Within (x : Executable) (start size place : Nat) : Prop :=
  start ≤ place ∧ ∃ n insn, place ≤ n ∧ n < start + size ∧ x.items[n]? = some (.code insn)

/-- No way leads past a return if the jumps before it go to labels before it. -/
theorem le_of_flows {front body back : List Item}
    (hitems : x.items = front ++ (body ++ .code .ret :: back))
    (hbranch : ∀ insn label target, .code insn ∈ body → insn.branch? = some label →
      x.position? label = some target → front.length ≤ target ∧ target ≤ front.length + body.length)
    {place target : Nat} (hplace : front.length ≤ place ∧ place ≤ front.length + body.length)
    (h : x.Flows place target) :
    front.length ≤ target ∧ target ≤ front.length + body.length := by
  have hget : x.items[place]? = (body ++ .code .ret :: back)[place - front.length]? := by
    rw [hitems, List.getElem?_append_right hplace.1]
  rcases Nat.lt_or_eq_of_le hplace.2 with hlt | rfl
  · -- before the return: control goes on to the next element, or to a label
    rw [List.getElem?_append_left (by omega)] at hget
    cases h with
    | next => omega
    | branch hitem hlabel htarget =>
        rw [hget] at hitem
        exact hbranch _ _ _ (List.mem_of_getElem? hitem) hlabel htarget
  · -- at the return: there is no way on
    have hret : x.items[front.length + body.length]? = some (.code .ret) := by
      rw [hget, Nat.add_sub_cancel_left, List.getElem?_append_right (Nat.le_refl _), Nat.sub_self]
      rfl
    cases h with
    | next hitem hfall =>
        rw [hret] at hitem
        cases hitem
        cases hfall
    | branch hitem hlabel htarget =>
        rw [hret] at hitem
        cases hitem
        cases hlabel

end Executable

/-! ## The code of a function -/

section Blocks

variable {platform : Platform} {program : Program} {f : Function} {parts : List (List Item)}
  {block : List Item}

/-- The instructions of a function that do not go straight on: jumps to the targets of its jump
statements, calls of functions and of services, and returns. -/
inductive Departs (platform : Platform) (program : Program) (f : Function) :
    Instruction → Prop where
  | branch {k : Nat} {s : Statement} {target : UInt64} {insn : Instruction}
      (hk : f.body[k]? = some s) (hs : s.jumpTarget? = some target)
      (hle : target.toNat ≤ f.body.size)
      (hinsn : insn.branch? = some (statementLabel f.name target.toNat)) :
      Departs platform program f insn
  | function {g : Function} (hg : g ∈ program.functions) :
      Departs platform program f (.call (platform.symbol g.name))
  | service (service : Intrinsic) :
      Departs platform program f (.call (platform.symbol service.symbol))
  | ret : Departs platform program f .ret

/-- The call is the one instruction of a call sequence that does not go straight on. -/
theorem eq_call_of_mem {symbol : String} {arity : Nat} {returnsValue : Bool} {insn : Instruction}
    (h : insn ∈ callSequence symbol arity returnsValue) (hstraight : insn.straight = false) :
    insn = .call symbol := by
  rw [callSequence_eq] at h
  rcases List.mem_append.1 h with hcopy | h
  · rw [Executable.straight_copiesCode arity insn hcopy] at hstraight
    cases hstraight
  · rcases List.mem_cons.1 h with rfl | h
    · rfl
    · rcases List.mem_append.1 h with hrelease | hpush
      · rw [Executable.straight_releaseCode arity insn hrelease] at hstraight
        cases hstraight
      · split at hpush
        · cases List.mem_singleton.1 hpush
          cases hstraight
        · cases hpush

/-- Behind the instruction that fetches the value, a return leaves and returns. -/
theorem eq_ret_of_mem {first insn : Instruction} (h : insn ∈ first :: epilogue)
    (hfirst : first.straight = true) (hstraight : insn.straight = false) : insn = .ret := by
  simp only [epilogue, List.mem_cons, List.not_mem_nil, or_false] at h
  rcases h with rfl | rfl | rfl
  · rw [hfirst] at hstraight
    cases hstraight
  · cases hstraight
  · rfl

/-- What departs in the code of a statement. -/
theorem departs_of_lowerStatement {offsets : Std.TreeMap String Int} {k : Nat} {s : Statement}
    {code : List Instruction} {insn : Instruction} (hk : f.body[k]? = some s)
    (h : lowerStatement platform program f offsets k s = .ok code) (hinsn : insn ∈ code)
    (hstraight : insn.straight = false) : Departs platform program f insn := by
  cases s with
  | jump target =>
      obtain ⟨label, hlabel, h⟩ := bind_eq_ok.1 h
      cases h
      obtain ⟨hle, rfl⟩ := jumpLabel_eq_ok hlabel
      rw [List.mem_singleton.1 hinsn]
      exact .branch hk rfl hle rfl
  | jumpIfZero target =>
      obtain ⟨label, hlabel, h⟩ := bind_eq_ok.1 h
      cases h
      obtain ⟨hle, rfl⟩ := jumpLabel_eq_ok hlabel
      simp only [List.mem_cons, List.not_mem_nil, or_false] at hinsn
      rcases hinsn with rfl | rfl | rfl
      · cases hstraight
      · cases hstraight
      · exact .branch hk rfl hle rfl
  | call callee =>
      cases callee with
      | intrinsic service =>
          cases h
          rw [eq_call_of_mem hinsn hstraight]
          exact .service service
      | function declaration =>
          obtain ⟨g, hg, -, rfl⟩ := lowerCall_function_eq_ok h
          rw [eq_call_of_mem hinsn hstraight, ← name_of_function? hg]
          exact .function (List.mem_of_find?_eq_some hg)
  | returnZero | returnTop =>
      cases h
      rw [eq_ret_of_mem hinsn rfl hstraight]
      exact .ret
  | nop | push value | load name | store name | negate | binary op | pop | prepareArguments =>
      rw [straight_lowerStatement h ⟨rfl, rfl, fun _ => Statement.noConfusion⟩ insn hinsn]
        at hstraight
      cases hstraight

/-- What departs in the code of a function. -/
theorem Block.departs (h : Block platform program f parts block) {insn : Instruction}
    (hinsn : .code insn ∈ block) (hstraight : insn.straight = false) :
    Departs platform program f insn := by
  generalize hcode : Item.code insn = item at hinsn
  cases h.element hinsn with
  | opening hprologue =>
      cases hcode
      rw [Executable.straight_prologue _ insn hprologue] at hstraight
      cases hstraight
  | code hk hlower hmem =>
      cases hcode
      exact departs_of_lowerStatement hk hlower hmem hstraight
  | closing hreturn =>
      cases hcode
      rw [eq_ret_of_mem hreturn rfl hstraight]
      exact .ret
  | globl | symbol | label | ending => cases hcode

/-- A body whose end is not reached ends in a return statement. -/
theorem exists_last_return {body : Body} (h : needsImplicitReturn body = false) :
    ∃ k s, body[k]? = some s ∧ k + 1 = body.size ∧ s.isReturn = true := by
  have hsize : body.size ≠ 0 := fun h0 => by
    rw [needsImplicitReturn_of_empty h0.symm] at h
    cases h
  have hlt : body.size - 1 < body.size := by omega
  have hget := Array.getElem?_eq_getElem hlt
  refine ⟨body.size - 1, body[body.size - 1], hget, by omega, ?_⟩
  by_contra hreturn
  rw [needsImplicitReturn_of_last hget (by simpa using hreturn) (by omega)] at h
  cases h

/-- A block split at a return, with nothing behind it, or the label of an end that nothing leads
to. -/
structure ReturnsAt (f : Function) (block front back : List Item) : Prop where
  block_eq : block = front ++ .code .ret :: back
  back_eq : back = [] ∨ back = [.label (statementLabel f.name f.body.size) none] ∧
    needsImplicitReturn f.body = false

/-- The last instruction of a function is a return. -/
theorem Block.returnsAt (h : Block platform program f parts block) :
    ∃ front back, ReturnsAt f block front back := by
  cases hneeds : needsImplicitReturn f.body with
  | true =>
      have hclosing : closing f =
          [.label (statementLabel f.name f.body.size) (some Statement.returnZero.text),
            .code (.mov (.immediate 0) (reg .eax)), .code .leave] ++ [.code .ret] := by
        rw [closing, if_pos hneeds]
        rfl
      have hblock := h.items_eq
      rw [hclosing, ← List.append_assoc] at hblock
      exact ⟨_, [], ⟨hblock, .inl rfl⟩⟩
  | false =>
      have hclosing : closing f = [.label (statementLabel f.name f.body.size) none] := by
        rw [closing, if_neg (by rw [hneeds]; exact Bool.false_ne_true)]
      -- the code of the last statement ends in a return
      obtain ⟨k, s, hk, hend, hs⟩ := exists_last_return hneeds
      obtain ⟨code, hcode, hpart⟩ := h.block_eq k s hk
      obtain ⟨first, rfl⟩ : ∃ first, code = first :: epilogue := by
        cases s with
        | returnZero | returnTop =>
            cases hcode
            exact ⟨_, rfl⟩
        | _ => cases hs
      have hnone : parts.drop (k + 1) = [] :=
        List.drop_eq_nil_of_le (by rw [h.length_eq, hend])
      refine ⟨[.directive (".globl " ++ platform.symbol f.name),
        .label (platform.symbol f.name) none] ++
        (prologue (Frame.layout f.declaration f.body)).map .code ++ (parts.take k).flatten ++
        [.label (statementLabel f.name k) (some s.text), .code first, .code .leave], _,
        ⟨?_, .inr ⟨rfl, hneeds⟩⟩⟩
      rw [h.items_eq, hclosing, flatten_split hpart, hnone]
      simp [epilogue]

/-- The symbol of a function lies before the return, behind one directive. -/
theorem Block.symbol_before_ret (h : Block platform program f parts block) {front back : List Item}
    (hret : ReturnsAt f block front back) :
    ∃ item mid, front = [item] ++ .label (platform.symbol f.name) none :: mid := by
  have heq := hret.block_eq.symm.trans h.items_eq
  simp only [List.append_assoc, List.cons_append, List.nil_append] at heq
  cases front with
  | nil => cases (List.cons.inj heq).1
  | cons item front =>
      have htail := (List.cons.inj heq).2
      cases front with
      | nil => cases (List.cons.inj htail).1
      | cons item' front => exact ⟨item, front, by rw [(List.cons.inj htail).1]; rfl⟩

/-- A label that is jumped to lies before the return. -/
theorem Block.label_before_ret (h : Block platform program f parts block) {front back : List Item}
    (hret : ReturnsAt f block front back) {k : Nat} (hk : k ≤ f.body.size)
    (hneeds : k = f.body.size → needsImplicitReturn f.body = true) :
    ∃ before mid comment, front = before ++ .label (statementLabel f.name k) comment :: mid := by
  obtain ⟨before, after, comment, hlabel⟩ := h.label hk
  rcases List.append_eq_append_iff.1 (hret.block_eq.symm.trans hlabel) with
    ⟨mid, -, hmid⟩ | ⟨mid, hfront, hmid⟩
  · -- behind the return there is the label of an end that nothing jumps to
    cases mid with
    | nil => cases hmid
    | cons item mid =>
        have hmem : Item.label (statementLabel f.name k) comment ∈ back := by
          rw [(List.cons.inj hmid).2]
          exact List.mem_append_right mid List.mem_cons_self
        rcases hret.back_eq with hnil | ⟨hend, himplicit⟩
        · rw [hnil] at hmem
          cases hmem
        · rw [hend, List.mem_singleton] at hmem
          rw [hneeds (statementLabel_inj (Item.label.inj hmem).1).2] at himplicit
          cases himplicit
  · cases mid with
    | nil => cases hmid
    | cons item mid =>
        cases hmid
        exact ⟨before, mid, comment, hfront⟩

end Blocks

/-! ## Programs -/

/-- The code of a function refers to itself and to what programs are linked with: its jumps to its
own labels, each with an instruction of the function behind it, and its calls to symbols of
functions, which the code defines, and of services. Its last instruction is a return. -/
structure Enclosed (platform : Platform) (program : Program) (f : Function)
    (items block : List Item) : Prop where
  branch : ∀ insn label, .code insn ∈ block → insn.branch? = some label →
    (∃ k ≤ f.body.size, label = statementLabel f.name k) ∧
      ∃ before comment after, block = before ++ .label label comment :: after ∧
        instructionsOf after ≠ []
  call : ∀ symbol, .code (.call symbol) ∈ block →
    (∃ g ∈ program.functions, symbol = platform.symbol g.name ∧ symbol ∈ labelNames items) ∨
      ∃ service : Intrinsic, symbol = platform.symbol service.symbol
  last_eq : (instructionsOf block).getLast? = some .ret

/-- Control that enters at a symbol keeps to `size` elements from `start` on, and finds an
instruction there: on all ways through the code, and in all runs of the activation. -/
structure Confined (x : Executable) (symbol : String) (start size : Nat) : Prop where
  entry : ∃ place, x.position? symbol = some place
  flows : ∀ entry place, x.position? symbol = some entry →
    Relation.ReflTransGen x.Flows entry place → x.Within start size place
  steps : ∀ c d : Cpu, x.position? symbol = some c.pc →
    Relation.ReflTransGen x.LocalStep c d → x.Within start size d.pc

/-- Where the code ends in a label, no way from the symbol leads there. -/
theorem Confined.succ_lt_length {x : Executable} {symbol name : String} {comment : Option String}
    {start size entry place : Nat} (h : Confined x symbol start size)
    (hlast : x.items.getLast? = some (.label name comment))
    (hentry : x.position? symbol = some entry) (hreach : Relation.ReflTransGen x.Flows entry place) :
    place + 1 < x.items.length := by
  obtain ⟨-, n, insn, hle, -, hinsn⟩ := h.flows entry place hentry hreach
  have hlt := (List.getElem?_eq_some_iff.1 hinsn).1
  -- the last element is a label, so the instruction lies before it
  rcases Nat.lt_or_eq_of_le (Nat.succ_le_of_lt hlt) with hlt | heq
  · exact Nat.lt_of_le_of_lt (Nat.succ_le_succ hle) hlt
  · rw [List.getLast?_eq_getElem?, ← heq, Nat.succ_sub_one] at hlast
    cases hlast.symm.trans hinsn

section Programs

variable {platform : Platform} {program : Program} {f : Function} {items block : List Item}

theorem instructionsOf_append (front back : List Item) :
    instructionsOf (front ++ back) = instructionsOf front ++ instructionsOf back :=
  List.filterMap_append

theorem code_mem_bare {insn : Instruction} (h : .code insn ∈ items.map Item.bare) :
    .code insn ∈ items := by
  obtain ⟨item, hitem, hbare⟩ := List.mem_map.1 h
  cases item with
  | code insn' =>
      cases hbare
      exact hitem
  | directive text | label name comment => cases hbare

theorem straight_of_branch? {insn : Instruction} {label : String}
    (h : insn.branch? = some label) : insn.straight = false := by
  cases insn <;> first | rfl | cases h

/-- The jumps of a function lead to its own labels, before its return. -/
theorem label_of_branch {parts : List (List Item)} (h : Block platform program f parts block)
    {front back : List Item} (hret : ReturnsAt f block front back) {insn : Instruction}
    {label : String} (hinsn : .code insn ∈ block) (hlabel : insn.branch? = some label) :
    (∃ k ≤ f.body.size, label = statementLabel f.name k) ∧
      ∃ before mid comment, front = before ++ .label label comment :: mid := by
  cases h.departs hinsn (straight_of_branch? hlabel) with
  | branch hk hs hle hinsn =>
      cases hlabel.symm.trans hinsn
      refine ⟨⟨_, hle, rfl⟩, h.label_before_ret hret hle fun hend => ?_⟩
      exact needsImplicitReturn_of_target hk hs hend
  | function | service | ret => cases hlabel

theorem enclosed_of_block {parts : List (List Item)}
    (hitems : compileProgram platform program = .ok items)
    (h : Block platform program f parts block) : Enclosed platform program f items block := by
  obtain ⟨front, back, hret⟩ := h.returnsAt
  refine ⟨fun insn label hinsn hlabel => ?_, fun symbol hcall => ?_, ?_⟩
  · obtain ⟨hown, before, mid, comment, rfl⟩ := label_of_branch h hret hinsn hlabel
    refine ⟨hown, before, comment, mid ++ .code .ret :: back, ?_, ?_⟩
    · rw [hret.block_eq, List.append_assoc, List.cons_append]
    · rw [instructionsOf_append]
      exact List.append_ne_nil_of_right_ne_nil _ (List.cons_ne_nil _ _)
  · generalize hinsn : Instruction.call symbol = insn at hcall
    cases h.departs hcall (by rw [← hinsn]; rfl) with
    | branch hk hs hle hlabel =>
        rw [← hinsn] at hlabel
        cases hlabel
    | @function g hg =>
        cases hinsn
        refine .inl ⟨g, hg, rfl, ?_⟩
        rw [labelNames_compileProgram hitems]
        exact List.mem_flatMap.2 ⟨g, hg, List.mem_cons_self⟩
    | service service =>
        cases hinsn
        exact .inr ⟨service, rfl⟩
    | ret => cases hinsn
  · -- behind the return there is at most a label
    have hnone : instructionsOf back = [] := by
      rcases hret.back_eq with rfl | ⟨rfl, -⟩ <;> rfl
    rw [hret.block_eq, List.append_cons, instructionsOf_append, hnone, List.append_nil,
      instructionsOf_append]
    exact List.getLast?_concat

/-- Code whose elements have lost their comments, each with more code behind it. -/
def shown (more : Item → List Item) (items : List Item) : List Item :=
  items.flatMap fun item => item.bare :: more item

section Shown

variable {x : Executable} {parts : List (List Item)} {front body back before mid tail : List Item}
  {name : String} {comment : Option String} {more : Item → List Item}

theorem shown_append (more : Item → List Item) (front back : List Item) :
    shown more (front ++ back) = shown more front ++ shown more back :=
  List.flatMap_append

theorem shown_cons (more : Item → List Item) (item : Item) (items : List Item) :
    shown more (item :: items) = item.bare :: (more item ++ shown more items) :=
  List.flatMap_cons

/-- A label has its place behind what is shown in front of it. -/
theorem position?_shown (hnodup : (labelNames x.items).Nodup)
    (hitems : x.items = front ++ (shown more body ++ back))
    (hbody : body = before ++ .label name comment :: mid) :
    x.position? name = some (front.length + (shown more before).length) ∧
      (shown more before).length ≤ (shown more body).length := by
  rw [hbody, shown_append, shown_cons] at hitems ⊢
  have hlabel : x.items = (front ++ shown more before) ++ .label name none ::
      (more (.label name comment) ++ shown more mid ++ back) := by
    rw [hitems]
    simp [Item.bare]
  rw [position?_eq hnodup hlabel, List.length_append, List.length_append]
  exact ⟨rfl, Nat.le_add_right _ _⟩

/-- The jumps in front of the return lead to places in front of it, if no jump is shown behind the
elements. -/
theorem inside_of_branch (h : Block x.platform program f parts block)
    (hret : ReturnsAt f block body tail)
    (hmore : ∀ insn, .code insn ∈ block.flatMap more → insn.branch? = none)
    (hnodup : (labelNames x.items).Nodup) (hitems : x.items = front ++ (shown more body ++ back))
    {insn : Instruction} {label : String} {target : Nat} (hinsn : .code insn ∈ shown more body)
    (hlabel : insn.branch? = some label) (htarget : x.position? label = some target) :
    front.length ≤ target ∧ target ≤ front.length + (shown more body).length := by
  obtain ⟨item, hitem, hinsn⟩ := List.mem_flatMap.1 hinsn
  have hmem : item ∈ block := by
    rw [hret.block_eq]
    exact List.mem_append_left _ hitem
  rcases List.mem_cons.1 hinsn with hbare | hinsn
  · -- an own jump goes to an own label, which is shown in front of the return
    have hown : .code insn ∈ block := code_mem_bare (List.mem_map.2 ⟨item, hmem, hbare.symm⟩)
    obtain ⟨-, before, mid, comment, hbody⟩ := label_of_branch h hret hown hlabel
    obtain ⟨hplace, hle⟩ := position?_shown hnodup hitems hbody
    cases hplace.symm.trans htarget
    omega
  · rw [hmore insn (List.mem_flatMap.2 ⟨item, hmem, hinsn⟩)] at hlabel
    cases hlabel

/-- Control stays in the code of the function it entered, whatever is shown behind the elements of
the code, as long as it does not jump and no label is there twice. -/
theorem confined_of_block (h : Block x.platform program f parts block)
    (hmore : ∀ insn, .code insn ∈ block.flatMap more → insn.branch? = none)
    (hnodup : (labelNames x.items).Nodup)
    (hitems : x.items = front ++ (shown more block ++ back)) :
    Confined x (x.platform.symbol f.name) front.length (shown more block).length := by
  obtain ⟨body, tail, hret⟩ := h.returnsAt
  have hblock : shown more block =
      shown more body ++ .code .ret :: (more (.code .ret) ++ shown more tail) := by
    rw [hret.block_eq, shown_append, shown_cons]
    rfl
  have hplaced : x.items = front ++ (shown more body ++
      .code .ret :: (more (.code .ret) ++ shown more tail ++ back)) := by
    rw [hitems, hblock, List.append_assoc, List.cons_append]
  obtain ⟨item, mid, hbody⟩ := h.symbol_before_ret hret
  obtain ⟨hsymbol, hstart⟩ := position?_shown hnodup hplaced hbody
  have hflows : ∀ entry place, x.position? (x.platform.symbol f.name) = some entry →
      Relation.ReflTransGen x.Flows entry place →
        x.Within front.length (shown more block).length place := by
    intro entry place hentry hreach
    cases hsymbol.symm.trans hentry
    have hinside : front.length ≤ place ∧ place ≤ front.length + (shown more body).length := by
      induction hreach with
      | refl => omega
      | tail _ hflow ih =>
          exact Executable.le_of_flows hplaced
            (fun _ _ _ => inside_of_branch h hret hmore hnodup hplaced) ih hflow
    -- the return is the instruction that is found
    refine ⟨hinside.1, front.length + (shown more body).length, .ret, hinside.2, ?_, ?_⟩
    · rw [hblock, List.length_append, List.length_cons]
      omega
    · rw [hplaced, List.getElem?_append_right (Nat.le_add_right _ _), Nat.add_sub_cancel_left,
        List.getElem?_append_right (Nat.le_refl _), Nat.sub_self]
      rfl
  refine ⟨⟨_, hsymbol⟩, hflows, fun c d hc hreach => hflows c.pc d.pc hc ?_⟩
  exact hreach.lift Cpu.pc fun _ _ => Executable.flows_of_localStep

end Shown

/-- The code of a function as it is read from a text: its jumps lead to its own labels, or stand in
what its comments spill. If none stands there, and no label is in the text twice, control that
enters at the symbol of the function stays in the code of the function. -/
structure EnclosedInText (platform : Platform) (f : Function) (code front block : List Item) :
    Prop where
  branch : ∀ insn label, .code insn ∈ block.flatMap Item.spelled → insn.branch? = some label →
    (∃ k ≤ f.body.size, label = statementLabel f.name k) ∨ .code insn ∈ block.flatMap Item.spilled
  confined : (labelNames code).Nodup →
    (∀ insn, .code insn ∈ block.flatMap Item.spilled → insn.branch? = none) →
      ∀ runtime : Runtime, Confined ⟨code, platform, runtime⟩ (platform.symbol f.name)
        (front.flatMap Item.spelled).length (block.flatMap Item.spelled).length

theorem enclosedInText_of_block {parts : List (List Item)}
    (h : Block platform program f parts block) {code front back : List Item}
    (hcode : code = front.flatMap Item.spelled ++
      (block.flatMap Item.spelled ++ back.flatMap Item.spelled)) :
    EnclosedInText platform f code front block := by
  refine ⟨fun insn label hinsn hlabel => ?_, fun hnodup hmore runtime => ?_⟩
  · obtain ⟨item, hitem, hinsn⟩ := List.mem_flatMap.1 hinsn
    rcases List.mem_cons.1 hinsn with hbare | hinsn
    · obtain ⟨body, tail, hret⟩ := h.returnsAt
      have hown : .code insn ∈ block := code_mem_bare (List.mem_map.2 ⟨item, hitem, hbare.symm⟩)
      exact .inl (label_of_branch h hret hown hlabel).1
    · exact .inr (List.mem_flatMap.2 ⟨item, hitem, hinsn⟩)
  · have hplaced : (⟨code, platform, runtime⟩ : Executable).items = front.flatMap Item.spelled ++
        (shown Item.spilled block ++ back.flatMap Item.spelled) := hcode
    exact confined_of_block h hmore hnodup hplaced

/-- Control flow is closed in every function. The code of a function jumps to its own labels only,
always with an instruction of the function behind them; it calls functions of the program and
services; its last instruction is a return. So from the symbol of a function no way through the
code, and no run of the function's activation on any machine, leads into the code of the next
function, or to where no instruction of the function follows. If functions have symbols for names,
this holds of the code that the text is read as unless comments spill a jump in the function, or a
label twice. Where the names can be spelled nothing is spilled. -/
theorem control_stays_in_function {text : String} (h : compile platform program = .ok text) :
    ∃ items, compileProgram platform program = .ok items ∧
      text = Listing.text (items.map Item.line) ∧
      (Spellable program → read? text = some (items.map Item.bare)) ∧
      ∀ f ∈ program.functions, ∃ front block back,
        lowerFunction platform program f = .ok block ∧ items = front ++ (block ++ back) ∧
        Enclosed platform program f items block ∧
        (∀ runtime : Runtime, Confined ⟨items.map Item.bare, platform, runtime⟩
          (platform.symbol f.name) front.length block.length) ∧
        ∀ code, (∀ g ∈ program.functions, isSymbol g.name.toList = true) →
          read? text = some code → EnclosedInText platform f code front block := by
  obtain ⟨items, hitems, rfl⟩ := code_of_compile h
  refine ⟨items, hitems, rfl, fun hspell => ?_, fun f hf => ?_⟩
  · exact read?_text (readable_compileProgram hspell hitems)
  · obtain ⟨front, block, back, parts, hblock, hparts, hsplit⟩ := exists_block hitems hf
    refine ⟨front, block, back, hblock, hsplit, enclosed_of_block hitems hparts,
      fun runtime => ?_, fun code hsymbols hread => ?_⟩
    · have hnodup : (labelNames (items.map Item.bare)).Nodup := by
        rw [labelNames_bare]
        exact nodup_labelNames hitems
      -- in the code itself there is nothing behind the elements
      have hbare : shown (fun _ => []) block = block.map Item.bare := List.map_eq_flatMap.symm
      have hplaced : (⟨items.map Item.bare, platform, runtime⟩ : Executable).items =
          front.map Item.bare ++ (shown (fun _ => []) block ++ back.map Item.bare) := by
        rw [hbare, hsplit, List.map_append, List.map_append]
      have hconfined := confined_of_block hparts (by simp) hnodup hplaced
      rw [hbare, List.length_map, List.length_map] at hconfined
      exact hconfined
    · obtain ⟨-, rfl⟩ := (read?_text_eq_some_iff
        (readable_bare_compileProgram hsymbols hitems)).1 hread
      have hplaced : items.flatMap Item.spelled = front.flatMap Item.spelled ++
          (block.flatMap Item.spelled ++ back.flatMap Item.spelled) := by
        rw [hsplit, List.flatMap_append, List.flatMap_append]
      exact enclosedInText_of_block hparts hplaced

/-- Functions that end in every way: with a return that is jumped past, with no statement at all,
with one that has no code, and with a return that closes the text. -/
def endings : Program :=
  ⟨[⟨⟨"main", []⟩, #[.call (.function ⟨"idle", []⟩), .jumpIfZero 3, .returnZero]⟩,
    ⟨⟨"idle", []⟩, #[]⟩, ⟨⟨"rest", []⟩, #[.nop]⟩, ⟨⟨"one", []⟩, #[.push 1, .returnTop]⟩], by decide⟩

/-- A routine that writes 1, kept in a variable meanwhile, and one that writes 2. -/
def crossing (name : String) : Program :=
  ⟨[⟨⟨"main", []⟩, #[.push 1, .store name, .load name, .call (.intrinsic .write), .returnZero]⟩,
    ⟨⟨"g", []⟩, #[.push 2, .call (.intrinsic .write), .returnZero]⟩], by simp [Function.name]⟩

/-- The text of the four ends in a label without an instruction behind it, and no way from the
symbol of the last function leads there. A comment that spills an instruction does not lead control
out of a function, if the instruction is no jump. -/
theorem last_label_not_reached :
    (∃ text items, compile .unix endings = .ok text ∧ read? text = some items ∧
      items.getLast? = some (.label "one_l2" none) ∧
      ∀ runtime place, Relation.ReflTransGen (Executable.Flows ⟨items, .unix, runtime⟩)
        ((Executable.position? ⟨items, .unix, runtime⟩ "one").getD 0) place →
          place + 1 < items.length) ∧
    ∃ (text : String) (code front block : List Item),
      compile .unix (crossing "x\npushl $7") = .ok text ∧ read? text = some code ∧
      block.flatMap Item.spilled =
        [.code (.push (.immediate 7)), .code (.push (.immediate 7))] ∧
      ∀ runtime, Confined ⟨code, .unix, runtime⟩ "main" (front.flatMap Item.spelled).length
        (block.flatMap Item.spelled).length := by
  obtain ⟨text, htext⟩ := exists_ok_of_toBool
    (by decide +kernel : (compile .unix endings).toBool = true)
  obtain ⟨items, hitems, -, hread, hconfined⟩ := control_stays_in_function htext
  have hsymbols : ∀ g ∈ (crossing "x\npushl $7").functions, isSymbol g.name.toList = true := by
    decide
  obtain ⟨text', items', htext', hitems', -, hread', hnodup⟩ :=
    exists_spelled_text .unix (crossing "x\npushl $7") hsymbols
      (fun items => (labelNames (items.flatMap Item.spelled)).Nodup)
      (by decide +kernel) (by decide +kernel)
  obtain ⟨_, -, -, -, hconfined'⟩ := control_stays_in_function htext'
  refine ⟨⟨text, items.map Item.bare, htext, hread (by decide), ?_⟩,
    text', items'.flatMap Item.spelled, ?_⟩
  · have hlast : (compileProgram .unix endings).toOption.any fun items =>
        (items.map Item.bare).getLast? = some (.label "one_l2" none) := by
      decide +kernel
    rw [hitems] at hlast
    simp only [Except.toOption, Option.any_some, decide_eq_true_eq] at hlast
    refine ⟨hlast, fun runtime place hreach => ?_⟩
    obtain ⟨front, block, back, -, -, -, hstays, -⟩ :=
      hconfined ⟨⟨"one", []⟩, #[.push 1, .returnTop]⟩ (by decide)
    obtain ⟨entry, hentry⟩ := (hstays runtime).entry
    have hname : Executable.position? ⟨items.map Item.bare, .unix, runtime⟩ "one" = some entry :=
      hentry
    rw [hname] at hreach
    exact (hstays runtime).succ_lt_length hlast hentry hreach
  · obtain ⟨front, block, back, hblock, -, -, -, htexts⟩ :=
      hconfined' _ (List.mem_cons_self : _ ∈ (crossing "x\npushl $7").functions)
    have hpushed : (lowerFunction .unix (crossing "x\npushl $7")
        ⟨⟨"main", []⟩, #[.push 1, .store "x\npushl $7", .load "x\npushl $7",
          .call (.intrinsic .write), .returnZero]⟩).toOption.any fun block =>
        block.flatMap Item.spilled =
          [.code (.push (.immediate 7)), .code (.push (.immediate 7))] := by
      decide +kernel
    rw [hblock] at hpushed
    simp only [Except.toOption, Option.any_some, decide_eq_true_eq] at hpushed
    refine ⟨front, block, htext', hread', hpushed, ?_⟩
    refine (htexts _ hsymbols hread').confined (of_decide_eq_true hnodup) fun insn hinsn => ?_
    rw [hpushed] at hinsn
    simp only [List.mem_cons, Item.code.injEq, List.not_mem_nil, or_false, or_self] at hinsn
    rw [hinsn]
    rfl

/-- A name with a line feed leads control out of its function. The comment of the first routine
spills a jump to the second one; the jump is taken, and the text writes 2 where the reference
machine writes 1. -/
theorem jump_leads_out :
    (crossing "x\n    jmp g_l0").run [] = .ok [1] ∧
      ∃ text code c, compile .unix (crossing "x\n    jmp g_l0") = .ok text ∧
        read? text = some code ∧
        Executable.position? ⟨code, .unix, quietRuntime⟩ "main" = some 2 ∧
        code[9]? = some (.code (.jmp (statementLabel "g" 0))) ∧
        Executable.position? ⟨code, .unix, quietRuntime⟩ "g" = some 25 ∧
        Executable.position? ⟨code, .unix, quietRuntime⟩ (statementLabel "g" 0) = some 28 ∧
        Relation.ReflTransGen (Executable.Flows ⟨code, .unix, quietRuntime⟩) 2 28 ∧
        Executable.Steps ⟨code, .unix, quietRuntime⟩ (zeroCaller 2 []) c ∧
        c.pc = 1000 ∧ c.output = [2] := by
  obtain ⟨text, items, htext, -, -, hread, hcheck⟩ :=
    exists_spelled_text .unix (crossing "x\n    jmp g_l0") (by decide)
      (fun items =>
        let code := items.flatMap Item.spelled
        let x : Executable := ⟨code, .unix, quietRuntime⟩
        x.position? "main" = some 2 ∧ code[9]? = some (.code (.jmp (statementLabel "g" 0))) ∧
          x.position? "g" = some 25 ∧ x.position? (statementLabel "g" 0) = some 28 ∧
          (∀ k < 7, (code[2 + k]?).any Item.fallsThrough = true) ∧
          (x.after? 19 (zeroCaller 2 [])).any fun c => c.pc = 1000 ∧ c.output = [2])
      (by decide +kernel) (by decide +kernel)
  simp only [Option.any_eq_true, decide_eq_true_eq] at hcheck
  obtain ⟨hmain, hjump, hg, htarget, hfalls, c, hc, hpc, houtput⟩ := hcheck
  refine ⟨by decide +kernel, text, _, c, htext, hread, hmain, hjump, hg, htarget, ?_,
    Executable.steps_of_after? hc, hpc, houtput⟩
  -- control goes straight on from the symbol to the jump
  have hstraight : ∀ k ≤ 7, Relation.ReflTransGen
      (Executable.Flows ⟨items.flatMap Item.spelled, .unix, quietRuntime⟩) 2 (2 + k) := by
    intro k hk
    induction k with
    | zero => exact .refl
    | succ k ih =>
        obtain ⟨item, hitem, hfall⟩ := hfalls k hk
        exact (ih (Nat.le_of_succ_le hk)).tail (.next hitem hfall)
  exact (hstraight 7 (Nat.le_refl _)).tail (.branch hjump rfl htarget)

end Programs

end StackCodegen.Native
