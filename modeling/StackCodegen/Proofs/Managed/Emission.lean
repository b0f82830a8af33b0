import StackCodegen.Managed.Compile
import StackCodegen.Proofs.ClassFile.ConstantUses
import StackCodegen.Proofs.ClassFile.Typing
import StackCodegen.Proofs.Managed.Slots

/-!
# The shape of lowered code

What the lowering of a routine emits, with the constants that its instructions use. `Emits` relates
a statement to its instructions and to the labels they take, `EmitsAll` the statements of a body to
their blocks, each behind the binding of its label. A body's code is its opening, the zeroing of the
variables, the blocks, and a `return` behind the last label (`Emitted`).

The constants are known in advance (`constantsOf`, `mainConstants`), and so is what may keep a
statement from being lowered, other than want of room for them (`Unlowered`). There is one statement
for each function of the lowering: what it asks for, what it emits, and why it fails.

Main statements: a lowered body is emitted, in the final pool of its class (`asks_lowerMain`); no
label is bound twice (`Emitted.nodup_boundLabels`).
-/

set_option autoImplicit false

namespace StackCodegen.Managed

open ClassFile
open ClassFile.ConstantPool (Asks Call Interning ProvidesAll)

/-! ## Constants -/

/-- The constants that the constructor uses. -/
def constructorConstants : List Call := [.methodRef objectClass "<init>" "()V"]

/-- The constants that the opening of the reader uses, in order. -/
def openingConstants : List Call :=
  [.classRef bufferedReaderClass, .classRef inputStreamReaderClass,
    .fieldRef systemClass "in" "Ljava/io/InputStream;",
    .methodRef inputStreamReaderClass "<init>" "(Ljava/io/InputStream;)V",
    .methodRef bufferedReaderClass "<init>" "(Ljava/io/Reader;)V"]

/-- The constant that a pushed integer needs, where it fits no operand of two bytes. -/
def integerConstants (value : Int32) : List Call :=
  if -32768 ≤ value.toInt ∧ value.toInt ≤ 32767 then [] else [.integer value]

/-- The constants that the instructions of a statement use, in order. -/
def constantsOf : Statement → List Call
  | .push value => integerConstants value
  | .call (.intrinsic .read) =>
    [.methodRef bufferedReaderClass "readLine" "()Ljava/lang/String;",
      .methodRef integerClass "parseInt" "(Ljava/lang/String;)I"]
  | .call (.intrinsic .write) =>
    [.fieldRef systemClass "out" "Ljava/io/PrintStream;",
      .methodRef printStreamClass "println" "(I)V"]
  | _ => []

/-- The constants that the main method of a routine uses, in order. -/
def mainConstants (body : Body) : List Call :=
  openingConstants ++ body.toList.flatMap constantsOf

/-! ## Relations -/

/-- Integers of one byte. -/
abbrev FitsByte (value : Int32) : Prop := -128 ≤ value.toInt ∧ value.toInt ≤ 127

/-- Integers of two bytes. -/
abbrev FitsShort (value : Int32) : Prop := -32768 ≤ value.toInt ∧ value.toInt ≤ 32767

/-- The instruction that pushes a constant, in the shortest of five forms. -/
inductive Pushes (pool : StoredPool) (value : Int32) : Instruction → Prop where
  | iconst {op} (h : Opcode.iconst? value = some op) : Pushes pool value (.plain op)
  | bipush (hnone : Opcode.iconst? value = none) (h : FitsByte value) :
      Pushes pool value (.byte .bipush value.toInt8.toUInt8)
  | sipush (hbyte : ¬ FitsByte value) (h : FitsShort value) :
      Pushes pool value (.short .sipush value.toInt16.toUInt16)
  | ldc {index : UInt8} (hshort : ¬ FitsShort value)
      (h : pool.integer? index.toUInt16 = some value) : Pushes pool value (.byte .ldc index)
  | ldcW {index : UInt16} (hshort : ¬ FitsShort value) (hlarge : 255 < index.toNat)
      (h : pool.integer? index = some value) : Pushes pool value (.short .ldcW index)

/-- The use of a library member. -/
abbrev useOf (m : Member) (index : UInt16) : Instruction :=
  .member m.opcode index m.stackEffect.1 m.stackEffect.2

/-- The instructions of a statement of a routine of `length` statements, with the first label that
is free before and after. -/
inductive Emits (pool : StoredPool) (slots : List (String × UInt16)) (length : Nat) :
    Statement → Nat → List Instruction → Nat → Prop where
  | nop {next} : Emits pool slots length .nop next [.plain .nop] next
  | push {next value insn} (h : Pushes pool value insn) :
      Emits pool slots length (.push value) next [insn] next
  | load {next name slot} (h : (name, slot) ∈ slots) :
      Emits pool slots length (.load name) next [.slot .iload slot] next
  | store {next name slot} (h : (name, slot) ∈ slots) :
      Emits pool slots length (.store name) next [.slot .istore slot] next
  | negate {next} : Emits pool slots length .negate next [.plain .ineg] next
  | arithmetic {next op opcode} (h : arithmetic? op = some opcode) :
      Emits pool slots length (.binary op) next [.plain opcode] next
  | comparison {next op branch} (h : otherwiseBranch? op = some branch) :
      Emits pool slots length (.binary op) next (Managed.comparison branch next (next + 1))
        (next + 2)
  | jump {next target} (h : target.toNat ≤ length) :
      Emits pool slots length (.jump target) next [.jump .goto target.toNat] next
  | jumpIfZero {next target} (h : target.toNat ≤ length) :
      Emits pool slots length (.jumpIfZero target) next
        [.plain .iconst0, .jump .ifIcmpeq target.toNat] next
  | read {next line parse} (hline : pool.member? line = some .readLine)
      (hparse : pool.member? parse = some .parseInt) :
      Emits pool slots length (.call (.intrinsic .read)) next
        [.slot .aload readerSlot, useOf .readLine line, useOf .parseInt parse] next
  | write {next out print} (hout : pool.member? out = some .stdout)
      (hprint : pool.member? print = some .println) :
      Emits pool slots length (.call (.intrinsic .write)) next
        [useOf .stdout out, .plain .swap, useOf .println print] next
  | pop {next} : Emits pool slots length .pop next [.plain .pop] next

/-- The blocks of the statements from `index` on. -/
inductive EmitsAll (pool : StoredPool) (slots : List (String × UInt16)) (length : Nat) :
    Nat → List Statement → Nat → List (List Instruction) → Nat → Prop where
  | nil {index next} : EmitsAll pool slots length index [] next [] next
  | cons {index statement statements next mid last block blocks}
      (head : Emits pool slots length statement next block mid)
      (tail : EmitsAll pool slots length (index + 1) statements mid blocks last) :
      EmitsAll pool slots length index (statement :: statements) next
        ((.bind index :: block) :: blocks) last

/-- The instructions that open the reader. -/
inductive Opens (pool : StoredPool) : List Instruction → Prop where
  | intro {reader decoder stdin initDecoder initReader}
      (hreader : pool.allocated? reader = some .reader)
      (hdecoder : pool.allocated? decoder = some .decoder)
      (hstdin : pool.member? stdin = some .stdin)
      (hinitDecoder : pool.member? initDecoder = some .initDecoder)
      (hinitReader : pool.member? initReader = some .initReader) :
      Opens pool [.short .new reader, .plain .dup, .short .new decoder, .plain .dup,
        useOf .stdin stdin, useOf .initDecoder initDecoder, useOf .initReader initReader,
        .slot .astore readerSlot]

/-- The parts of the code of a body. -/
structure Emitted (pool : StoredPool) (slots : List (String × UInt16)) (body : Body)
    (opening : List Instruction) (blocks : List (List Instruction)) (code : SymbolicCode) :
    Prop where
  opens : Opens pool opening
  blocks_emitted :
    EmitsAll pool slots body.size 0 body.toList (body.size + 1) blocks code.labelCount
  code_eq : code.instructions.toList =
    opening ++ zeroVariables slots ++ blocks.flatten ++ [.bind body.size, .plain .returnVoid]

/-! ## Lowering emits -/

/-- Recogniser for the statements that the target provides. -/
def isProvided : Statement → Bool
  | .call (.function _) | .returnZero | .returnTop | .prepareArguments => false
  | _ => true

/-- What keeps a statement of a routine of `length` statements from being lowered, other than want
of room. -/
inductive Unlowered (slots : List (String × UInt16)) (length index : Nat) :
    Statement → CodegenError → Prop where
  | unprovided {statement} (h : isProvided statement = false) :
      Unlowered slots length index statement (.unsupported .managed routineName index statement)
  | unknown {statement name} (h : statement.variableName? = some name)
      (hfree : ∀ slot, (name, slot) ∉ slots) :
      Unlowered slots length index statement (.unresolvedVariable routineName name)
  | outside {statement} {target : UInt64} (h : statement.jumpTarget? = some target)
      (hpast : length < target.toNat) :
      Unlowered slots length index statement
        (.unresolvedJumpTarget routineName index target length)

/-- What keeps one of the statements from `index` on from being lowered. -/
def UnloweredFrom (slots : List (String × UInt16)) (length index : Nat)
    (statements : List Statement) (e : CodegenError) : Prop :=
  ∃ k statement, statements[k]? = some statement ∧ Unlowered slots length (index + k) statement e

/-- An index up to 255 is kept in one byte. -/
theorem toUInt16_toUInt8 {index : UInt16} (h : index ≤ 255) : index.toUInt8.toUInt16 = index := by
  have h255 : index.toNat ≤ 255 := UInt16.le_iff_toNat_le.1 h
  apply UInt16.toNat_inj.1
  rw [UInt8.toNat_toUInt16, UInt16.toNat_toUInt8]
  exact Nat.mod_eq_of_lt (Nat.lt_succ_of_le h255)

theorem fitsByte_of_iconst? {value : Int32} {op : Opcode} (h : Opcode.iconst? value = some op) :
    FitsByte value := by
  unfold Opcode.iconst? at h
  unfold FitsByte
  repeat' split at h
  all_goals first
    | cases h; done
    | subst value
      decide

theorem fitsShort_of_fitsByte {value : Int32} (h : FitsByte value) : FitsShort value := by
  unfold FitsByte at h
  unfold FitsShort
  omega

section Asking

variable {causes : CodegenError → Prop}

theorem asks_pushConstant (value : Int32) :
    Asks (integerConstants value) causes
      (fun pool insn => Pushes pool.stored value insn ∧
        pool.ProvidesAll (usesOf [insn]) (integerConstants value)) (pushConstant value) := by
  unfold pushConstant
  split
  next op hop =>
      have hshort := fitsShort_of_fitsByte (fitsByte_of_iconst? hop)
      rw [integerConstants, if_pos hshort]
      refine Asks.pure fun pool => ⟨.iconst hop, ?_⟩
      rw [usesOf, List.filterMap_cons, constantUse?_plain]
      exact .nil
  next hnone =>
      split
      next hbyte =>
          rw [integerConstants, if_pos (fitsShort_of_fitsByte hbyte)]
          exact Asks.pure fun _ => ⟨.bipush hnone hbyte, .nil⟩
      next hbyte =>
          split
          next hshort =>
              rw [integerConstants, if_pos hshort]
              exact Asks.pure fun _ => ⟨.sipush hbyte hshort, .nil⟩
          next hshort =>
              rw [integerConstants, if_neg hshort]
              refine (ConstantPool.asks_integer value).bind fun index => ?_
              split
              next hsmall =>
                  refine Asks.pure fun pool hfound => ?_
                  rw [← toUInt16_toUInt8 hsmall] at hfound
                  exact ⟨.ldc hshort (ConstantPool.integer?_of_get? hfound),
                    .cons ⟨rfl, hfound⟩ .nil⟩
              next hlarge =>
                  have h255 : 255 < index.toNat := Nat.lt_of_not_le fun h =>
                    hlarge (UInt16.le_iff_toNat_le.2 h)
                  exact Asks.pure fun pool hfound =>
                    ⟨.ldcW hshort h255 (ConstantPool.integer?_of_get? hfound),
                      .cons ⟨rfl, hfound⟩ .nil⟩

/-- The code that reads an integer, with the members that it uses. -/
inductive ReadsInteger (pool : StoredPool) : List Instruction → Prop where
  | intro {line parse} (hline : pool.member? line = some .readLine)
      (hparse : pool.member? parse = some .parseInt) :
      ReadsInteger pool [.slot .aload readerSlot, useOf .readLine line, useOf .parseInt parse]

/-- The code that prints an integer, with the members that it uses. -/
inductive WritesInteger (pool : StoredPool) : List Instruction → Prop where
  | intro {out print} (hout : pool.member? out = some .stdout)
      (hprint : pool.member? print = some .println) :
      WritesInteger pool [useOf .stdout out, .plain .swap, useOf .println print]

theorem asks_lowerRead : Asks (constantsOf (.call (.intrinsic .read))) causes
    (fun pool code => ReadsInteger pool.stored code ∧
      pool.ProvidesAll (usesOf code) (constantsOf (.call (.intrinsic .read)))) lowerRead := by
  refine (ConstantPool.asks_methodRef _ _ _).bind fun line => ?_
  refine (ConstantPool.asks_methodRef _ _ _).map fun pool parse hparse hline => ⟨?_, ?_⟩
  · exact .intro (member?_of_spelling? (m := .readLine) (ConstantPool.spelling?_of_methodRef hline))
      (member?_of_spelling? (m := .parseInt) (ConstantPool.spelling?_of_methodRef hparse))
  · exact .cons ⟨rfl, hline⟩ (.cons ⟨rfl, hparse⟩ .nil)

theorem asks_lowerWrite : Asks (constantsOf (.call (.intrinsic .write))) causes
    (fun pool code => WritesInteger pool.stored code ∧
      pool.ProvidesAll (usesOf code) (constantsOf (.call (.intrinsic .write)))) lowerWrite := by
  refine (ConstantPool.asks_fieldRef _ _ _).bind fun out => ?_
  refine (ConstantPool.asks_methodRef _ _ _).map fun pool print hprint hout => ⟨?_, ?_⟩
  · exact .intro (member?_of_spelling? (m := .stdout) (ConstantPool.spelling?_of_fieldRef hout))
      (member?_of_spelling? (m := .println) (ConstantPool.spelling?_of_methodRef hprint))
  · exact .cons ⟨rfl, hout⟩ (.cons ⟨rfl, hprint⟩ .nil)

/-- A class that `new` allocates is found under its name. -/
theorem allocated?_of_className? {pool : StoredPool} {index : UInt16} {kind : ObjectKind}
    {name : String} (h : pool.className? index = some (ModifiedUtf8.encode name))
    (hkind : name = inputStreamReaderClass ∧ kind = .decoder ∨
      name = bufferedReaderClass ∧ kind = .reader) :
    pool.allocated? index = some kind := by
  rw [StoredPool.allocated?, h]
  rcases hkind with ⟨rfl, rfl⟩ | ⟨rfl, rfl⟩ <;> decide +kernel

theorem asks_openReader : Asks openingConstants causes
    (fun pool code => Opens pool.stored code ∧ pool.ProvidesAll (usesOf code) openingConstants)
    openReader := by
  refine (ConstantPool.asks_classRef _).bind fun reader => ?_
  refine (ConstantPool.asks_classRef _).bind fun decoder => ?_
  refine (ConstantPool.asks_fieldRef _ _ _).bind fun stdin => ?_
  refine (ConstantPool.asks_methodRef _ _ _).bind fun initDecoder => ?_
  refine (ConstantPool.asks_methodRef _ _ _).map fun pool initReader => ?_
  intro hinitReader hinitDecoder hstdin hdecoder hreader
  constructor
  · exact .intro
      (allocated?_of_className? (ConstantPool.className?_of_holdsClass hreader) (.inr ⟨rfl, rfl⟩))
      (allocated?_of_className? (ConstantPool.className?_of_holdsClass hdecoder) (.inl ⟨rfl, rfl⟩))
      (member?_of_spelling? (m := .stdin) (ConstantPool.spelling?_of_fieldRef hstdin))
      (member?_of_spelling? (m := .initDecoder) (ConstantPool.spelling?_of_methodRef hinitDecoder))
      (member?_of_spelling? (m := .initReader) (ConstantPool.spelling?_of_methodRef hinitReader))
  · exact .cons ⟨rfl, hreader⟩ <| .cons ⟨rfl, hdecoder⟩ <| .cons ⟨rfl, hstdin⟩ <|
      .cons ⟨rfl, hinitDecoder⟩ <| .cons ⟨rfl, hinitReader⟩ .nil

/-- The code of the constructor, where its member has a given index. -/
def constructorCode (init : UInt16) : SymbolicCode :=
  ⟨#[.slot .aload 0, .member .invokespecial init 1 0, .plain .returnVoid], 0⟩

theorem asks_lowerConstructor : Asks constructorConstants causes
    (fun pool code => (∃ init, code = constructorCode init) ∧
      pool.ProvidesAll (usesOf code.instructions.toList) constructorConstants)
    lowerConstructor :=
  (ConstantPool.asks_methodRef _ _ _).map fun _ init hinit =>
    ⟨⟨init, rfl⟩, .cons ⟨rfl, hinit⟩ .nil⟩

variable {α β : Type} {calls : List Call} {Q : ConstantPool → α → Prop}

/-- A lowering without effect on the labels. -/
theorem asks_lift {x : Interning α} {S : ConstantPool → α × Label → Prop} {next : Label}
    (hx : Asks calls causes Q x) (h : ∀ pool a, Q pool a → S pool (a, next)) :
    Asks calls causes S ((liftM x : Lowering α).run next) := by
  have hrun : (liftM x : Lowering α).run next = (do return (← x, next)) := by
    simp
  rw [hrun]
  exact hx.map h

/-- A result that does not depend on the pool, with what follows it. -/
theorem asks_liftExcept {x : Except CodegenError α} {S : ConstantPool → β × Label → Prop}
    {k : α → Lowering β} {next : Label} (hfails : ∀ e, x = .error e → causes e)
    (h : ∀ a, x = .ok a → Asks calls causes S ((k a).run next)) :
    Asks calls causes S ((lowerStatement.liftExcept x >>= k).run next) := by
  cases x with
  | error e => exact Asks.throw (hfails e rfl)
  | ok a =>
      have hrun : (lowerStatement.liftExcept (.ok a) >>= k).run next = (k a).run next := by
        simp [lowerStatement.liftExcept]
      rw [hrun]
      exact h a rfl

end Asking

section Lowering

variable {slots : List (String × UInt16)}

theorem slotOf_eq_ok (hslots : Laid slots) {name : String} {slot : UInt16}
    (h : slotOf (.ofList slots) name = .ok slot) : (name, slot) ∈ slots := by
  unfold slotOf at h
  split at h
  next slot' hslot =>
      cases h
      exact hslots.getElem?_ofList.1 hslot
  next => cases h

/-- A variable has no slot if it is not among those that have one. -/
theorem slotOf_eq_error (hslots : Laid slots) {name : String} {e : CodegenError}
    (h : slotOf (.ofList slots) name = .error e) :
    e = .unresolvedVariable routineName name ∧ ∀ slot, (name, slot) ∉ slots := by
  unfold slotOf at h
  split at h
  next => cases h
  next hnone =>
      cases h
      refine ⟨rfl, fun slot hmem => ?_⟩
      rw [hslots.getElem?_ofList.2 hmem] at hnone
      cases hnone

/-- A lowered statement is emitted. -/
theorem asks_lowerStatement (hslots : Laid slots) (length index : Nat) (statement : Statement)
    (next : Label) :
    Asks (constantsOf statement) (Unlowered slots length index statement)
      (fun pool result => Emits pool.stored slots length statement next result.1 result.2 ∧
        pool.ProvidesAll (usesOf result.1) (constantsOf statement))
      ((lowerStatement (.ofList slots) length index statement).run next) := by
  have hslot : ∀ name e, statement.variableName? = some name →
      slotOf (.ofList slots) name = .error e → Unlowered slots length index statement e := by
    intro name e hname herror
    obtain ⟨rfl, hfree⟩ := slotOf_eq_error hslots herror
    exact .unknown hname hfree
  have htarget : ∀ target e, statement.jumpTarget? = some target →
      resolveJump routineName index target length = .error e →
        Unlowered slots length index statement e := by
    intro target e hjumps herror
    rw [resolveJump] at herror
    split at herror
    next hpast =>
        cases herror
        exact .outside hjumps hpast
    next => cases herror
  cases statement with
  | nop => exact Asks.pure fun _ => ⟨.nop, .nil⟩
  | push value =>
      simp only [lowerStatement, StateT.run_bind]
      have hpush : Asks (integerConstants value) (Unlowered slots length index (.push value))
          (fun pool result => result.2 = next ∧ Pushes pool.stored value result.1 ∧
            pool.ProvidesAll (usesOf [result.1]) (integerConstants value))
          ((liftM (pushConstant value) : Lowering Instruction).run next) :=
        asks_lift (asks_pushConstant value) fun _ _ h => ⟨rfl, h⟩
      refine hpush.map fun pool result h => ?_
      obtain ⟨hnext, hinsn, huses⟩ := h
      rw [hnext]
      exact ⟨.push hinsn, huses⟩
  | load name =>
      exact asks_liftExcept (fun e => hslot name e rfl) fun slot h => Asks.pure fun pool =>
        ⟨.load (slotOf_eq_ok hslots h), .nil⟩
  | store name =>
      exact asks_liftExcept (fun e => hslot name e rfl) fun slot h => Asks.pure fun pool =>
        ⟨.store (slotOf_eq_ok hslots h), .nil⟩
  | negate => exact Asks.pure fun _ => ⟨.negate, .nil⟩
  | binary op =>
      simp only [lowerStatement, lowerBinary]
      split
      next branch hbranch =>
          refine Asks.pure fun _ => ⟨.comparison hbranch, ?_⟩
          -- a branch uses no constant, whichever it is
          cases op <;> cases hbranch <;> exact .nil
      next hnone =>
          obtain ⟨opcode, hopcode⟩ : ∃ opcode, arithmetic? op = some opcode := by
            cases op <;> first | exact ⟨_, rfl⟩ | cases hnone
          rw [hopcode]
          refine Asks.pure fun pool => ⟨.arithmetic hopcode, ?_⟩
          cases op <;> cases hopcode <;> exact .nil
  | jump target =>
      refine asks_liftExcept (fun e => htarget target e rfl) fun label h => Asks.pure fun pool => ?_
      obtain ⟨hle, rfl⟩ := resolveJump_eq_ok.1 h
      exact ⟨.jump hle, .nil⟩
  | jumpIfZero target =>
      refine asks_liftExcept (fun e => htarget target e rfl) fun label h => Asks.pure fun pool => ?_
      obtain ⟨hle, rfl⟩ := resolveJump_eq_ok.1 h
      exact ⟨.jumpIfZero hle, .nil⟩
  | call callee =>
      cases callee with
      | intrinsic service =>
          cases service with
          | read =>
              refine asks_lift asks_lowerRead fun pool code h => ⟨?_, h.2⟩
              cases h.1 with
              | intro hline hparse => exact .read hline hparse
          | write =>
              refine asks_lift asks_lowerWrite fun pool code h => ⟨?_, h.2⟩
              cases h.1 with
              | intro hout hprint => exact .write hout hprint
      | function declaration => exact Asks.throw (.unprovided rfl)
  | pop => exact Asks.pure fun _ => ⟨.pop, .nil⟩
  | returnZero | returnTop | prepareArguments => exact Asks.throw (.unprovided rfl)

/-- The blocks of statements from an index on, each behind the binding of its label. -/
def lowerFrom (slots : Std.TreeMap String UInt16) (length index : Nat)
    (statements : List Statement) : Lowering (List (List Instruction)) :=
  (statements.zipIdx index).mapM fun (statement, index) => do
    let instructions ← lowerStatement slots length index statement
    return .bind index :: instructions

theorem lowerStatements_eq (slots : Std.TreeMap String UInt16) (body : Body) :
    lowerStatements slots body = lowerFrom slots body.size 0 body.toList := rfl

theorem lowerFrom_nil (slots : Std.TreeMap String UInt16) (length index : Nat) (next : Label) :
    (lowerFrom slots length index []).run next = pure ([], next) := by
  rw [lowerFrom, List.zipIdx_nil, List.mapM_nil, StateT.run_pure]

theorem lowerFrom_cons (slots : Std.TreeMap String UInt16) (length index : Nat)
    (statement : Statement) (statements : List Statement) (next : Label) :
    (lowerFrom slots length index (statement :: statements)).run next = do
      let first ← (lowerStatement slots length index statement).run next
      let rest ← (lowerFrom slots length (index + 1) statements).run first.2
      return ((.bind index :: first.1) :: rest.1, rest.2) := by
  rw [lowerFrom, List.zipIdx_cons, List.mapM_cons]
  simp only [bind_assoc, pure_bind, StateT.run_bind, StateT.run_pure]
  rfl

/-- What keeps the first statement, or one behind it, from being lowered. -/
theorem unloweredFrom_cons {length index : Nat} {statement : Statement}
    {statements : List Statement} {e : CodegenError} :
    UnloweredFrom slots length index (statement :: statements) e ↔
      Unlowered slots length index statement e ∨
        UnloweredFrom slots length (index + 1) statements e := by
  constructor
  · rintro ⟨k, found, hk, h⟩
    cases k with
    | zero =>
        cases hk
        exact .inl h
    | succ k => exact .inr ⟨k, found, hk, by rwa [Nat.add_right_comm, Nat.add_assoc]⟩
  · rintro (h | ⟨k, found, hk, h⟩)
    · exact ⟨0, statement, rfl, h⟩
    · exact ⟨k + 1, found, hk, by rwa [Nat.add_right_comm, Nat.add_assoc] at h⟩

/-- The blocks of all statements are emitted. -/
theorem asks_lowerFrom (hslots : Laid slots) (length : Nat) (statements : List Statement)
    (index : Nat) (next : Label) :
    Asks (statements.flatMap constantsOf) (UnloweredFrom slots length index statements)
      (fun pool result =>
        EmitsAll pool.stored slots length index statements next result.1 result.2 ∧
          pool.ProvidesAll (usesOf result.1.flatten) (statements.flatMap constantsOf))
      ((lowerFrom (.ofList slots) length index statements).run next) := by
  induction statements generalizing index next with
  | nil =>
      rw [lowerFrom_nil]
      exact Asks.pure fun _ => ⟨.nil, .nil⟩
  | cons statement statements ih =>
      rw [lowerFrom_cons, List.flatMap_cons]
      have hcauses : ∀ e, Unlowered slots length index statement e ∨
          UnloweredFrom slots length (index + 1) statements e →
            UnloweredFrom slots length index (statement :: statements) e :=
        fun e => unloweredFrom_cons.2
      have hfirst := asks_lowerStatement hslots length index statement next
      refine (hfirst.causes_mono fun e h => hcauses e (.inl h)).bind fun first => ?_
      have hrest := (ih (index + 1) first.2).causes_mono fun e h => hcauses e (.inr h)
      refine hrest.map fun pool rest hrest hfirst => ⟨.cons hfirst.1 hrest.1, ?_⟩
      rw [List.flatten_cons, usesOf_append]
      exact List.rel_append hfirst.2 hrest.2

theorem usesOf_zeroVariables (slots : List (String × UInt16)) :
    usesOf (zeroVariables slots) = [] := by
  induction slots with
  | nil => rfl
  | cons entry slots ih =>
      change usesOf ([_, _] ++ zeroVariables slots) = []
      rw [usesOf_append]
      exact ih

/-- A lowered body is emitted, in the pool it leaves and in every later one, and its code uses
the constants of the opening and of the statements. -/
theorem asks_lowerMain (hslots : Laid slots) (body : Body) :
    Asks (mainConstants body) (UnloweredFrom slots body.size 0 body.toList)
      (fun pool code => (∃ opening blocks, Emitted pool.stored slots body opening blocks code) ∧
        pool.ProvidesAll (usesOf code.instructions.toList) (mainConstants body))
      (lowerMain slots body) := by
  unfold lowerMain
  refine asks_openReader.bind fun opening => ?_
  have hblocks := asks_lowerFrom hslots body.size body.toList 0 (body.size + 1)
  refine hblocks.map fun pool result hblocks hopens => ⟨⟨opening, result.1, ?_⟩, ?_⟩
  · exact ⟨hopens.1, hblocks.1, by simp⟩
  · have hclosing : usesOf [.bind body.size, .plain .returnVoid] = [] := rfl
    rw [usesOf_append, usesOf_append, usesOf_append, hclosing, usesOf_zeroVariables,
      List.append_nil, List.append_nil]
    exact List.rel_append hopens.2 hblocks.2

end Lowering

/-! ## Labels -/

theorem boundLabels_emits {pool : StoredPool} {slots : List (String × UInt16)} {length : Nat}
    {statement : Statement} {next mid : Nat} {block : List Instruction}
    (h : Emits pool slots length statement next block mid) :
    next ≤ mid ∧ boundLabels block = List.range' next (mid - next) := by
  cases h with
  | push h => cases h <;> exact ⟨le_refl _, by rw [Nat.sub_self]; rfl⟩
  | @comparison op branch h =>
      refine ⟨Nat.le_add_right _ _, ?_⟩
      rw [Nat.add_sub_cancel_left]
      rfl
  | _ => exact ⟨le_refl _, by rw [Nat.sub_self]; rfl⟩

/-- The blocks bind the labels of their statements, and of the free labels each once. -/
theorem boundLabels_emitsAll {pool : StoredPool} {slots : List (String × UInt16)} {length : Nat}
    {index : Nat} {statements : List Statement} {next last : Nat}
    {blocks : List (List Instruction)}
    (h : EmitsAll pool slots length index statements next blocks last)
    (hlength : index + statements.length ≤ length) (hnext : length < next) :
    next ≤ last ∧ (boundLabels blocks.flatten).Nodup ∧
      ∀ label ∈ boundLabels blocks.flatten,
        index ≤ label ∧ label < index + statements.length ∨ next ≤ label ∧ label < last := by
  induction h with
  | nil => exact ⟨le_refl _, List.nodup_nil, fun label hl => absurd hl List.not_mem_nil⟩
  | @cons index statement statements next mid last block blocks head tail ih =>
      obtain ⟨hmid, hblock⟩ := boundLabels_emits head
      rw [List.length_cons] at hlength ⊢
      obtain ⟨hlast, hnodup, hmem⟩ := ih (by omega) (by omega)
      have hlabels : boundLabels ((Instruction.bind index :: block) :: blocks).flatten =
          index :: (List.range' next (mid - next) ++ boundLabels blocks.flatten) := by
        rw [List.flatten_cons, List.cons_append, boundLabels_bind, boundLabels_append, hblock]
      rw [hlabels]
      refine ⟨by omega, ?_, ?_⟩
      · rw [List.nodup_cons, List.nodup_append]
        refine ⟨?_, List.nodup_range', hnodup, ?_⟩
        · intro hin
          rcases List.mem_append.1 hin with hin | hin
          · rw [List.mem_range'_1] at hin
            omega
          · have := hmem index hin
            omega
        · rintro label hin label' hin' rfl
          rw [List.mem_range'_1] at hin
          have := hmem label hin'
          omega
      · intro label hin
        rcases List.mem_cons.1 hin with rfl | hin
        · exact .inl ⟨le_refl _, by omega⟩
        · rcases List.mem_append.1 hin with hin | hin
          · rw [List.mem_range'_1] at hin
            exact .inr ⟨hin.1, by omega⟩
          · have := hmem label hin
            omega

theorem boundLabels_zeroVariables (slots : List (String × UInt16)) :
    boundLabels (zeroVariables slots) = [] := by
  induction slots with
  | nil => rfl
  | cons entry slots ih =>
      change boundLabels ([_, _] ++ zeroVariables slots) = []
      rw [boundLabels_append, ih]
      rfl

/-- No label is bound twice. -/
theorem Emitted.nodup_boundLabels {pool : StoredPool} {slots : List (String × UInt16)} {body : Body}
    {opening : List Instruction} {blocks : List (List Instruction)} {code : SymbolicCode}
    (h : Emitted pool slots body opening blocks code) :
    (boundLabels code.instructions.toList).Nodup := by
  obtain ⟨hlast, hnodup, hmem⟩ :=
    boundLabels_emitsAll h.blocks_emitted (by simp) (Nat.lt_succ_self _)
  have hopening : boundLabels opening = [] := by
    cases h.opens
    rfl
  have hclosing : boundLabels [Instruction.bind body.size, .plain .returnVoid] = [body.size] := rfl
  rw [h.code_eq, boundLabels_append, boundLabels_append, boundLabels_append, hopening,
    boundLabels_zeroVariables, hclosing, List.nil_append, List.nil_append, List.nodup_append]
  refine ⟨hnodup, by simp, ?_⟩
  rintro label hlabel label' hlabel' rfl
  rw [List.mem_singleton] at hlabel'
  have := hmem label hlabel
  rw [Array.length_toList] at this
  omega

end StackCodegen.Managed
