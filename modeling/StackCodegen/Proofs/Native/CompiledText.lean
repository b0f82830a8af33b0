import StackCodegen.Proofs.Native.Calls
import StackCodegen.Proofs.Native.TextLines

/-!
# The text of compiled programs

The text of an accepted program is read as the code of the program (`read?_compile`). It takes names
that can be spelled: functions named by symbols, and variables without line feeds, since each of
them is shown in a comment (`Spellable`).
-/

set_option autoImplicit false

namespace StackCodegen.Native

/-- A program whose names can stand in assembly text. -/
structure Spellable (program : Program) : Prop where
  symbol : ∀ f ∈ program.functions, isSymbol f.name.toList = true
  newline : ∀ f ∈ program.functions, ∀ s ∈ f.body.toList, ∀ name ∈ s.variableName?,
    '\n' ∉ name.toList

instance (program : Program) : Decidable (Spellable program) :=
  decidable_of_iff ((∀ f ∈ program.functions, isSymbol f.name.toList = true) ∧
      ∀ f ∈ program.functions, ∀ s ∈ f.body.toList, ∀ name ∈ s.variableName?, '\n' ∉ name.toList)
    ⟨fun h => ⟨h.1, h.2⟩, fun h => ⟨h.symbol, h.newline⟩⟩

variable {platform : Platform} {program : Program}

/-! ## Symbols -/

theorem isSymbolPart_of_start {c : Char} (h : isSymbolStart c = true) : isSymbolPart c = true := by
  rw [isSymbolPart, h]
  rfl

theorem part_of_mem_symbol {word : List Char} (h : isSymbol word = true) :
    ∀ c ∈ word, isSymbolPart c = true := by
  cases word with
  | nil => cases h
  | cons c cs =>
      simp only [isSymbol, Bool.and_eq_true, List.all_eq_true] at h
      intro c' hc'
      rcases List.mem_cons.1 hc' with rfl | hmem
      · exact isSymbolPart_of_start h.1.1
      · exact h.1.2 c' hmem

/-- A symbol may go on. -/
theorem isSymbol_append {word rest : List Char} (h : isSymbol word = true)
    (hrest : ∀ c ∈ rest, isSymbolPart c = true) : isSymbol (word ++ rest) = true := by
  cases word with
  | nil => cases h
  | cons c cs =>
      simp only [isSymbol, Bool.and_eq_true, List.all_eq_true, Bool.or_eq_true] at h
      simp only [List.cons_append, isSymbol, Bool.and_eq_true, List.all_eq_true, Bool.or_eq_true]
      refine ⟨⟨h.1.1, fun c' hc' => ?_⟩, h.2.imp_right fun hcs => ?_⟩
      · exact (List.mem_append.1 hc').elim (h.1.2 c') (hrest c')
      · cases cs with
        | nil => cases hcs
        | cons c' cs => rfl

/-- The symbol of a function is one on every platform. -/
theorem isSymbol_symbol {name : String} (h : isSymbol name.toList = true) :
    isSymbol (platform.symbol name).toList = true := by
  cases platform with
  | unix => exact h
  | win =>
      rw [Platform.symbol, String.toList_append]
      exact isSymbol_append (by decide) (part_of_mem_symbol h)

/-- The labels of statements are symbols. -/
theorem isSymbol_statementLabel {name : String} (h : isSymbol name.toList = true) (index : Nat) :
    isSymbol (statementLabel name index).toList = true := by
  rw [toList_statementLabel, List.append_assoc]
  refine isSymbol_append h ?_
  intro c hc
  simp only [List.singleton_append, List.mem_cons] at hc
  rcases hc with rfl | rfl | hdigit
  · decide
  · decide
  · exact isSymbolPart_of_isDigit (Nat.isDigit_of_mem_toDigits (by decide) (by decide) hdigit)

/-! ## Code and comments -/

theorem readable_callSequence {symbol : String} (h : isSymbol symbol.toList = true) (arity : Nat)
    (returnsValue : Bool) :
    ∀ insn ∈ callSequence symbol arity returnsValue, insn.Readable := by
  intro insn hinsn
  rw [callSequence_eq] at hinsn
  rcases List.mem_append.1 hinsn with hcopy | hinsn
  · obtain ⟨j, -, rfl⟩ := List.mem_map.1 hcopy
    trivial
  · rcases List.mem_cons.1 hinsn with rfl | hinsn
    · exact h
    · rcases List.mem_append.1 hinsn with hrelease | hpush
      · unfold releaseCode at hrelease
        split at hrelease
        · cases hrelease
        · have hadd : insn = .add (.immediate (4 * arity)) (reg .esp) := by simpa using hrelease
          rw [hadd]
          rfl
      · split at hpush
        · rw [List.mem_singleton.1 hpush]
          trivial
        · cases hpush

/-- What a statement is lowered to can be assembled. -/
theorem readable_lowerStatement {f : Function} {offsets : Std.TreeMap String Int} {k : Nat}
    {s : Statement} {code : List Instruction}
    (hsymbols : ∀ f ∈ program.functions, isSymbol f.name.toList = true)
    (hf : f ∈ program.functions)
    (h : lowerStatement platform program f offsets k s = .ok code) :
    ∀ insn ∈ code, insn.Readable := by
  have hlabel : ∀ {target : UInt64} {label : String},
      lowerStatement.jumpLabel f k target = .ok label → isSymbol label.toList = true := by
    intro target label hjump
    obtain ⟨position, -, rfl⟩ := map_eq_ok.1 hjump
    exact isSymbol_statementLabel (hsymbols f hf) position
  have hword : ∀ {name : String} {operand : Operand}, wordOf f.name offsets name = .ok operand →
      operand.isPlace = true := by
    intro name operand hoperand
    unfold wordOf at hoperand
    split at hoperand <;> cases hoperand
    rfl
  cases s with
  | nop =>
      cases h
      simp
  | push value =>
      cases h
      simp [Instruction.Readable]
  | load name =>
      obtain ⟨operand, -, h⟩ := bind_eq_ok.1 h
      cases h
      simp [Instruction.Readable]
  | store name =>
      obtain ⟨operand, hoperand, h⟩ := bind_eq_ok.1 h
      cases h
      simpa [Instruction.Readable] using hword hoperand
  | negate | pop | returnZero | returnTop =>
      cases h
      simp [Instruction.Readable, epilogue, reg, Operand.isPlace, isPair, Operand.isMemory]
  | binary op =>
      cases h
      cases op <;> simp [lowerBinary, binaryCore, binaryCore.comparison, Instruction.Readable, reg,
        Operand.isPlace, isPair, Operand.isMemory]
  | jump target =>
      obtain ⟨label, hjump, h⟩ := bind_eq_ok.1 h
      cases h
      simpa [Instruction.Readable] using hlabel hjump
  | jumpIfZero target =>
      obtain ⟨label, hjump, h⟩ := bind_eq_ok.1 h
      cases h
      simpa [Instruction.Readable, reg, Operand.isPlace, isPair, Operand.isMemory]
        using hlabel hjump
  | call callee =>
      cases callee with
      | intrinsic service =>
          cases h
          exact readable_callSequence (isSymbol_symbol (by cases service <;> decide)) _ _
      | function declaration =>
          obtain ⟨g, hg, -, rfl⟩ := lowerCall_function_eq_ok h
          have hname := hsymbols g (List.mem_of_find?_eq_some hg)
          rw [name_of_function? hg] at hname
          exact readable_callSequence (isSymbol_symbol hname) _ _
  | prepareArguments => cases h

theorem newline_notMem_toString (n : Int) : '\n' ∉ (toString n).toList := fun hmem => by
  cases plain_of_numeral hmem

/-- The comment of an accepted statement breaks its line only in the name of a variable. -/
theorem newline_mem_text_iff {f : Function} {offsets : Std.TreeMap String Int} {k : Nat}
    {s : Statement} {code : List Instruction}
    (hsymbols : ∀ f ∈ program.functions, isSymbol f.name.toList = true)
    (h : lowerStatement platform program f offsets k s = .ok code) :
    '\n' ∈ s.text.toList ↔ ∃ name ∈ s.variableName?, '\n' ∈ name.toList := by
  have hplain : s.variableName? = none → '\n' ∉ s.text.toList →
      ('\n' ∈ s.text.toList ↔ ∃ name ∈ s.variableName?, '\n' ∈ name.toList) := by
    intro hnone hnot
    rw [hnone]
    exact iff_of_false hnot (by simp)
  have hnat : ∀ n : Nat, '\n' ∉ (toString n).toList := fun n => newline_notMem_toString n
  cases s with
  | nop | negate | returnZero | returnTop | pop | prepareArguments =>
      exact hplain rfl (by decide)
  | binary op =>
      refine hplain rfl ?_
      cases op <;> decide
  | push value =>
      refine hplain rfl ?_
      rw [Statement.text, String.toList_append, List.mem_append, not_or]
      exact ⟨by decide, newline_notMem_toString _⟩
  | load name | store name =>
      rw [Statement.text, String.toList_append, List.mem_append]
      simp [Statement.variableName?]
  | jump target | jumpIfZero target =>
      refine hplain rfl ?_
      rw [Statement.text, String.toList_append, List.mem_append, not_or]
      exact ⟨by decide, hnat _⟩
  | call callee =>
      refine hplain rfl ?_
      rw [Statement.text, String.toList_append, List.mem_append, not_or]
      refine ⟨by decide, ?_⟩
      cases callee with
      | intrinsic service => cases service <;> decide
      | function declaration =>
          obtain ⟨g, hg, -, -⟩ := lowerCall_function_eq_ok h
          have hname := hsymbols g (List.mem_of_find?_eq_some hg)
          rw [name_of_function? hg] at hname
          intro hmem
          cases ((plain_of_symbol hname).2 _ hmem).1

/-! ## Programs -/

theorem readable_return : ∀ insn ∈ Instruction.mov (.immediate 0) (reg .eax) :: epilogue,
    insn.Readable := by
  simp [Instruction.Readable, epilogue, reg, Operand.isPlace, isPair, Operand.isMemory]

theorem readable_prologue (frame : Frame) : ∀ insn ∈ prologue frame, insn.Readable := by
  unfold prologue
  split <;>
    simp [Instruction.Readable, reg, Operand.isPlace, isPair, Operand.isMemory]

/-- Apart from its comment an element of a function can be assembled. -/
theorem BlockElement.readable_bare {f : Function} {item : Item}
    (hsymbols : ∀ f ∈ program.functions, isSymbol f.name.toList = true)
    (hf : f ∈ program.functions) (h : BlockElement platform program f item) :
    item.bare.Readable := by
  have hname := hsymbols f hf
  cases h with
  | globl => exact .inr ⟨_, isSymbol_symbol hname, rfl⟩
  | symbol => exact ⟨isSymbol_symbol hname, by simp⟩
  | opening h => exact readable_prologue _ _ h
  | label | ending => exact ⟨isSymbol_statementLabel hname _, by simp⟩
  | code hk hcode hinsn => exact readable_lowerStatement hsymbols hf hcode _ hinsn
  | closing h => exact readable_return _ h

/-- Apart from its comments the code of an accepted program can be assembled. -/
theorem readable_bare_compileProgram {items : List Item}
    (hsymbols : ∀ f ∈ program.functions, isSymbol f.name.toList = true)
    (h : compileProgram platform program = .ok items) : ∀ item ∈ items, item.bare.Readable := by
  intro item hitem
  rcases element_of_compileProgram h hitem with rfl | ⟨f, hf, helement⟩
  · exact .inl rfl
  · exact helement.readable_bare hsymbols hf

/-- Comments end with their lines where the names of variables do. -/
theorem newline_notMem_comment {items : List Item} (hspell : Spellable program)
    (h : compileProgram platform program = .ok items) {name text : String}
    (hitem : .label name (some text) ∈ items) : '\n' ∉ text.toList := by
  rcases element_of_compileProgram h hitem with hdirective | ⟨f, hf, helement⟩
  · cases hdirective
  · generalize hlabel : Item.label name (some text) = item at helement
    cases helement with
    | @label k s code hk hcode =>
        cases hlabel
        rw [newline_mem_text_iff hspell.symbol hcode]
        rintro ⟨name, hname, hnewline⟩
        have hs : s ∈ f.body.toList := Array.mem_toList_iff.2 (Array.mem_of_getElem? hk)
        exact hspell.newline f hf s hs name hname hnewline
    | ending hcomment =>
        cases hlabel
        rcases hcomment with hnone | hzero
        · cases hnone
        · rw [Option.some.inj hzero]
          decide
    | globl | symbol | opening | code | closing => cases hlabel

/-- The code of an accepted program can be assembled. -/
theorem readable_compileProgram {items : List Item} (hspell : Spellable program)
    (h : compileProgram platform program = .ok items) : ∀ item ∈ items, item.Readable := by
  intro item hitem
  have hbare := readable_bare_compileProgram hspell.symbol h item hitem
  cases item with
  | directive text | code insn => exact hbare
  | label name comment =>
      refine ⟨hbare.1, fun text htext => ?_⟩
      rw [Option.mem_def.1 htext] at hitem
      exact newline_notMem_comment hspell h hitem

/-- The text of a program is read as its code. -/
theorem read?_compile {text : String} (hspell : Spellable program)
    (h : compile platform program = .ok text) :
    ∃ items, compileProgram platform program = .ok items ∧
      read? text = some (items.map Item.bare) := by
  obtain ⟨items, hitems, rfl⟩ := code_of_compile h
  exact ⟨items, hitems, read?_text (readable_compileProgram hspell hitems)⟩

variable (platform program) in
/-- A program whose comments spill nothing but code is compiled to a text that is read as all of it,
and a check of the code may look at what is spilled. -/
theorem exists_spelled_text (hsymbols : ∀ f ∈ program.functions, isSymbol f.name.toList = true)
    (check : List Item → Bool)
    (hspilled : ((compileProgram platform program).toOption.any fun items =>
      ∀ item ∈ items, ∀ line ∈ item.line.spill, (readLine? line).isSome = true) = true)
    (hcheck : (compileProgram platform program).toOption.any check = true) :
    ∃ text items, compile platform program = .ok text ∧
      compileProgram platform program = .ok items ∧ text = Listing.text (items.map Item.line) ∧
      read? text = some (items.flatMap Item.spelled) ∧ check items = true := by
  cases hitems : compileProgram platform program with
  | error e =>
      rw [hitems] at hcheck
      cases hcheck
  | ok items =>
      rw [hitems] at hspilled hcheck
      simp only [Except.toOption, Option.any_some, decide_eq_true_eq] at hspilled hcheck
      refine ⟨_, items, ?_, rfl, rfl, ?_, hcheck⟩
      · rw [compile, compileListing, hitems]
        rfl
      · exact (read?_text_eq_some_iff (readable_bare_compileProgram hsymbols hitems)).2
          ⟨hspilled, rfl⟩

end StackCodegen.Native
