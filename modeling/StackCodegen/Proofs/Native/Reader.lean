import StackCodegen.Native.Lowering
import StackCodegen.Proofs.Native.Placement
import StackCodegen.Proofs.Text.Decimal
import StackCodegen.Proofs.Text.Trimming
import StackCodegen.Proofs.Text.Words
import Mathlib.Data.List.TakeDrop
import Mathlib.Data.List.TakeWhile

/-!
# Reading native code

Assembly text read as an assembler reads it. A comment runs from `#` to the end of its line, and
blanks before a word do not count. A word that ends in a colon is a label; of the directives only
the choice of the section and the export of a symbol are known; any other word is a mnemonic, and
the operands behind it are separated by commas. Symbols are made of letters, digits and the signs
`_`, `.` and `$`. Anything else is refused, and so are pairs of operands that no instruction takes.

Main statement: the line of an element of code that an assembler takes (`Item.Readable`) is read as
the element, without its comment (`readLine?_line`).
-/

set_option autoImplicit false

namespace StackCodegen.Native

/-! ## Words -/

/-- Recogniser for the characters a symbol may start with. -/
def isSymbolStart (c : Char) : Bool := c.isAlpha || c == '_' || c == '.'

/-- Recogniser for the characters of a symbol. -/
def isSymbolPart (c : Char) : Bool := isSymbolStart c || c.isDigit || c == '$'

/-- Recogniser for symbols. A dot alone is none: it stands for the current place. -/
def isSymbol : List Char → Bool
  | [] => false
  | c :: cs => isSymbolStart c && cs.all isSymbolPart && (c != '.' || !cs.isEmpty)

/-- The symbol that a word is. -/
def readSymbol? (word : List Char) : Option String :=
  if isSymbol word then some (.ofList word) else none

/-- The number of a decimal numeral. A numeral that starts with 0 would be octal. -/
def readNat? (digits : List Char) : Option Nat :=
  let n := Nat.ofDigitChars 10 digits 0
  if Nat.toDigits 10 n = digits then some n else none

/-- The number of a decimal numeral with or without a minus sign. -/
def readInt? : List Char → Option Int
  | '-' :: digits => (readNat? digits).map fun n : Nat => -(n : Int)
  | digits => (readNat? digits).map Int.ofNat

/-- The register of a name. -/
def readRegister? (word : List Char) : Option Register :=
  [Register.eax, .ecx, .edx, .esp, .ebp].find? fun r => r.text.toList == word

/-- The operand of a word. -/
def readOperand? (word : List Char) : Option Operand :=
  match word with
  | '$' :: number => (readInt? number).map .immediate
  | '%' :: _ => (readRegister? word).map .register
  | _ =>
    match word.span (· != '(') with
    | (number, '(' :: base) =>
      if base.getLast? = some ')' then
        match readInt? number, readRegister? base.dropLast with
        | some offset, some r => some (.memory offset r)
        | _, _ => none
      else none
    | _ => none

/-- Recogniser for the operands that can be written to. -/
def Operand.isPlace : Operand → Bool
  | immediate _ => false
  | register _ | memory _ _ => true

/-- Recogniser for the operands of which one instruction takes one at most. -/
def Operand.isMemory : Operand → Bool
  | memory _ _ => true
  | immediate _ | register _ => false

/-- Recogniser for the sources and destinations that an instruction takes together. -/
def isPair (source destination : Operand) : Bool :=
  destination.isPlace && !(source.isMemory && destination.isMemory)

/-! ## Lines -/

/-- The instruction of a mnemonic with one operand that is written to. -/
def readPlace? (insn : Operand → Instruction) (destination : List Char) : Option Instruction :=
  (readOperand? destination).bind fun d => if d.isPlace then some (insn d) else none

/-- The instruction of a mnemonic with source and destination. -/
def readPair? (insn : Operand → Operand → Instruction) (source destination : List Char) :
    Option Instruction :=
  (readOperand? source).bind fun s => (readOperand? destination).bind fun d =>
    if isPair s d then some (insn s d) else none

/-- The instruction that sets the lowest byte of `%eax` by a condition. -/
def readSet? (condition : Condition) (destination : List Char) : Option Instruction :=
  if destination = "%al".toList then some (.set condition) else none

/-- The instruction of a mnemonic and its operands. -/
def readInstruction? (mnemonic : String) (operands : List (List Char)) : Option Instruction :=
  match mnemonic, operands with
  | "pushl", [source] => (readOperand? source).map .push
  | "popl", [destination] => readPlace? .pop destination
  | "movl", [source, destination] => readPair? .mov source destination
  | "addl", [source, destination] => readPair? .add source destination
  | "subl", [source, destination] => readPair? .sub source destination
  | "imull", [source, destination] => readPair? .imul source destination
  | "andl", [source, destination] => readPair? .and source destination
  | "orl", [source, destination] => readPair? .or source destination
  | "negl", [destination] => readPlace? .neg destination
  | "cmpl", [source, destination] => readPair? .cmp source destination
  | "cltd", [] => some .cltd
  | "idivl", [source] => readPlace? .idiv source
  | "setz", [destination] => readSet? .z destination
  | "setnz", [destination] => readSet? .nz destination
  | "setg", [destination] => readSet? .g destination
  | "setl", [destination] => readSet? .l destination
  | "setle", [destination] => readSet? .le destination
  | "setge", [destination] => readSet? .ge destination
  | "jmp", [label] => (readSymbol? label).map .jmp
  | "jz", [label] => (readSymbol? label).map .jz
  | "call", [symbol] => (readSymbol? symbol).map .call
  | "leave", [] => some .leave
  | "ret", [] => some .ret
  | _, _ => none

/-- The operands that stand behind a mnemonic. -/
def readOperands (text : List Char) : List (List Char) :=
  if text.isEmpty then [] else (text.splitOn ',').map (List.dropWhile (· == ' '))

/-- The elements of a line: none where it is blank, else one. -/
def readLine? (line : List Char) : Option (List Item) :=
  let code := (line.takeWhile (· != '#')).dropWhile (· == ' ')
  let (word, rest) := code.span (· != ' ')
  let behind := rest.dropWhile (· == ' ')
  if word.isEmpty then
    some []
  else if word.getLast? = some ':' then
    if behind.isEmpty then (readSymbol? word.dropLast).map fun name => [.label name none] else none
  else if code = ".text".toList ∨ word = ".globl".toList ∧ isSymbol behind then
    some [.directive (.ofList code)]
  else
    (readInstruction? (.ofList word) (readOperands behind)).map fun insn => [.code insn]

/-- The code of a text. -/
def read? (text : String) : Option (List Item) :=
  ((text.toList.splitOn '\n').mapM readLine?).map List.flatten

/-! ## Operands are read back -/

theorem readNat?_toDigits (n : Nat) : readNat? (Nat.toDigits 10 n) = some n := by
  rw [readNat?, Nat.ofDigitChars_ten_toDigits, if_pos rfl]

/-- The characters of a numeral. -/
theorem numeral_of_mem {n : Int} {c : Char} (h : c ∈ (toString n).toList) :
    c = '-' ∨ c.isDigit = true := by
  have hdigit : c ∈ Nat.toDigits 10 n.natAbs → c.isDigit = true :=
    Nat.isDigit_of_mem_toDigits (by decide) (by decide)
  rw [Text.toList_toString] at h
  split at h
  · exact (List.mem_cons.1 h).imp_right hdigit
  · exact .inr (hdigit h)

/-- Numerals are read back. -/
theorem readInt?_toString (n : Int) : readInt? (toString n).toList = some n := by
  rw [Text.toList_toString]
  split
  next hneg =>
      rw [readInt?, readNat?_toDigits, Option.map_some]
      congr 1
      omega
  next hnonneg =>
      unfold readInt?
      split
      next digits heq =>
          have hsign : '-' ∈ Nat.toDigits 10 n.natAbs := heq ▸ List.mem_cons_self
          exact absurd hsign (Text.sign_notMem_toDigits _)
      next =>
          rw [readNat?_toDigits, Option.map_some, Int.ofNat_eq_natCast]
          congr 1
          omega

theorem readRegister?_text (r : Register) : readRegister? r.text.toList = some r := by
  cases r <;> decide

/-- Operands are read back. -/
theorem readOperand?_text (operand : Operand) :
    readOperand? operand.text.toList = some operand := by
  cases operand with
  | immediate value =>
      have htext : (Operand.immediate value).text.toList = '$' :: (toString value).toList := by
        rw [Operand.text, immediateText, String.toList_append]
        rfl
      rw [htext, readOperand?, readInt?_toString]
      rfl
  | register r => cases r <;> decide
  | memory offset base =>
      have htext : (Operand.memory offset base).text.toList =
          (toString offset).toList ++ '(' :: (base.text.toList ++ [')']) := by
        rw [Operand.text, memoryText, String.toList_append, String.toList_append,
          String.toList_append, List.append_assoc, List.append_assoc]
        rfl
      have hnumeral : ∀ c ∈ (toString offset).toList, c ≠ '(' ∧ c ≠ '$' ∧ c ≠ '%' := by
        intro c hc
        rcases numeral_of_mem hc with rfl | hdigit
        · decide
        · refine ⟨?_, ?_, ?_⟩ <;> rintro rfl <;> cases hdigit
      have hfirst : ∀ c cs, (Operand.memory offset base).text.toList = c :: cs →
          c ≠ '$' ∧ c ≠ '%' := by
        intro c cs hcons
        rw [htext] at hcons
        rcases List.append_eq_cons_iff.1 hcons with ⟨-, hparen⟩ | ⟨rest, hrest, -⟩
        · cases hparen
          decide
        · exact (hnumeral c (hrest ▸ List.mem_cons_self)).2
      have hspan :
          ((toString offset).toList ++ '(' :: (base.text.toList ++ [')'])).span (· != '(') =
          ((toString offset).toList, '(' :: (base.text.toList ++ [')'])) :=
        Text.span_of_stop (fun c hc => by simpa using (hnumeral c hc).1) (by simp)
      unfold readOperand?
      split
      next number heq => exact absurd rfl (hfirst _ _ heq).1
      next name heq => exact absurd rfl (hfirst _ _ heq).2
      next =>
          rw [htext, hspan]
          simp only [List.getLast?_append, List.getLast?_singleton, Option.some_or, if_true,
            List.dropLast_concat, readInt?_toString, readRegister?_text]

/-- The characters that end no word and start no comment. -/
def isPlain (c : Char) : Bool := c != '#' && c != ',' && !Text.isBlank c

theorem isSymbolPart_of_isDigit {c : Char} (h : c.isDigit = true) : isSymbolPart c = true := by
  rw [isSymbolPart, h, Bool.or_true, Bool.true_or]

theorem isSymbolPart_of_isLower {c : Char} (h : c.isLower = true) : isSymbolPart c = true := by
  have halpha : c.isAlpha = true := by
    change (c.isUpper || c.isLower) = true
    rw [h, Bool.or_true]
  rw [isSymbolPart, isSymbolStart, halpha, Bool.true_or, Bool.true_or, Bool.true_or, Bool.true_or]

/-- The characters of symbols are visible. -/
theorem isBlank_of_isSymbolPart {c : Char} (h : isSymbolPart c = true) :
    Text.isBlank c = false := by
  have hrange : 0x20 < c.toNat ∧ c.toNat < 0x7F := by
    have hbetween : ∀ {first last : Char}, 0x20 < first.toNat → last.toNat < 0x7F →
        first.val ≤ c.val → c.val ≤ last.val → 0x20 < c.toNat ∧ c.toNat < 0x7F :=
      fun hfirst hlast hle hle' => ⟨Nat.lt_of_lt_of_le hfirst (UInt32.le_iff_toNat_le.1 hle),
        Nat.lt_of_le_of_lt (UInt32.le_iff_toNat_le.1 hle') hlast⟩
    simp only [isSymbolPart, isSymbolStart, Bool.or_eq_true, beq_iff_eq] at h
    rcases h with (((halpha | rfl) | rfl) | hdigit) | rfl
    · rcases Bool.or_eq_true_iff.1 halpha with hupper | hlower
      · have hrange := of_decide_eq_true hupper
        exact hbetween (by decide) (by decide) hrange.1 hrange.2
      · have hrange := Bool.and_eq_true_iff.1 hlower
        exact hbetween (by decide) (by decide) (of_decide_eq_true hrange.1)
          (of_decide_eq_true hrange.2)
    · decide
    · decide
    · have hrange := Bool.and_eq_true_iff.1 hdigit
      exact hbetween (by decide) (by decide) (of_decide_eq_true hrange.1)
        (of_decide_eq_true hrange.2)
    · decide
  exact Text.isBlank_of_ascii hrange

theorem plain_of_isSymbolPart {c : Char} (h : isSymbolPart c = true) : isPlain c = true := by
  rw [isPlain, isBlank_of_isSymbolPart h, Bool.not_false, Bool.and_true, Bool.and_eq_true,
    bne_iff_ne, bne_iff_ne]
  constructor <;> rintro rfl <;> revert h <;> decide

theorem plain_of_numeral {n : Int} {c : Char} (h : c ∈ (toString n).toList) :
    isPlain c = true := by
  rcases numeral_of_mem h with rfl | hdigit
  · decide
  · exact plain_of_isSymbolPart (isSymbolPart_of_isDigit hdigit)

theorem plain_of_symbol {word : List Char} (h : isSymbol word = true) :
    word ≠ [] ∧ ∀ c ∈ word, isPlain c = true ∧ c ≠ ':' := by
  have hpart : ∀ c, isSymbolPart c = true → isPlain c = true ∧ c ≠ ':' := by
    intro c hc
    refine ⟨plain_of_isSymbolPart hc, ?_⟩
    rintro rfl
    revert hc
    decide
  cases word with
  | nil => cases h
  | cons c cs =>
      simp only [isSymbol, Bool.and_eq_true, List.all_eq_true] at h
      refine ⟨List.cons_ne_nil _ _, ?_⟩
      intro c' hc'
      rcases List.mem_cons.1 hc' with rfl | hmem
      · exact hpart c' (by rw [isSymbolPart, h.1.1]; rfl)
      · exact hpart c' (h.1.2 c' hmem)

/-- The text of an operand is one word. -/
theorem plain_operand (operand : Operand) :
    operand.text.toList ≠ [] ∧ ∀ c ∈ operand.text.toList, isPlain c = true := by
  have hregister : ∀ r : Register, r.text.toList ≠ [] ∧ ∀ c ∈ r.text.toList, isPlain c = true := by
    intro r
    cases r <;> exact ⟨by decide, List.all_eq_true.1 (by decide)⟩
  cases operand with
  | immediate value =>
      rw [Operand.text, immediateText, String.toList_append]
      refine ⟨by simp, ?_⟩
      intro c hc
      rcases List.mem_append.1 hc with hc | hc
      · exact List.all_eq_true.1 (by decide : "$".toList.all isPlain = true) c hc
      · exact plain_of_numeral hc
  | register r => exact hregister r
  | memory offset base =>
      rw [Operand.text, memoryText, String.toList_append, String.toList_append,
        String.toList_append]
      refine ⟨by simp, ?_⟩
      intro c hc
      simp only [List.mem_append] at hc
      rcases hc with ((hc | hc) | hc) | hc
      · exact plain_of_numeral hc
      · exact List.all_eq_true.1 (by decide : "(".toList.all isPlain = true) c hc
      · exact (hregister base).2 c hc
      · exact List.all_eq_true.1 (by decide : ")".toList.all isPlain = true) c hc

/-! ## Instructions are read back -/

/-- What an assembler asks of an instruction: symbols where it goes to, and operands that it takes
together. -/
def Instruction.Readable : Instruction → Prop
  | mov source destination | add source destination | sub source destination
  | imul source destination | and source destination | or source destination
  | cmp source destination => isPair source destination = true
  | pop operand | neg operand | idiv operand => operand.isPlace = true
  | jmp symbol | jz symbol | call symbol => isSymbol symbol.toList = true
  | push _ | cltd | set _ | leave | ret => True

/-- The mnemonic and the operands that an instruction is written with and read from. -/
structure Written (insn : Instruction) (mnemonic : String) (operands : List String) : Prop where
  line_eq : insn.line = .instruction mnemonic operands
  nonempty : mnemonic.toList ≠ []
  letters : ∀ c ∈ mnemonic.toList, c.isLower = true
  length_le : operands.length ≤ 2
  plain : ∀ operand ∈ operands, operand.toList ≠ [] ∧ ∀ c ∈ operand.toList, isPlain c = true
  read_eq : readInstruction? mnemonic (operands.map String.toList) = some insn

theorem readSymbol?_toList {symbol : String} (h : isSymbol symbol.toList = true) :
    readSymbol? symbol.toList = some symbol := by
  rw [readSymbol?, if_pos h, String.ofList_toList]

theorem readPlace?_text {insn : Operand → Instruction} {operand : Operand}
    (h : operand.isPlace = true) : readPlace? insn operand.text.toList = some (insn operand) := by
  rw [readPlace?, readOperand?_text, Option.bind_some, if_pos h]

theorem readPair?_text {insn : Operand → Operand → Instruction} {source destination : Operand}
    (h : isPair source destination = true) :
    readPair? insn source.text.toList destination.text.toList = some (insn source destination) := by
  rw [readPair?, readOperand?_text, Option.bind_some, readOperand?_text, Option.bind_some, if_pos h]

/-- Instructions are read back. -/
theorem exists_written {insn : Instruction} (h : insn.Readable) :
    ∃ mnemonic operands, Written insn mnemonic operands := by
  have hsymbol : ∀ {symbol : String}, isSymbol symbol.toList = true →
      ∀ operand ∈ [symbol], operand.toList ≠ [] ∧ ∀ c ∈ operand.toList, isPlain c = true := by
    intro symbol hs operand hoperand
    rw [List.mem_singleton.1 hoperand]
    exact ⟨(plain_of_symbol hs).1, fun c hc => ((plain_of_symbol hs).2 c hc).1⟩
  have hplain : ∀ (operands : List Operand), ∀ operand ∈ operands.map Operand.text,
      operand.toList ≠ [] ∧ ∀ c ∈ operand.toList, isPlain c = true := by
    intro operands text htext
    obtain ⟨operand, -, rfl⟩ := List.mem_map.1 htext
    exact plain_operand operand
  have hletters : ∀ {mnemonic : String}, mnemonic.toList.all Char.isLower = true →
      ∀ c ∈ mnemonic.toList, c.isLower = true := List.all_eq_true.1
  cases insn with
  | push source =>
      exact ⟨_, _, rfl, by decide, hletters (by decide), by simp, hplain [source],
        by simp [readInstruction?, readOperand?_text]⟩
  | pop operand | neg operand | idiv operand =>
      exact ⟨_, _, rfl, by decide, hletters (by decide), by simp, hplain [operand],
        readPlace?_text h⟩
  | mov source destination | add source destination | sub source destination
  | imul source destination | and source destination | or source destination
  | cmp source destination =>
      exact ⟨_, _, rfl, by decide, hletters (by decide), by simp, hplain [source, destination],
        readPair?_text h⟩
  | jmp symbol | jz symbol | call symbol =>
      exact ⟨_, _, rfl, by decide, hletters (by decide), by simp, hsymbol h,
        congrArg (Option.map _) (readSymbol?_toList h)⟩
  | cltd | leave | ret => exact ⟨_, _, rfl, by decide, hletters (by decide), by simp, by simp, rfl⟩
  | set condition =>
      have hbyte : ∀ operand ∈ ["%al"], operand.toList ≠ [] ∧
          ∀ c ∈ operand.toList, isPlain c = true := by
        intro operand hoperand
        rw [List.mem_singleton.1 hoperand]
        exact ⟨by decide, List.all_eq_true.1 (by decide)⟩
      cases condition <;>
        exact ⟨_, _, rfl, by decide, hletters (by decide), by simp, hbyte, rfl⟩

/-! ## Lines are read back -/

theorem dropBlanks_eq {cs : List Char} (h : cs.head? ≠ some ' ') :
    cs.dropWhile (· == ' ') = cs := by
  cases cs with
  | nil => rfl
  | cons c cs => exact List.dropWhile_cons_of_neg (by simpa using h)

/-- A word of plain characters starts with no blank and holds no comma. -/
theorem head?_ne_of_plain {word : List Char} (h : ∀ c ∈ word, isPlain c = true) :
    word.head? ≠ some ' ' := by
  intro hblank
  cases h _ (List.mem_of_head? hblank)

theorem comma_notMem_of_plain {word : List Char} (h : ∀ c ∈ word, isPlain c = true) :
    ',' ∉ word := fun hmem => by cases h _ hmem

/-- The characters behind the mnemonic of a line. -/
theorem readOperands_text {operands : List String} (hlength : operands.length ≤ 2)
    (hplain : ∀ operand ∈ operands, operand.toList ≠ [] ∧ ∀ c ∈ operand.toList, isPlain c = true) :
    readOperands (", ".intercalate operands).toList = operands.map String.toList := by
  match operands, hlength with
  | [], _ => rfl
  | [operand], _ =>
    obtain ⟨hne, hchars⟩ := hplain operand List.mem_cons_self
    rw [String.intercalate_singleton, readOperands, if_neg (by simpa using hne),
      List.splitOn_eq_singleton (comma_notMem_of_plain hchars), List.map_singleton,
      dropBlanks_eq (head?_ne_of_plain hchars), List.map_singleton]
  | [source, destination], _ =>
    obtain ⟨hne, hchars⟩ := hplain source List.mem_cons_self
    obtain ⟨-, hchars'⟩ := hplain destination (List.mem_cons_of_mem _ List.mem_cons_self)
    have htext : (", ".intercalate [source, destination]).toList =
        source.toList ++ ',' :: ' ' :: destination.toList := by
      rw [String.intercalate_cons_cons, String.intercalate_singleton, String.toList_append,
        String.toList_append, List.append_assoc]
      rfl
    have hcomma : ',' ∉ ' ' :: destination.toList := by
      intro hmem
      rcases List.mem_cons.1 hmem with hblank | hmem
      · cases hblank
      · exact comma_notMem_of_plain hchars' hmem
    rw [htext, readOperands, if_neg (by simp), List.splitOn_append_cons_self,
      List.splitOn_eq_singleton (comma_notMem_of_plain hchars), List.splitOn_eq_singleton hcomma]
    simp [dropBlanks_eq (head?_ne_of_plain hchars), dropBlanks_eq (head?_ne_of_plain hchars')]

/-- The operands of a line hold no comment and start with no blank. -/
theorem operands_of_plain {operands : List String}
    (hplain : ∀ operand ∈ operands, operand.toList ≠ [] ∧ ∀ c ∈ operand.toList, isPlain c = true) :
    (∀ c ∈ (", ".intercalate operands).toList, c ≠ '#' ∧ c ≠ '\n') ∧
      (", ".intercalate operands).toList.head? ≠ some ' ' := by
  have hchar : ∀ {c}, isPlain c = true → c ≠ '#' ∧ c ≠ '\n' := by
    intro c hc
    constructor <;> rintro rfl <;> cases hc
  induction operands with
  | nil => simp
  | cons operand operands ih =>
      obtain ⟨hne, hchars⟩ := hplain operand List.mem_cons_self
      cases operands with
      | nil =>
          rw [String.intercalate_singleton]
          exact ⟨fun c hc => hchar (hchars c hc), head?_ne_of_plain hchars⟩
      | cons operand' operands =>
          obtain ⟨hrest, -⟩ := ih fun o ho => hplain o (List.mem_cons_of_mem _ ho)
          rw [String.intercalate_cons_cons, String.append_assoc, String.toList_append,
            String.toList_append, List.head?_append_of_ne_nil _ hne]
          refine ⟨?_, head?_ne_of_plain hchars⟩
          intro c hc
          rcases List.mem_append.1 hc with hc | hc
          · exact hchar (hchars c hc)
          · rcases List.mem_append.1 hc with hc | hc
            · obtain rfl | rfl : c = ',' ∨ c = ' ' := by simpa using hc
              all_goals exact ⟨by decide, by decide⟩
            · exact hrest c hc

/-- The parts of a line: an indentation, the first word, what stands behind it, and a comment. -/
theorem parts_of_line {word behind : List Char} (indentation : Nat) (comment : List Char)
    (hne : word ≠ [])
    (hword : ∀ c ∈ word, c ≠ ' ' ∧ c ≠ '#') (hbehind : ∀ c ∈ behind.head?, c = ' ')
    (hcode : '#' ∉ behind) (hcomment : ∀ c ∈ comment.head?, c = '#') :
    ((List.replicate indentation ' ' ++ (word ++ behind) ++ comment).takeWhile
        (· != '#')).dropWhile (· == ' ') = word ++ behind ∧
      (word ++ behind).span (· != ' ') = (word, behind) := by
  have hbefore : ∀ c ∈ List.replicate indentation ' ' ++ (word ++ behind), (c != '#') = true := by
    intro c hc
    rw [bne_iff_ne]
    rcases List.mem_append.1 hc with hc | hc
    · rw [List.eq_of_mem_replicate hc]
      decide
    · rcases List.mem_append.1 hc with hc | hc
      · exact (hword c hc).2
      · exact fun heq => hcode (heq ▸ hc)
  have hcut : (List.replicate indentation ' ' ++ (word ++ behind) ++ comment).takeWhile (· != '#') =
      List.replicate indentation ' ' ++ (word ++ behind) :=
    Text.takeWhile_of_stop hbefore fun c hc => by simpa using hcomment c hc
  refine ⟨?_, Text.span_of_stop (fun c hc => by simpa using (hword c hc).1)
    fun c hc => by simpa using hbehind c hc⟩
  rw [hcut, List.dropWhile_append_of_pos fun c hc => by simp [List.eq_of_mem_replicate hc]]
  refine dropBlanks_eq fun hblank => ?_
  cases word with
  | nil => exact hne rfl
  | cons c word => exact (hword c List.mem_cons_self).1 (Option.some.inj hblank)

/-- A line whose first word is in small letters is an instruction. -/
theorem readLine?_letters {line word behind : List Char} (hne : word ≠ [])
    (hletters : ∀ c ∈ word, c.isLower = true)
    (hcode : (line.takeWhile (· != '#')).dropWhile (· == ' ') = word ++ behind)
    (hspan : (word ++ behind).span (· != ' ') = (word, behind)) :
    readLine? line = (readInstruction? (.ofList word)
      (readOperands (behind.dropWhile (· == ' ')))).map fun insn => [.code insn] := by
  have hcolon : word.getLast? ≠ some ':' := by
    intro hlast
    cases hletters _ (List.mem_of_getLast? hlast)
  have hdot : word.head? ≠ some '.' := by
    intro hhead
    cases hletters _ (List.mem_of_head? hhead)
  have hdirective : ¬ (word ++ behind = ".text".toList ∨
      word = ".globl".toList ∧ isSymbol (behind.dropWhile (· == ' ')) = true) := by
    rintro (htext | ⟨hglobl, -⟩)
    · refine hdot ?_
      rw [← List.head?_append_of_ne_nil _ hne, htext]
      decide
    · exact hdot (hglobl ▸ by decide)
  unfold readLine?
  rw [hcode]
  dsimp only
  rw [hspan]
  dsimp only
  rw [if_neg (by simpa using hne), if_neg hcolon, if_neg hdirective]

theorem blank_of_isLower {c : Char} (h : c.isLower = true) : c ≠ ' ' ∧ c ≠ '#' := by
  constructor <;> rintro rfl <;> cases h

/-- The lines of instructions are read back. -/
theorem readLine?_instruction {insn : Instruction} (h : insn.Readable) :
    readLine? insn.line.text.toList = some [.code insn] := by
  obtain ⟨mnemonic, operands, hwritten⟩ := exists_written h
  have hoperands := readOperands_text hwritten.length_le hwritten.plain
  have hread : ∀ behind : List Char, insn.line.text.toList =
      List.replicate 4 ' ' ++ (mnemonic.toList ++ behind) ++ [] → (∀ c ∈ behind.head?, c = ' ') →
      '#' ∉ behind → behind.dropWhile (· == ' ') = (", ".intercalate operands).toList →
      readLine? insn.line.text.toList = some [.code insn] := by
    intro behind htext hblank hcode hbehind
    obtain ⟨hcut, hspan⟩ := parts_of_line 4 [] hwritten.nonempty
      (fun c hc => blank_of_isLower (hwritten.letters c hc)) hblank hcode (by simp)
    rw [← htext] at hcut
    rw [readLine?_letters hwritten.nonempty hwritten.letters hcut hspan, hbehind, hoperands,
      String.ofList_toList, hwritten.read_eq, Option.map_some]
  rw [hwritten.line_eq] at hread ⊢
  cases operands with
  | nil =>
      refine hread [] ?_ (by simp) (by simp) rfl
      rw [Line.text, String.toList_append, List.append_nil, List.append_nil]
      rfl
  | cons operand operands =>
      refine hread (' ' :: (", ".intercalate (operand :: operands)).toList) ?_ (by simp) ?_ ?_
      · rw [Line.text, String.toList_append, String.toList_append, String.toList_append,
          List.append_nil, List.append_assoc, List.append_assoc]
        · rfl
        · exact List.cons_ne_nil _ _
      · intro hmem
        rcases List.mem_cons.1 hmem with hblank | hmem
        · cases hblank
        · exact ((operands_of_plain hwritten.plain).1 _ hmem).1 rfl
      · rw [List.dropWhile_cons_of_pos (by rfl)]
        exact dropBlanks_eq (operands_of_plain hwritten.plain).2

/-- What an assembler asks of an element of code: its symbols are symbols, and a comment ends with
its line. -/
def Item.Readable : Item → Prop
  | directive text => text = ".text" ∨ ∃ symbol, isSymbol symbol.toList = true ∧
      text = ".globl " ++ symbol
  | label name comment => isSymbol name.toList = true ∧ ∀ text ∈ comment, '\n' ∉ text.toList
  | code insn => insn.Readable

/-- The line of a label is read back, without the comment. -/
theorem readLine?_label {name : String} {line : List Char} (behind comment : List Char)
    (hname : isSymbol name.toList = true)
    (hline : line = name.toList ++ ':' :: (behind ++ comment)) (hbehind : ∀ c ∈ behind, c = ' ')
    (hcomment : ∀ c ∈ comment.head?, c = '#') :
    readLine? line = some [.label name none] := by
  obtain ⟨hne, hchars⟩ := plain_of_symbol hname
  have hword : ∀ c ∈ name.toList ++ [':'], c ≠ ' ' ∧ c ≠ '#' := by
    intro c hc
    rcases List.mem_append.1 hc with hc | hc
    · constructor <;> rintro rfl <;> cases (hchars _ hc).1
    · rw [List.mem_singleton.1 hc]
      decide
  obtain ⟨hcut, hspan⟩ := parts_of_line 0 comment (List.append_ne_nil_of_right_ne_nil
    name.toList (List.cons_ne_nil ':' [])) hword (fun c hc => hbehind c (List.mem_of_head? hc))
    (fun hmem => by cases hbehind _ hmem) hcomment
  have hsplit : line = List.replicate 0 ' ' ++ (name.toList ++ [':'] ++ behind) ++ comment := by
    rw [hline]
    simp
  have hblank : behind.dropWhile (· == ' ') = [] :=
    List.dropWhile_eq_nil_iff.2 fun c hc => by simpa using hbehind c hc
  rw [← hsplit] at hcut
  unfold readLine?
  rw [hcut]
  dsimp only
  rw [hspan]
  dsimp only
  rw [hblank, if_neg (by simp), if_pos (by simp), List.dropLast_concat, readSymbol?_toList hname]
  rfl

/-- The line that exports a symbol is read back. -/
theorem readLine?_globl {symbol : String} (h : isSymbol symbol.toList = true) :
    readLine? (".globl " ++ symbol).toList = some [.directive (".globl " ++ symbol)] := by
  obtain ⟨hne, hchars⟩ := plain_of_symbol h
  have hcode : '#' ∉ ' ' :: symbol.toList := by
    intro hmem
    rcases List.mem_cons.1 hmem with hblank | hmem
    · cases hblank
    · cases (hchars _ hmem).1
  have hword : ∀ c ∈ ".globl".toList, c ≠ ' ' ∧ c ≠ '#' := by
    intro c hc
    have hplain : isPlain c = true := List.all_eq_true.1 (by decide) c hc
    constructor <;> rintro rfl <;> cases hplain
  obtain ⟨hcut, hspan⟩ := parts_of_line 0 [] (by decide : ".globl".toList ≠ []) hword
    (fun c hc => by simpa [eq_comm] using hc : ∀ c ∈ (' ' :: symbol.toList).head?, c = ' ') hcode
    (by simp)
  have htext : (".globl " ++ symbol).toList = ".globl".toList ++ ' ' :: symbol.toList := by
    rw [String.toList_append]
    rfl
  have hsplit : (".globl " ++ symbol).toList =
      List.replicate 0 ' ' ++ (".globl".toList ++ ' ' :: symbol.toList) ++ [] := by
    rw [htext, List.append_nil]
    rfl
  have hblank : (' ' :: symbol.toList).dropWhile (· == ' ') = symbol.toList := by
    rw [List.dropWhile_cons_of_pos (by rfl)]
    exact dropBlanks_eq (head?_ne_of_plain fun c hc => (hchars c hc).1)
  rw [← hsplit] at hcut
  unfold readLine?
  rw [hcut]
  dsimp only
  rw [hspan]
  dsimp only
  rw [hblank, if_neg (by decide), if_neg (by decide), if_pos (.inr ⟨rfl, h⟩), ← htext,
    String.ofList_toList]

/-- Lines are read back, without the comments. -/
theorem readLine?_line {item : Item} (h : item.Readable) :
    readLine? item.line.text.toList = some [item.bare] := by
  cases item with
  | code insn => exact readLine?_instruction h
  | label name comment =>
      obtain ⟨hname, -⟩ := h
      cases comment with
      | none =>
          refine readLine?_label [] [] hname ?_ (by simp) (by simp)
          rw [Item.line, Line.text, String.toList_append]
          rfl
      | some text =>
          refine readLine?_label [' '] ('#' :: ' ' :: text.toList) hname ?_ (by simp)
            (by simp)
          rw [Item.line, Line.text, String.toList_append, String.toList_append, List.append_assoc]
          rfl
  | directive text =>
      rcases h with rfl | ⟨symbol, hsymbol, rfl⟩
      · decide
      · exact readLine?_globl hsymbol

/-- Every line ends where it is ended. -/
theorem newline_notMem_line {item : Item} (h : item.Readable) : '\n' ∉ item.line.text.toList := by
  have hsymbol : ∀ {symbol : String}, isSymbol symbol.toList = true → '\n' ∉ symbol.toList :=
    fun hs hmem => by cases ((plain_of_symbol hs).2 _ hmem).1
  cases item with
  | code insn =>
      obtain ⟨mnemonic, operands, hwritten⟩ := exists_written h
      have hmnemonic : '\n' ∉ mnemonic.toList := fun hmem => by cases hwritten.letters _ hmem
      have hoperands : '\n' ∉ (", ".intercalate operands).toList := fun hmem =>
        ((operands_of_plain hwritten.plain).1 _ hmem).2 rfl
      rw [Item.line, hwritten.line_eq]
      cases operands with
      | nil =>
          rw [Line.text, String.toList_append]
          simpa using hmnemonic
      | cons operand operands =>
          rw [Line.text, String.toList_append, String.toList_append, String.toList_append]
          · simp only [List.mem_append, not_or]
            exact ⟨⟨⟨by decide, hmnemonic⟩, by decide⟩, hoperands⟩
          · exact List.cons_ne_nil _ _
  | label name comment =>
      obtain ⟨hname, hcomment⟩ := h
      cases comment with
      | none =>
          rw [Item.line, Line.text, String.toList_append]
          simp only [List.mem_append, not_or]
          exact ⟨hsymbol hname, by decide⟩
      | some text =>
          rw [Item.line, Line.text, String.toList_append, String.toList_append]
          simp only [List.mem_append, not_or]
          exact ⟨⟨hsymbol hname, by decide⟩, hcomment text rfl⟩
  | directive text =>
      rcases h with rfl | ⟨symbol, hs, rfl⟩
      · decide
      · rw [Item.line, Line.text, String.toList_append]
        simp only [List.mem_append, not_or]
        exact ⟨by decide, hsymbol hs⟩

end StackCodegen.Native
