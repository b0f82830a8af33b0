import StackCodegen.Native.Lowering
import StackCodegen.Proofs.Except
import StackCodegen.Proofs.Native.Execution
import Mathlib.Data.List.Basic
import Mathlib.Data.List.Nodup
import Mathlib.Data.List.Pairwise
import Std.Data.String.ToNat

/-!
# Places in native code

The code of an accepted program is the blocks of its functions in order. In the block of a function
the prologue lies behind the symbol, the code of a statement between the statement's label and the
next one, and the implicit return, where there is one, behind the label of the end (`Block`).

A statement label tells its function and its index, since it ends in the digits of the index
(`statementLabel_inj`). So the names that a program binds are apart as soon as no symbol is a
statement label (`nodup_names_iff`); then no label is bound twice (`nodup_labelNames`), and a
look-up finds the one place where a label lies (`position?_eq`).
-/

set_option autoImplicit false

namespace StackCodegen.Native

/-! ## Labels -/

/-- Names of the labels in code. -/
def labelNames (items : List Item) : List String :=
  items.filterMap fun
    | .label name _ => some name
    | _ => none

@[simp] theorem labelNames_append (front back : List Item) :
    labelNames (front ++ back) = labelNames front ++ labelNames back := by
  simp [labelNames]

@[simp] theorem labelNames_label (name : String) (comment : Option String) (items : List Item) :
    labelNames (.label name comment :: items) = name :: labelNames items := rfl

@[simp] theorem labelNames_directive (text : String) (items : List Item) :
    labelNames (.directive text :: items) = labelNames items := rfl

@[simp] theorem labelNames_code (insns : List Instruction) :
    labelNames (insns.map .code) = [] := by
  simp [labelNames]

/-- The digits at the end of a list that some other character comes before. -/
theorem digits_of_append {front front' : List Char} {digits digits' : List Char}
    (h : front ++ 'l' :: digits = front' ++ 'l' :: digits')
    (hdigits : ∀ c ∈ digits, c.isDigit = true) (hdigits' : ∀ c ∈ digits', c.isDigit = true) :
    front = front' ∧ digits = digits' := by
  have hlast : ∀ (front digits : List Char), (∀ c ∈ digits, c.isDigit = true) →
      (front ++ 'l' :: digits).reverse.takeWhile Char.isDigit = digits.reverse := by
    intro front digits hdigits
    rw [List.reverse_append, List.reverse_cons, List.append_assoc,
      List.takeWhile_append_of_pos fun c hc => hdigits c (List.mem_reverse.1 hc)]
    simp
  have hsame : digits = digits' := by
    have hreverse := hlast front digits hdigits
    rw [h, hlast front' digits' hdigits'] at hreverse
    exact (List.reverse_injective hreverse).symm
  subst hsame
  exact ⟨List.append_cancel_right h, rfl⟩

theorem toList_statementLabel (function : String) (index : Nat) :
    (statementLabel function index).toList =
      (function.toList ++ ['_']) ++ 'l' :: Nat.toDigits 10 index := by
  rw [statementLabel, String.toList_append, String.toList_append, Nat.toString_eq_repr,
    Nat.toList_repr, List.append_assoc, List.append_assoc]
  rfl

/-- A statement label tells its function and its index. -/
theorem statementLabel_inj {function function' : String} {index index' : Nat}
    (h : statementLabel function index = statementLabel function' index') :
    function = function' ∧ index = index' := by
  have hlist := congrArg String.toList h
  rw [toList_statementLabel, toList_statementLabel] at hlist
  have hdigit : ∀ n, ∀ c ∈ Nat.toDigits 10 n, c.isDigit = true := fun n c hc =>
    Nat.isDigit_of_mem_toDigits (by decide) (by decide) hc
  obtain ⟨hname, hindex⟩ := digits_of_append hlist (hdigit index) (hdigit index')
  refine ⟨String.toList_inj.1 (List.append_cancel_right hname), ?_⟩
  rw [← Nat.toList_repr, ← Nat.toList_repr] at hindex
  exact Nat.repr_inj.1 (String.toList_inj.1 hindex)

/-- Symbols of different names differ. -/
theorem symbol_inj {platform : Platform} {name name' : String}
    (h : platform.symbol name = platform.symbol name') : name = name' := by
  cases platform with
  | unix => exact h
  | win =>
      have hlist := congrArg String.toList h
      simp only [Platform.symbol, String.toList_append] at hlist
      exact String.toList_inj.1 (List.append_cancel_left hlist)

/-! ## Blocks -/

/-- The code of one function: behind its symbol the prologue, then statement by statement a label
and the statement's code, and the closing. -/
structure Block (platform : Platform) (program : Program) (function : Function)
    (blocks : List (List Item)) (items : List Item) : Prop where
  items_eq : items =
    [.directive (".globl " ++ platform.symbol function.name),
      .label (platform.symbol function.name) none] ++
      (prologue (Frame.layout function.declaration function.body)).map .code ++ blocks.flatten ++
      closing function
  length_eq : blocks.length = function.body.size
  block_eq : ∀ (k : Nat) (statement : Statement), function.body[k]? = some statement → ∃ code,
    lowerStatement platform program function
        (Frame.layout function.declaration function.body).table k statement = .ok code ∧
      blocks[k]? = some
        (.label (statementLabel function.name k) (some statement.text) :: code.map .code)

theorem block_of_lowerFunction {platform : Platform} {program : Program} {function : Function}
    {items : List Item} (h : lowerFunction platform program function = .ok items) :
    ∃ blocks, Block platform program function blocks items := by
  unfold lowerFunction at h
  obtain ⟨blocks, hblocks, h⟩ := bind_eq_ok.1 h
  cases h
  obtain ⟨hlength, hmap⟩ := mapM_eq_ok hblocks
  refine ⟨blocks, rfl, by simpa using hlength, ?_⟩
  intro k statement hk
  have hzip : function.body.toList.zipIdx[k]? = some (statement, k) := by
    rw [List.getElem?_zipIdx, Array.getElem?_toList, hk]
    simp
  obtain ⟨block, hblock, hget⟩ := hmap k _ hzip
  obtain ⟨code, hcode, hblock⟩ := bind_eq_ok.1 hblock
  cases hblock
  exact ⟨code, hcode, hget⟩

/-- An element of the code of a function: of the opening, of a statement, or of the closing. -/
inductive BlockElement (platform : Platform) (program : Program) (function : Function) :
    Item → Prop where
  | globl : BlockElement platform program function
      (.directive (".globl " ++ platform.symbol function.name))
  | symbol : BlockElement platform program function (.label (platform.symbol function.name) none)
  | opening {insn : Instruction}
      (h : insn ∈ prologue (Frame.layout function.declaration function.body)) :
      BlockElement platform program function (.code insn)
  | label {k : Nat} {statement : Statement} {code : List Instruction}
      (hk : function.body[k]? = some statement)
      (hcode : lowerStatement platform program function
        (Frame.layout function.declaration function.body).table k statement = .ok code) :
      BlockElement platform program function
        (.label (statementLabel function.name k) (some statement.text))
  | code {k : Nat} {statement : Statement} {code : List Instruction} {insn : Instruction}
      (hk : function.body[k]? = some statement)
      (hcode : lowerStatement platform program function
        (Frame.layout function.declaration function.body).table k statement = .ok code)
      (hinsn : insn ∈ code) : BlockElement platform program function (.code insn)
  | ending {comment : Option String}
      (h : comment = none ∨ comment = some Statement.returnZero.text) :
      BlockElement platform program function
        (.label (statementLabel function.name function.body.size) comment)
  | closing {insn : Instruction}
      (h : insn ∈ Instruction.mov (.immediate 0) (reg .eax) :: epilogue) :
      BlockElement platform program function (.code insn)

/-- What a block consists of. -/
theorem Block.element {platform : Platform} {program : Program} {function : Function}
    {blocks : List (List Item)} {items : List Item}
    (h : Block platform program function blocks items) {item : Item} (hitem : item ∈ items) :
    BlockElement platform program function item := by
  rw [h.items_eq] at hitem
  simp only [List.mem_append, List.mem_cons, List.not_mem_nil, or_false] at hitem
  rcases hitem with (((rfl | rfl) | hopening) | hblocks) | hclosing
  · exact .globl
  · exact .symbol
  · obtain ⟨insn, hinsn, rfl⟩ := List.mem_map.1 hopening
    exact .opening hinsn
  · obtain ⟨block, hblock, hitem⟩ := List.mem_flatten.1 hblocks
    obtain ⟨k, hk⟩ := List.getElem?_of_mem hblock
    have hlt : k < function.body.size := by
      rw [← h.length_eq]
      exact (List.getElem?_eq_some_iff.1 hk).1
    have hstatement := Array.getElem?_eq_getElem hlt
    obtain ⟨code, hcode, hblock'⟩ := h.block_eq k _ hstatement
    cases hk.symm.trans hblock'
    rcases List.mem_cons.1 hitem with rfl | hitem
    · exact .label hstatement hcode
    · obtain ⟨insn, hinsn, rfl⟩ := List.mem_map.1 hitem
      exact .code hstatement hcode hinsn
  · unfold StackCodegen.Native.closing at hclosing
    dsimp only at hclosing
    split at hclosing
    · rcases List.mem_cons.1 hclosing with rfl | hitem
      · exact .ending (.inr rfl)
      · obtain ⟨insn, hinsn, rfl⟩ := List.mem_map.1 hitem
        exact .closing hinsn
    · rw [List.mem_singleton.1 hclosing]
      exact .ending (.inl rfl)

/-- The text of an accepted program is that of its code. -/
theorem code_of_compile {platform : Platform} {program : Program} {text : String}
    (h : compile platform program = .ok text) :
    ∃ items, compileProgram platform program = .ok items ∧
      text = Listing.text (items.map Item.line) := by
  obtain ⟨lines, hlines, rfl⟩ := map_eq_ok.1 h
  obtain ⟨items, hitems, rfl⟩ := map_eq_ok.1 hlines
  exact ⟨items, hitems, rfl⟩

/-- An accepted program is the blocks of its functions. -/
theorem blocks_of_compileProgram {platform : Platform} {program : Program} {items : List Item}
    (h : compileProgram platform program = .ok items) :
    symbolClash? platform program = none ∧ ∃ blocks : List (List Item),
      items = .directive ".text" :: blocks.flatten ∧ blocks.length = program.functions.length ∧
        ∀ (k : Nat) (function : Function), program.functions[k]? = some function → ∃ block parts,
          blocks[k]? = some block ∧ Block platform program function parts block := by
  unfold compileProgram at h
  split at h
  · cases h
  next hclash =>
      obtain ⟨blocks, hblocks, h⟩ := bind_eq_ok.1 h
      cases h
      obtain ⟨hlength, hmap⟩ := mapM_eq_ok hblocks
      refine ⟨hclash, blocks, rfl, hlength, ?_⟩
      intro k function hk
      obtain ⟨block, hblock, hget⟩ := hmap k function hk
      obtain ⟨parts, hparts⟩ := block_of_lowerFunction hblock
      exact ⟨block, parts, hget, hparts⟩

/-- What the code of a program consists of. -/
theorem element_of_compileProgram {platform : Platform} {program : Program} {items : List Item}
    (h : compileProgram platform program = .ok items) {item : Item} (hitem : item ∈ items) :
    item = .directive ".text" ∨
      ∃ function ∈ program.functions, BlockElement platform program function item := by
  obtain ⟨-, blocks, rfl, hlength, hblocks⟩ := blocks_of_compileProgram h
  rcases List.mem_cons.1 hitem with rfl | hitem
  · exact .inl rfl
  · obtain ⟨block, hblock, hitem⟩ := List.mem_flatten.1 hitem
    obtain ⟨k, hk⟩ := List.getElem?_of_mem hblock
    have hlt : k < program.functions.length := by
      rw [← hlength]
      exact (List.getElem?_eq_some_iff.1 hk).1
    obtain ⟨block', parts, hblock', hparts⟩ := hblocks k _ (List.getElem?_eq_getElem hlt)
    cases hk.symm.trans hblock'
    exact .inr ⟨_, List.getElem_mem hlt, hparts.element hitem⟩

/-! ## Labels of blocks -/

section Labels

variable {platform : Platform} {program : Program}

/-- The labels of blocks that belong to the elements of a list. -/
theorem labelNames_flatten {α : Type} {blocks : List (List Item)} {list : List α}
    {names : α → List String} (hlength : blocks.length = list.length)
    (h : ∀ (k : Nat) (a : α), list[k]? = some a →
      ∃ block, blocks[k]? = some block ∧ labelNames block = names a) :
    labelNames blocks.flatten = list.flatMap names := by
  induction list generalizing blocks with
  | nil =>
      rw [List.eq_nil_of_length_eq_zero hlength]
      rfl
  | cons a list ih =>
      obtain ⟨block, hblock, hnames⟩ := h 0 a rfl
      cases blocks with
      | nil => cases hblock
      | cons block' blocks =>
          cases hblock
          rw [List.flatten_cons, List.flatMap_cons, labelNames_append, hnames,
            ih (by simpa using hlength) fun k => h (k + 1)]

theorem labelNames_closing (function : Function) :
    labelNames (closing function) = [statementLabel function.name function.body.size] := by
  unfold closing
  dsimp only
  split
  · rw [labelNames_label, labelNames_code]
  · rfl

/-- The labels of a function: its symbol, and one for each statement and the end. -/
theorem Block.labelNames_eq {function : Function} {parts : List (List Item)} {items : List Item}
    (h : Block platform program function parts items) :
    labelNames items = platform.symbol function.name :: statementLabels function := by
  have hparts : labelNames parts.flatten =
      (List.range function.body.size).map (statementLabel function.name) := by
    rw [List.map_eq_flatMap]
    refine labelNames_flatten (by rw [h.length_eq, List.length_range]) ?_
    intro k index hindex
    obtain ⟨hk, rfl⟩ := List.getElem?_eq_some_iff.1 hindex
    rw [List.length_range] at hk
    rw [List.getElem_range]
    obtain ⟨code, -, hcode⟩ := h.block_eq k _ (Array.getElem?_eq_getElem hk)
    exact ⟨_, hcode, by rw [labelNames_label, labelNames_code]⟩
  rw [h.items_eq, List.append_assoc, List.append_assoc, labelNames_append, labelNames_append,
    labelNames_append, labelNames_code, hparts, labelNames_closing, statementLabels,
    List.range_succ, List.map_append]
  rfl

theorem not_mem_statementLabels (hclash : symbolClash? platform program = none) {f g : Function}
    (hf : f ∈ program.functions) (hg : g ∈ program.functions) :
    platform.symbol f.name ∉ statementLabels g := by
  intro hmem
  have hnone := List.find?_eq_none.1 hclash f hf
  refine hnone ?_
  rw [Std.TreeSet.contains_ofList, List.contains_eq_mem, decide_eq_true_eq]
  exact List.mem_flatMap.2 ⟨g, hg, hmem⟩

/-- The labels of a program, function by function. -/
theorem labelNames_compileProgram {items : List Item}
    (h : compileProgram platform program = .ok items) :
    labelNames items = program.functions.flatMap fun function =>
      platform.symbol function.name :: statementLabels function := by
  obtain ⟨-, blocks, rfl, hlength, hblocks⟩ := blocks_of_compileProgram h
  rw [labelNames_directive]
  refine labelNames_flatten hlength ?_
  intro k function hk
  obtain ⟨block, parts, hblock, hparts⟩ := hblocks k function hk
  exact ⟨block, hblock, hparts.labelNames_eq⟩

/-- The check on symbols refuses the programs whose names are not apart, and no others. -/
theorem nodup_names_iff :
    (program.functions.flatMap fun function =>
      platform.symbol function.name :: statementLabels function).Nodup ↔
        symbolClash? platform program = none := by
  have hdistinct := List.pairwise_map.1 program.names_nodup
  rw [List.nodup_flatMap]
  constructor
  · -- a symbol that is a statement label is bound twice, in one block or in two
    rintro ⟨hown, hothers⟩
    refine List.find?_eq_none.2 fun f hf hclash => ?_
    rw [Std.TreeSet.contains_ofList, List.contains_eq_mem, decide_eq_true_eq] at hclash
    obtain ⟨g, hg, hmem⟩ := List.mem_flatMap.1 hclash
    by_cases hfg : f = g
    · subst hfg
      exact (List.nodup_cons.1 (hown f hf)).1 hmem
    · have : Std.Symm (Function.onFun List.Disjoint fun function : Function =>
          platform.symbol function.name :: statementLabels function) :=
        ⟨fun _ _ h _ hmem hmem' => h hmem' hmem⟩
      exact hothers.forall hf hg hfg List.mem_cons_self (List.mem_cons_of_mem _ hmem)
  · -- symbols are told apart by the names of functions, statement labels by name and index
    intro hclash
    refine ⟨?_, ?_⟩
    · intro f hf
      rw [List.nodup_cons]
      refine ⟨not_mem_statementLabels hclash hf hf, ?_⟩
      refine List.Nodup.map ?_ List.nodup_range
      intro i j hij
      exact (statementLabel_inj hij).2
    · refine hdistinct.imp_of_mem ?_
      intro f g hf hg hne label hlabel hlabel'
      rcases List.mem_cons.1 hlabel with rfl | hlabel
      · rcases List.mem_cons.1 hlabel' with heq | hlabel'
        · exact hne (symbol_inj heq)
        · exact not_mem_statementLabels hclash hf hg hlabel'
      · rcases List.mem_cons.1 hlabel' with rfl | hlabel'
        · exact not_mem_statementLabels hclash hg hf hlabel
        · obtain ⟨i, -, rfl⟩ := List.mem_map.1 hlabel
          obtain ⟨j, -, heq⟩ := List.mem_map.1 hlabel'
          exact hne (statementLabel_inj heq).1.symm

/-- No label is bound twice. -/
theorem nodup_labelNames {items : List Item} (h : compileProgram platform program = .ok items) :
    (labelNames items).Nodup := by
  obtain ⟨hclash, -⟩ := blocks_of_compileProgram h
  rw [labelNames_compileProgram h]
  exact nodup_names_iff.2 hclash

end Labels

/-! ## Loaded code -/

/-- An element without its comment. -/
def Item.bare : Item → Item
  | label name _ => label name none
  | item => item

theorem labelNames_bare (items : List Item) :
    labelNames (items.map Item.bare) = labelNames items := by
  induction items with
  | nil => rfl
  | cons item items ih =>
      change labelNames ([item.bare] ++ items.map Item.bare) = labelNames ([item] ++ items)
      rw [labelNames_append, labelNames_append, ih]
      cases item <;> rfl

/-- The code of a program without comments, on the platform it was compiled for. -/
def Loads (program : Program) (x : Executable) : Prop :=
  ∃ items, compileProgram x.platform program = .ok items ∧ x.items = items.map Item.bare

/-- A label that is bound once is found where it lies. -/
theorem position?_eq {x : Executable} (hnodup : (labelNames x.items).Nodup) {name : String}
    {comment : Option String} {front back : List Item}
    (h : x.items = front ++ .label name comment :: back) :
    x.position? name = some front.length := by
  rw [h, labelNames_append, labelNames_label, List.nodup_append] at hnodup
  have hfront : ∀ item ∈ front, item.isLabel name = false := by
    intro item hitem
    cases item with
    | label name' comment' =>
        have hmem : name' ∈ labelNames front :=
          List.mem_filterMap.2 ⟨_, hitem, rfl⟩
        have hne := hnodup.2.2 name' hmem name List.mem_cons_self
        simpa [Item.isLabel] using hne
    | directive text | code insn => rfl
  rw [Executable.position?, h, List.findIdx?_append, List.findIdx?_eq_none_iff.2 hfront,
    List.findIdx?_cons]
  simp [Item.isLabel]

/-- A look-up fails for the names that no label has. -/
theorem position?_eq_none_iff {x : Executable} {name : String} :
    x.position? name = none ↔ name ∉ labelNames x.items := by
  rw [Executable.position?, List.findIdx?_eq_none_iff]
  constructor
  · intro h hmem
    obtain ⟨item, hitem, hname⟩ := List.mem_filterMap.1 hmem
    cases item with
    | label name' comment =>
        cases hname
        simpa [Item.isLabel] using h _ hitem
    | directive text | code insn => cases hname
  · intro h item hitem
    cases item with
    | label name' comment =>
        have hmem : name' ∈ labelNames x.items := List.mem_filterMap.2 ⟨_, hitem, rfl⟩
        have hne : name' ≠ name := fun heq => h (heq ▸ hmem)
        simpa [Item.isLabel] using hne
    | directive text | code insn => rfl

/-- A flattened list is split at one of its parts. -/
theorem flatten_split {α : Type} {parts : List (List α)} {k : Nat} {part : List α}
    (h : parts[k]? = some part) :
    parts.flatten = (parts.take k).flatten ++ (part ++ (parts.drop (k + 1)).flatten) := by
  obtain ⟨hlt, hget⟩ := List.getElem?_eq_some_iff.1 h
  have hparts : parts = parts.take k ++ part :: parts.drop (k + 1) := by
    rw [← hget, ← List.drop_eq_getElem_cons hlt, List.take_append_drop]
  have hflatten := congrArg List.flatten hparts
  rwa [List.flatten_append, List.flatten_cons] at hflatten

section Splits

variable {platform : Platform} {program : Program} {function : Function}
  {parts : List (List Item)} {items : List Item}

/-- The code from a statement on starts with the statement's label. -/
theorem Block.tail (h : Block platform program function parts items) {k : Nat}
    (hk : k ≤ function.body.size) :
    ∃ comment rest, (parts.drop k).flatten ++ closing function =
      .label (statementLabel function.name k) comment :: rest := by
  rcases Nat.lt_or_eq_of_le hk with hlt | rfl
  · obtain ⟨code, -, hcode⟩ := h.block_eq k _ (Array.getElem?_eq_getElem hlt)
    obtain ⟨hlt', hget⟩ := List.getElem?_eq_some_iff.1 hcode
    rw [List.drop_eq_getElem_cons hlt', hget]
    exact ⟨_, _, rfl⟩
  · rw [List.drop_eq_nil_of_le (Nat.le_of_eq h.length_eq)]
    unfold closing
    dsimp only
    split
    · exact ⟨_, _, rfl⟩
    · exact ⟨_, _, rfl⟩

/-- The code of a function is part of the code of its program. -/
theorem exists_block (h : compileProgram platform program = .ok items)
    (hf : function ∈ program.functions) :
    ∃ front block back parts, lowerFunction platform program function = .ok block ∧
      Block platform program function parts block ∧ items = front ++ (block ++ back) := by
  unfold compileProgram at h
  split at h
  · cases h
  next =>
      obtain ⟨blocks, hblocks, h⟩ := bind_eq_ok.1 h
      cases h
      obtain ⟨k, hk⟩ := List.getElem?_of_mem hf
      obtain ⟨block, hblock, hget⟩ := (mapM_eq_ok hblocks).2 k function hk
      obtain ⟨parts, hparts⟩ := block_of_lowerFunction hblock
      refine ⟨.directive ".text" :: (blocks.take k).flatten, block, (blocks.drop (k + 1)).flatten,
        parts, hblock, hparts, ?_⟩
      rw [flatten_split hget, List.cons_append]

/-- The code of a statement lies between its label and the next one. -/
theorem Block.statement (h : Block platform program function parts items) {k : Nat}
    {statement : Statement} (hk : function.body[k]? = some statement) :
    ∃ code front back comment comment',
      lowerStatement platform program function
          (Frame.layout function.declaration function.body).table k statement = .ok code ∧
        items = front ++ .label (statementLabel function.name k) comment ::
          (code.map .code ++ .label (statementLabel function.name (k + 1)) comment' :: back) := by
  obtain ⟨code, hcode, hpart⟩ := h.block_eq k statement hk
  have hlt : k < function.body.size := (Array.getElem?_eq_some_iff.1 hk).1
  obtain ⟨comment', back, hback⟩ := h.tail (Nat.succ_le_of_lt hlt)
  refine ⟨code, [.directive (".globl " ++ platform.symbol function.name),
      .label (platform.symbol function.name) none] ++
      (prologue (Frame.layout function.declaration function.body)).map .code ++
      (parts.take k).flatten, back, some statement.text, comment', hcode, ?_⟩
  rw [h.items_eq, flatten_split hpart, ← hback]
  simp

/-- The label of every statement, and that of the end, lies somewhere. -/
theorem Block.label (h : Block platform program function parts items) {k : Nat}
    (hk : k ≤ function.body.size) :
    ∃ front back comment,
      items = front ++ .label (statementLabel function.name k) comment :: back := by
  obtain ⟨comment, back, hback⟩ := h.tail hk
  refine ⟨[.directive (".globl " ++ platform.symbol function.name),
      .label (platform.symbol function.name) none] ++
      (prologue (Frame.layout function.declaration function.body)).map .code ++
      (parts.take k).flatten, back, comment, ?_⟩
  have hparts : parts.flatten = (parts.take k).flatten ++ (parts.drop k).flatten := by
    rw [← List.flatten_append, List.take_append_drop]
  rw [h.items_eq, hparts, ← hback]
  simp

/-- The prologue lies between the symbol and the first label. -/
theorem Block.opening (h : Block platform program function parts items) :
    ∃ front back comment, items = front ++ .label (platform.symbol function.name) none ::
      ((prologue (Frame.layout function.declaration function.body)).map .code ++
        .label (statementLabel function.name 0) comment :: back) := by
  obtain ⟨comment, back, hback⟩ := h.tail (Nat.zero_le _)
  rw [List.drop_zero] at hback
  refine ⟨[.directive (".globl " ++ platform.symbol function.name)], back, comment, ?_⟩
  rw [h.items_eq, List.append_assoc, hback]
  simp

/-- Where the end is reached, a return of 0 lies behind its label. -/
theorem Block.ending (h : Block platform program function parts items)
    (hneeds : needsImplicitReturn function.body = true) :
    ∃ front back comment, items =
      front ++ .label (statementLabel function.name function.body.size) comment ::
        ((.mov (.immediate 0) (reg .eax) :: epilogue).map .code ++ back) := by
  have hclosing : closing function =
      .label (statementLabel function.name function.body.size) (some Statement.returnZero.text) ::
        (.mov (.immediate 0) (reg .eax) :: epilogue).map .code := by
    rw [closing, if_pos hneeds]
  exact ⟨_, [], some Statement.returnZero.text, by rw [h.items_eq, hclosing, List.append_nil]⟩

end Splits

namespace Loads

variable {program : Program} {x : Executable} {function : Function}

theorem nodup (h : Loads program x) : (labelNames x.items).Nodup := by
  obtain ⟨items, hitems, hx⟩ := h
  rw [hx, labelNames_bare]
  exact nodup_labelNames hitems

/-- The block of a function is part of the code. -/
theorem block (h : Loads program x) (hf : function ∈ program.functions) :
    ∃ front back parts items, Block x.platform program function parts items ∧
      x.items = front ++ (items.map Item.bare ++ back) := by
  obtain ⟨items, hitems, hx⟩ := h
  obtain ⟨front, block, back, parts, -, hparts, rfl⟩ := exists_block hitems hf
  refine ⟨front.map Item.bare, back.map Item.bare, parts, block, hparts, ?_⟩
  rw [hx, List.map_append, List.map_append]

/-- The code of a statement lies behind the statement's label. -/
theorem statement (h : Loads program x) (hf : function ∈ program.functions) {k : Nat}
    {s : Statement} (hk : function.body[k]? = some s) :
    ∃ code front back,
      lowerStatement x.platform program function
          (Frame.layout function.declaration function.body).table k s = .ok code ∧
        x.items = front ++ .label (statementLabel function.name k) none ::
          (code.map .code ++ .label (statementLabel function.name (k + 1)) none :: back) := by
  obtain ⟨front, back, parts, items, hblock, hx⟩ := h.block hf
  obtain ⟨code, front', back', comment, comment', hcode, rfl⟩ := hblock.statement hk
  refine ⟨code, front ++ front'.map Item.bare, back'.map Item.bare ++ back, hcode, ?_⟩
  rw [hx]
  simp [Item.bare]

/-- Every statement label of a function is found. -/
theorem label (h : Loads program x) (hf : function ∈ program.functions) {k : Nat}
    (hk : k ≤ function.body.size) :
    ∃ position, x.position? (statementLabel function.name k) = some position := by
  obtain ⟨front, back, parts, items, hblock, hx⟩ := h.block hf
  obtain ⟨front', back', comment, rfl⟩ := hblock.label hk
  have hitems : x.items = (front ++ front'.map Item.bare) ++
      .label (statementLabel function.name k) none :: (back'.map Item.bare ++ back) := by
    rw [hx]
    simp [Item.bare]
  exact ⟨_, position?_eq h.nodup hitems⟩

/-- The prologue of a function lies behind its symbol. -/
theorem opening (h : Loads program x) (hf : function ∈ program.functions) :
    ∃ front back, x.items = front ++ .label (x.platform.symbol function.name) none ::
      ((prologue (Frame.layout function.declaration function.body)).map .code ++
        .label (statementLabel function.name 0) none :: back) := by
  obtain ⟨front, back, parts, items, hblock, hx⟩ := h.block hf
  obtain ⟨front', back', comment, rfl⟩ := hblock.opening
  refine ⟨front ++ front'.map Item.bare, back'.map Item.bare ++ back, ?_⟩
  rw [hx]
  simp [Item.bare]

/-- Every symbol of a function is found. -/
theorem symbol (h : Loads program x) (hf : function ∈ program.functions) :
    ∃ position, x.position? (x.platform.symbol function.name) = some position := by
  obtain ⟨front, back, hitems⟩ := h.opening hf
  exact ⟨_, position?_eq h.nodup hitems⟩

/-- The implicit return lies behind the label of the end. -/
theorem ending (h : Loads program x) (hf : function ∈ program.functions)
    (hneeds : needsImplicitReturn function.body = true) :
    ∃ front back, x.items =
      front ++ .label (statementLabel function.name function.body.size) none ::
        ((.mov (.immediate 0) (reg .eax) :: epilogue).map .code ++ back) := by
  obtain ⟨front, back, parts, items, hblock, hx⟩ := h.block hf
  obtain ⟨front', back', comment, rfl⟩ := hblock.ending hneeds
  refine ⟨front ++ front'.map Item.bare, back'.map Item.bare ++ back, ?_⟩
  rw [hx]
  simp [Item.bare]

end Loads

end StackCodegen.Native
