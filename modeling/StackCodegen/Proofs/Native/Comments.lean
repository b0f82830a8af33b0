import StackCodegen.Proofs.Native.CompiledText
import StackCodegen.Proofs.Native.Renaming
import StackCodegen.Proofs.Text.Trimming

/-!
# Comments in assembly text

The text of a statement is pasted behind the statement's label as a comment, and with it, as it
stands, the name of the variable that is loaded or stored. An assembler takes a text line by line,
without what follows a `#` and without the blanks around the rest. If a name holds a line feed, the
comment ends there, and the rest of the name is a line of its own (`Line.spill`).

Main statements:

- the stripped lines of a text are what the lowering emitted and, behind each label, what the
  comment of the label spills. They are what the lowering emitted and nothing else, and the lines
  are as many as the listing counts, exactly if no name that is loaded or stored holds a line feed;
  renamed variables leave the emitted code as it is (`comments_stripped`);
- a name with a line feed puts an instruction of its own into the code (`name_pasted_into_code`).
-/

set_option autoImplicit false

namespace StackCodegen.Native

/-! ## Stripped lines -/

/-- A line without its comment and the blanks at its ends. -/
def stripLine (line : List Char) : List Char := Text.trim (line.takeWhile (· != '#'))

/-- The lines of a text, each stripped. -/
def strippedLines (text : String) : List (List Char) := (text.toList.splitOn '\n').map stripLine

/-- A text that stripping leaves as it is: it starts and ends with a visible character, and it
holds neither a comment nor the end of a line. -/
structure Solid (cs : List Char) : Prop where
  inside : ∀ c ∈ cs, c ≠ '#' ∧ c ≠ '\n'
  head : ∃ c ∈ cs.head?, Text.isBlank c = false
  last : ∃ c ∈ cs.getLast?, Text.isBlank c = false

/-- Words are solid. -/
theorem solid_of_plain {word : List Char} (hne : word ≠ []) (h : ∀ c ∈ word, isPlain c = true) :
    Solid word := by
  have hvisible : ∀ c ∈ word, c ≠ '#' ∧ Text.isBlank c = false := by
    intro c hc
    have hplain := h c hc
    rw [isPlain, Bool.and_eq_true, Bool.and_eq_true, bne_iff_ne, Bool.not_eq_true'] at hplain
    exact ⟨hplain.1.1, hplain.2⟩
  refine ⟨fun c hc => ⟨(hvisible c hc).1, ?_⟩, ?_, ?_⟩
  · rintro rfl
    cases (hvisible _ hc).2
  · exact ⟨word.head hne, List.head?_eq_some_head hne, (hvisible _ (List.head_mem hne)).2⟩
  · exact ⟨word.getLast hne, List.getLast?_eq_some_getLast hne,
      (hvisible _ (List.getLast_mem hne)).2⟩

/-- Solid texts may be joined by anything that is no comment and ends no line. -/
theorem Solid.append {front back : List Char} (hfront : Solid front) (hback : Solid back)
    {between : List Char} (hbetween : ∀ c ∈ between, c ≠ '#' ∧ c ≠ '\n') :
    Solid (front ++ between ++ back) := by
  obtain ⟨first, hfirst, hfirst'⟩ := hfront.head
  obtain ⟨last, hlast, hlast'⟩ := hback.last
  refine ⟨fun c hc => ?_, ⟨first, ?_, hfirst'⟩, ⟨last, ?_, hlast'⟩⟩
  · rcases List.mem_append.1 hc with hc | hc
    · rcases List.mem_append.1 hc with hc | hc
      · exact hfront.inside c hc
      · exact hbetween c hc
    · exact hback.inside c hc
  · rw [List.append_assoc, List.head?_append, Option.mem_def.1 hfirst, Option.some_or]
    rfl
  · rw [List.getLast?_append, Option.mem_def.1 hlast, Option.some_or]
    rfl

/-- Trimming takes away the blanks in front of a solid text and behind it. -/
theorem trim_solid {front cs back : List Char} (h : Solid cs)
    (hfront : ∀ c ∈ front, Text.isBlank c = true) (hback : ∀ c ∈ back, Text.isBlank c = true) :
    Text.trim (front ++ cs ++ back) = cs :=
  Text.trim_of_visible h.head h.last hfront hback

/-- Stripping leaves the solid text in front of a comment. -/
theorem stripLine_solid {cs : List Char} (h : Solid cs) (indentation : Nat)
    {back comment : List Char} (hback : ∀ c ∈ back, c = ' ')
    (hcomment : ∀ c ∈ comment.head?, c = '#') :
    stripLine (List.replicate indentation ' ' ++ cs ++ back ++ comment) = cs := by
  have hblank : ∀ c ∈ List.replicate indentation ' ', c = ' ' := fun c hc =>
    List.eq_of_mem_replicate hc
  have hbefore : ∀ c ∈ List.replicate indentation ' ' ++ cs ++ back, (c != '#') = true := by
    intro c hc
    rw [bne_iff_ne]
    rcases List.mem_append.1 hc with hc | hc
    · rcases List.mem_append.1 hc with hc | hc
      · rw [hblank c hc]
        decide
      · exact (h.inside c hc).1
    · rw [hback c hc]
      decide
  have hcut : (List.replicate indentation ' ' ++ cs ++ back ++ comment).takeWhile (· != '#') =
      List.replicate indentation ' ' ++ cs ++ back :=
    Text.takeWhile_of_stop hbefore fun c hc => by simpa using hcomment c hc
  rw [stripLine, hcut]
  exact trim_solid h (fun c hc => hblank c hc ▸ rfl) fun c hc => hback c hc ▸ rfl

/-! ## Lines of a text -/

/-- What a line is written for: a directive, a label or an instruction. -/
def Line.content : Line → String
  | directive text => text
  | label name | commentedLabel name _ => name ++ ":"
  | instruction mnemonic [] => mnemonic
  | instruction mnemonic operands => mnemonic ++ " " ++ ", ".intercalate operands

/-- A line is an indentation, what it is written for, and a comment behind its mark. -/
theorem Line.exists_toList_text (line : Line) :
    ∃ indentation mark, line.text.toList =
        List.replicate indentation ' ' ++ line.content.toList ++ mark ++ line.comment.toList ∧
      (mark = [' ', '#', ' '] ∨ mark = [] ∧ line.comment = "") := by
  cases line with
  | directive text => exact ⟨0, [], by simp [Line.text, content, comment], .inr ⟨rfl, rfl⟩⟩
  | label name => exact ⟨0, [], by simp [Line.text, content, comment], .inr ⟨rfl, rfl⟩⟩
  | commentedLabel name comment =>
      exact ⟨0, [' ', '#', ' '], by simp [Line.text, content, Line.comment], .inl rfl⟩
  | instruction mnemonic operands =>
      refine ⟨4, [], ?_, .inr ⟨rfl, rfl⟩⟩
      cases operands with
      | nil => simp [Line.text, content, comment]
      | cons operand operands => simp [Line.text, content, comment]

/-- A line strips to what it is written for, and to what its comment spills. -/
theorem map_stripLine_text {line : Line} (h : Solid line.content.toList) :
    (line.text.toList.splitOn '\n').map stripLine =
      line.content.toList :: line.spill.map stripLine := by
  obtain ⟨indentation, mark, htext, hmark⟩ := line.exists_toList_text
  have hfront : '\n' ∉ List.replicate indentation ' ' ++ line.content.toList ++ mark := by
    simp only [List.mem_append, not_or]
    refine ⟨⟨fun hmem => ?_, fun hmem => (h.inside _ hmem).2 rfl⟩, fun hmem => ?_⟩
    · cases List.eq_of_mem_replicate hmem
    · rcases hmark with rfl | ⟨rfl, -⟩ <;> revert hmem <;> decide
  obtain ⟨first, hsplit, hfirst⟩ := splitOn_append hfront line.comment.toList
  rw [htext, hsplit, List.map_cons, Line.spill]
  congr 1
  -- the mark of a comment starts with a blank, which goes with the comment
  rcases hmark with rfl | ⟨rfl, hnone⟩
  · have hstrip : stripLine (List.replicate indentation ' ' ++ line.content.toList ++ [' '] ++
        ('#' :: ' ' :: first)) = line.content.toList :=
      stripLine_solid h indentation (by simp) (by simp)
    simpa using hstrip
  · rw [hfirst (by rw [hnone]; rfl)]
    exact stripLine_solid h indentation (by simp) (by simp)

/-- The stripped lines of a listing. -/
theorem strippedLines_text {lines : Listing} (h : ∀ line ∈ lines, Solid line.content.toList) :
    strippedLines lines.text =
      (lines.flatMap fun line => line.content.toList :: line.spill.map stripLine) ++ [[]] := by
  rw [strippedLines, splitOn_text, List.map_append, List.map_flatMap]
  congr 1
  exact List.flatMap_congr fun line hline => map_stripLine_text (h line hline)

theorem length_flatMap_content (lines : Listing) :
    (lines.flatMap fun line => line.content.toList :: line.spill.map stripLine).length =
      lines.lineCount + (lines.flatMap Line.spill).length := by
  induction lines with
  | nil => rfl
  | cons line lines ih =>
      rw [List.flatMap_cons, List.length_append, ih, List.flatMap_cons, List.length_append,
        List.length_cons, List.length_map, Listing.lineCount, Listing.lineCount, List.length_cons]
      omega

/-- The stripped lines are the contents of the lines and nothing else exactly if nothing is
spilled. -/
theorem flatMap_content_eq_iff {lines : Listing} :
    (lines.flatMap fun line => line.content.toList :: line.spill.map stripLine) =
        (lines.map Line.content).map String.toList ↔ lines.flatMap Line.spill = [] := by
  constructor
  · intro h
    have hlength := congrArg List.length h
    rw [length_flatMap_content, List.length_map, List.length_map, Listing.lineCount,
      Nat.add_eq_left] at hlength
    exact List.length_eq_zero_iff.1 hlength
  · intro h
    rw [List.map_map, List.map_eq_flatMap]
    refine List.flatMap_congr fun line hline => ?_
    rw [List.flatMap_eq_nil_iff.1 h line hline]
    rfl

/-- A text has a line feed for every line that is counted and for every one that is spilled. -/
theorem count_text {lines : Listing} (h : ∀ line ∈ lines, Solid line.content.toList) :
    lines.text.toList.count '\n' = lines.lineCount + (lines.flatMap Line.spill).length := by
  have hlength := congrArg List.length (strippedLines_text h)
  rw [strippedLines, List.length_map, length_splitOn, List.length_append,
    length_flatMap_content] at hlength
  exact Nat.succ_injective hlength

/-! ## Code -/

/-- The operands of an instruction, joined, are solid. -/
theorem solid_operands {operands : List String} (hne : operands ≠ [])
    (h : ∀ operand ∈ operands, operand.toList ≠ [] ∧ ∀ c ∈ operand.toList, isPlain c = true) :
    Solid (", ".intercalate operands).toList := by
  induction operands with
  | nil => exact absurd rfl hne
  | cons operand operands ih =>
      obtain ⟨hoperand, hoperands⟩ := List.forall_mem_cons.1 h
      have hsolid := solid_of_plain hoperand.1 hoperand.2
      cases operands with
      | nil =>
          rw [String.intercalate_singleton]
          exact hsolid
      | cons operand' operands =>
          rw [String.intercalate_cons_cons, String.toList_append, String.toList_append]
          exact hsolid.append (ih (List.cons_ne_nil _ _) hoperands) (by simp)

/-- What an element of code is written for is solid, whatever its comment is. -/
theorem solid_content {item : Item} (h : item.bare.Readable) : Solid item.line.content.toList := by
  have hsymbol : ∀ {symbol : String}, isSymbol symbol.toList = true → Solid symbol.toList :=
    fun hs => solid_of_plain (plain_of_symbol hs).1 fun c hc => ((plain_of_symbol hs).2 c hc).1
  have hsign : ∀ c : Char, isPlain c = true → Solid [c] := fun c hc =>
    solid_of_plain (List.cons_ne_nil _ _) (by simpa using hc)
  cases item with
  | directive text =>
      rcases h with rfl | ⟨symbol, hs, rfl⟩
      · exact solid_of_plain (by decide) (List.all_eq_true.1 (by decide))
      · have hglobl : Solid ".globl".toList :=
          solid_of_plain (by decide) (List.all_eq_true.1 (by decide))
        have htext : (".globl " ++ symbol).toList = ".globl".toList ++ [' '] ++ symbol.toList := by
          rw [String.toList_append]
          rfl
        rw [Item.line, Line.content, htext]
        exact hglobl.append (hsymbol hs) (by simp)
  | label name comment =>
      have hcontent : (Item.label name comment).line.content.toList =
          name.toList ++ [] ++ [':'] := by
        rw [List.append_nil]
        cases comment with
        | none | some text => exact String.toList_append
      rw [hcontent]
      exact (hsymbol h.1).append (hsign ':' (by decide)) (by simp)
  | code insn =>
      obtain ⟨mnemonic, operands, hwritten⟩ := exists_written h
      have hmnemonic : Solid mnemonic.toList := solid_of_plain hwritten.nonempty fun c hc =>
        plain_of_isSymbolPart (isSymbolPart_of_isLower (hwritten.letters c hc))
      rw [Item.line, hwritten.line_eq]
      cases operands with
      | nil => exact hmnemonic
      | cons operand operands =>
          rw [Line.content, String.toList_append, String.toList_append]
          · exact hmnemonic.append (solid_operands (List.cons_ne_nil _ _) hwritten.plain) (by simp)
          · exact List.cons_ne_nil _ _

/-- Comments are no part of what elements are written for. -/
theorem map_content_eq_of_bare {items items' : List Item}
    (h : items'.map Item.bare = items.map Item.bare) :
    (items'.map Item.line).map Line.content = (items.map Item.line).map Line.content := by
  have hbare : ∀ item : Item, item.line.content = item.bare.line.content := by
    intro item
    cases item with
    | directive text | code insn => rfl
    | label name comment =>
        cases comment with
        | none | some text => rfl
  have hmap : ∀ items : List Item, (items.map Item.line).map Line.content =
      (items.map Item.bare).map fun item => item.line.content := by
    intro items
    rw [List.map_map, List.map_map]
    exact List.map_congr_left fun item _ => hbare item
  rw [hmap, hmap, h]

section Programs

variable {platform : Platform} {program : Program} {items : List Item}

/-- The label of every statement carries the statement's text. -/
theorem label_mem_of_statement (h : compileProgram platform program = .ok items) {f : Function}
    (hf : f ∈ program.functions) {k : Nat} {s : Statement} (hk : f.body[k]? = some s) :
    ∃ code, lowerStatement platform program f (Frame.layout f.declaration f.body).table k s =
        .ok code ∧ .label (statementLabel f.name k) (some s.text) ∈ items := by
  obtain ⟨front, block, back, parts, -, hparts, rfl⟩ := exists_block h hf
  obtain ⟨code, hcode, hpart⟩ := hparts.block_eq k s hk
  refine ⟨code, hcode, List.mem_append_right _ (List.mem_append_left _ ?_)⟩
  rw [hparts.items_eq]
  refine List.mem_append_left _ (List.mem_append_right _ ?_)
  exact List.mem_flatten.2 ⟨_, List.mem_of_getElem? hpart, List.mem_cons_self⟩

/-- No comment spills exactly if no name that is loaded or stored holds a line feed. -/
theorem spill_eq_nil_iff (hsymbols : ∀ f ∈ program.functions, isSymbol f.name.toList = true)
    (h : compileProgram platform program = .ok items) :
    (items.map Item.line).flatMap Line.spill = [] ↔ Spellable program := by
  rw [List.flatMap_eq_nil_iff, List.forall_mem_map]
  constructor
  · -- the label of the statement that names the variable would spill
    intro hspill
    refine ⟨hsymbols, fun f hf s hs name hname hnewline => ?_⟩
    obtain ⟨k, hk⟩ := List.getElem?_of_mem hs
    rw [Array.getElem?_toList] at hk
    obtain ⟨code, hcode, hmem⟩ := label_mem_of_statement h hf hk
    have hnil := congrArg List.length (hspill _ hmem)
    rw [length_spill] at hnil
    have hcomment := (newline_mem_text_iff hsymbols hcode).2 ⟨name, hname, hnewline⟩
    exact List.count_eq_zero.1 hnil hcomment
  · intro hspell item hitem
    exact spill_of_readable (readable_compileProgram hspell h item hitem)

theorem solid_lines (hsymbols : ∀ f ∈ program.functions, isSymbol f.name.toList = true)
    (h : compileProgram platform program = .ok items) :
    ∀ line ∈ items.map Item.line, Solid line.content.toList := by
  rw [List.forall_mem_map]
  exact fun item hitem => solid_content (readable_bare_compileProgram hsymbols h item hitem)

theorem strippedLines_eq_iff (hsymbols : ∀ f ∈ program.functions, isSymbol f.name.toList = true)
    (h : compileProgram platform program = .ok items) :
    strippedLines (Listing.text (items.map Item.line)) =
      ((items.map Item.line).map Line.content).map String.toList ++ [[]] ↔ Spellable program := by
  rw [strippedLines_text (solid_lines hsymbols h), List.append_left_inj, flatMap_content_eq_iff]
  exact spill_eq_nil_iff hsymbols h

theorem count_eq_iff (hsymbols : ∀ f ∈ program.functions, isSymbol f.name.toList = true)
    (h : compileProgram platform program = .ok items) :
    (Listing.text (items.map Item.line)).toList.count '\n' =
      Listing.lineCount (items.map Item.line) ↔ Spellable program := by
  rw [count_text (solid_lines hsymbols h), Nat.add_eq_left, List.length_eq_zero_iff]
  exact spill_eq_nil_iff hsymbols h

/-- Comments in compiled text. Stripped of comments and blanks, the lines of a text are what the
lowering emitted, element by element, each followed by what its comment spills. So they are what was
emitted and nothing else exactly if no name that is loaded or stored holds a line feed, and then
only are the lines as many as the listing counts. Renaming variables leaves what is emitted as it
is, and the stripped lines too where no name holds a line feed. -/
theorem comments_stripped (hsymbols : ∀ f ∈ program.functions, isSymbol f.name.toList = true)
    {text : String} (h : compile platform program = .ok text) :
    ∃ items, compileProgram platform program = .ok items ∧
      text = Listing.text (items.map Item.line) ∧
      strippedLines text = ((items.map Item.line).flatMap fun line =>
        line.content.toList :: line.spill.map stripLine) ++ [[]] ∧
      text.toList.count '\n' = Listing.lineCount (items.map Item.line) +
        ((items.map Item.line).flatMap Line.spill).length ∧
      (strippedLines text =
        ((items.map Item.line).map Line.content).map String.toList ++ [[]] ↔ Spellable program) ∧
      (text.toList.count '\n' = Listing.lineCount (items.map Item.line) ↔ Spellable program) ∧
      ∀ program', program.Renamed program' → ∃ text' items', compile platform program' = .ok text' ∧
        compileProgram platform program' = .ok items' ∧
        items'.map Item.bare = items.map Item.bare ∧
        (Spellable program → Spellable program' → strippedLines text' = strippedLines text) := by
  obtain ⟨items, hitems, rfl⟩ := code_of_compile h
  refine ⟨items, hitems, rfl, strippedLines_text (solid_lines hsymbols hitems),
    count_text (solid_lines hsymbols hitems), strippedLines_eq_iff hsymbols hitems,
    count_eq_iff hsymbols hitems, fun program' hrenamed => ?_⟩
  obtain ⟨items', hitems', hsame⟩ := compileProgram_renamed hrenamed hitems
  have hlisting : compileListing platform program' = .ok (items'.map Item.line) :=
    map_eq_ok.2 ⟨items', hitems', rfl⟩
  refine ⟨_, items', map_eq_ok.2 ⟨_, hlisting, rfl⟩, hitems', hsame, fun hspell hspell' => ?_⟩
  rw [(strippedLines_eq_iff hspell'.symbol hitems').2 hspell',
    (strippedLines_eq_iff hsymbols hitems).2 hspell, map_content_eq_of_bare hsame]

end Programs

/-- A routine whose variable is called like a comment. -/
def hashNamed : Program :=
  ⟨[⟨⟨"main", []⟩, #[.push 1, .store "a # b:", .load "a # b:", .returnTop]⟩], by decide⟩

/-- Signs of comments in names do no harm. -/
theorem hashNamed_stripped :
    ∃ text items, compile .unix hashNamed = .ok text ∧ compileProgram .unix hashNamed = .ok items ∧
      strippedLines text =
        ((items.map Item.line).map Line.content).map String.toList ++ [[]] ∧
      text.toList.count '\n' = Listing.lineCount (items.map Item.line) := by
  obtain ⟨text, htext⟩ := exists_ok_of_toBool
    (by decide +kernel : (compile .unix hashNamed).toBool = true)
  obtain ⟨items, hitems, -, -, -, hstripped, hcount, -⟩ :=
    comments_stripped (by decide : ∀ f ∈ hashNamed.functions, isSymbol f.name.toList = true) htext
  have hspell : Spellable hashNamed := by decide
  exact ⟨text, items, htext, hitems, hstripped.2 hspell, hcount.2 hspell⟩

/-- A routine that stores 1 in a variable and writes what it loads from it. -/
def writingEntry (name : String) : Function :=
  ⟨⟨"main", []⟩, #[.push 1, .store name, .load name, .call (.intrinsic .write), .returnZero]⟩

/-- The program of the routine. -/
def writing (name : String) : Program :=
  ⟨[writingEntry name], List.nodup_singleton _⟩

/-- A name with a line feed puts instructions into the code. The two programs differ in the
name of their one variable alone, and the reference machine writes 1. The text of the second has
more lines than the listing counts; those that were not emitted for any element are read as
instructions, and the text writes 7. -/
theorem name_pasted_into_code :
    (writing "x").Renamed (writing "x\npushl $7") ∧ (writing "x\npushl $7").run [] = .ok [1] ∧
      ∃ text text' items code position c, compile .unix (writing "x") = .ok text ∧
        compile .unix (writing "x\npushl $7") = .ok text' ∧
        compileProgram .unix (writing "x\npushl $7") = .ok items ∧
        strippedLines text' ≠ strippedLines text ∧
        strippedLines text' ≠
          ((items.map Item.line).map Line.content).map String.toList ++ [[]] ∧
        text'.toList.count '\n' ≠ Listing.lineCount (items.map Item.line) ∧
        read? text' = some code ∧
        Calls ⟨code, .unix, quietRuntime⟩ (writingEntry "x\npushl $7") (zeroCaller position [])
          0 1000 ∧
        Executable.Steps ⟨code, .unix, quietRuntime⟩ (zeroCaller position []) c ∧
        c.pc = 1000 ∧ c.output = [7] := by
  have hrenamed : (writing "x").Renamed (writing "x\npushl $7") := by
    refine .cons ⟨fun _ => "x\npushl $7", rfl, rfl, ?_, ?_⟩ .nil
    · exact .cons (.other rfl) (.cons (.store "x") (.cons (.load "x")
        (.cons (.other rfl) (.cons (.other rfl) .nil))))
    · have hvariables : (writingEntry "x").variables = ["x"] := by decide +kernel
      intro name hname name' hname' _
      rw [Set.mem_ofPred_eq, hvariables, List.mem_singleton] at hname hname'
      rw [hname, hname']
  have hsymbols : ∀ name, ∀ f ∈ (writing name).functions, isSymbol f.name.toList = true := by
    intro name f hf
    rw [List.mem_singleton.1 hf]
    exact (by decide : isSymbol "main".toList = true)
  have hspell : Spellable (writing "x") := by decide
  have hbroken : ¬ Spellable (writing "x\npushl $7") := by decide
  obtain ⟨text, htext⟩ := exists_ok_of_toBool
    (by decide +kernel : (compile .unix (writing "x")).toBool = true)
  obtain ⟨items, hitems, rfl⟩ := code_of_compile htext
  obtain ⟨_, items', htext', hitems', rfl, hread, hcheck⟩ :=
    exists_spelled_text .unix (writing "x\npushl $7") (hsymbols _)
      (fun items =>
        let x : Executable := ⟨items.flatMap Item.spelled, .unix, quietRuntime⟩
        (x.position? "main").any fun position =>
          (x.after? 21 (zeroCaller position [])).any fun c => c.pc = 1000 ∧ c.output = [7])
      (by decide +kernel) (by decide +kernel)
  simp only [Option.any_eq_true, decide_eq_true_eq] at hcheck
  obtain ⟨position, hposition, c, hc, hpc, houtput⟩ := hcheck
  obtain ⟨items'', hitems'', hsame⟩ := compileProgram_renamed hrenamed hitems
  cases hitems'.symm.trans hitems''
  have hstripped := (strippedLines_eq_iff (hsymbols _) hitems).2 hspell
  have hspilled := mt (strippedLines_eq_iff (hsymbols _) hitems').1 hbroken
  have hcount := mt (count_eq_iff (hsymbols _) hitems').1 hbroken
  refine ⟨hrenamed, by decide +kernel, _, _, items', _, position, c, htext, htext', hitems',
    fun heq => hspilled ?_, hspilled, hcount, hread, calls_zeroCaller hposition [],
    Executable.steps_of_after? hc, hpc, houtput⟩
  rw [heq, hstripped, map_content_eq_of_bare hsame]

end StackCodegen.Native
