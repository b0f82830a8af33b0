import StackCodegen.Proofs.Native.Preservation

/-!
# Names that compiled text defines

Functions, statements and the runtime share one space of names. A text defines the symbol of every
function and the label of every statement and end, and calls the services of the runtime by symbols
that it leaves to the linker.

Main statements:

- the names that code defines are pairwise different, whatever the functions are called, and the
  text defines them and those that comments spill (`names_defined_once`), which may be the same
  (`label_defined_twice`);
- the symbol of a service is among them exactly if a function has the name of the service. If none
  has, every intrinsic call is answered by the runtime; if one has, every such call enters that
  function instead (`intrinsic_calls_linked`), and what it returns is taken for what was read
  (`input_taken_from_function`).
-/

set_option autoImplicit false

namespace StackCodegen.Native

/-! ## Defined names -/

/-- The name that a line defines. -/
def Line.definedName? : Line → Option String
  | label name | commentedLabel name _ => some name
  | directive _ | instruction _ _ => none

/-- The names that a listing defines, in order. -/
def Listing.definedNames (lines : Listing) : List String :=
  lines.filterMap Line.definedName?

/-- The lines of code define the labels of the code. -/
theorem definedNames_line (items : List Item) :
    Listing.definedNames (items.map Item.line) = labelNames items := by
  rw [Listing.definedNames, labelNames, List.filterMap_map]
  congr 1
  funext item
  cases item with
  | directive text => rfl
  | label name comment => cases comment <;> rfl
  | code insn => cases insn <;> rfl

section Programs

variable {platform : Platform} {program : Program}

/-- Compiled code defines the symbol of each function and the label of each statement and end, and
none of them twice. If functions have symbols for names, the labels of the text are these and those
that comments spill, so each of these is defined once exactly if no comment spills it. Where the
names can be spelled nothing is spilled, and the text read back has the same labels. -/
theorem names_defined_once {text : String} (h : compile platform program = .ok text) :
    ∃ items, compileProgram platform program = .ok items ∧
      text = Listing.text (items.map Item.line) ∧
      Listing.definedNames (items.map Item.line) = (program.functions.flatMap fun f =>
        platform.symbol f.name :: (List.range (f.body.size + 1)).map (statementLabel f.name)) ∧
      (Listing.definedNames (items.map Item.line)).Nodup ∧
      (∀ f ∈ program.functions,
        (Listing.definedNames (items.map Item.line)).count (platform.symbol f.name) = 1 ∧
        ∀ i ≤ f.body.size,
          (Listing.definedNames (items.map Item.line)).count (statementLabel f.name i) = 1) ∧
      ((∀ f ∈ program.functions, isSymbol f.name.toList = true) →
        (textLabels text).Perm (Listing.definedNames (items.map Item.line) ++
          labelNames (items.flatMap Item.spilled)) ∧
        ((∀ name ∈ Listing.definedNames (items.map Item.line), (textLabels text).count name = 1) ↔
          ∀ name ∈ labelNames (items.flatMap Item.spilled),
            name ∉ Listing.definedNames (items.map Item.line))) ∧
      (Spellable program → ∃ code, read? text = some code ∧
        labelNames code = Listing.definedNames (items.map Item.line) ∧
        textLabels text = Listing.definedNames (items.map Item.line)) := by
  obtain ⟨items, hitems, rfl⟩ := code_of_compile h
  have hnames := labelNames_compileProgram hitems
  have hnodup := nodup_labelNames hitems
  refine ⟨items, hitems, rfl, ?_⟩
  rw [definedNames_line]
  -- in a list without repetitions, to be there is to be there once
  have honce : ∀ name ∈ labelNames items, (labelNames items).count name = 1 :=
    fun name => List.count_eq_one_of_mem hnodup
  refine ⟨hnames, hnodup, fun f hf => ⟨honce _ ?_, fun i hi => honce _ ?_⟩, fun hsymbols => ?_,
    fun hspell => ?_⟩
  · rw [hnames]
    exact List.mem_flatMap.2 ⟨f, hf, List.mem_cons_self⟩
  · rw [hnames]
    refine List.mem_flatMap.2 ⟨f, hf, List.mem_cons_of_mem _ (List.mem_map.2 ⟨i, ?_, rfl⟩)⟩
    exact List.mem_range.2 (Nat.lt_succ_of_le hi)
  · have hperm := textLabels_perm (readable_bare_compileProgram hsymbols hitems)
    refine ⟨hperm, ?_⟩
    -- a label is counted where it is emitted, and wherever it is spilled
    have hcount : ∀ name ∈ labelNames items, (textLabels (Listing.text (items.map Item.line))).count
        name = 1 ↔ name ∉ labelNames (items.flatMap Item.spilled) := by
      intro name hname
      rw [hperm.count_eq, List.count_append, honce name hname, Nat.add_eq_left, List.count_eq_zero]
    constructor
    · intro hall name hspilled hname
      exact (hcount name hname).1 (hall name hname) hspilled
    · intro hfree name hname
      exact (hcount name hname).2 fun hspilled => hfree name hspilled hname
  · have hread := read?_text (readable_compileProgram hspell hitems)
    have hlabels := labelNames_bare items
    exact ⟨_, hread, hlabels, (textLabels_of_read? hread).trans hlabels⟩

/-- Three functions whose symbols and labels come close to one another. -/
def closeNames : Program :=
  ⟨[⟨⟨"f", []⟩, #[.nop, .jump 2]⟩, ⟨⟨"f_l1", []⟩, #[]⟩, ⟨⟨"_f", []⟩, #[]⟩], by decide⟩

/-- A routine that stores 1 in a variable. -/
def storing (name : String) : Program :=
  ⟨[⟨⟨"main", []⟩, #[.push 1, .store name]⟩], List.nodup_singleton _⟩

/-- With underscores before symbols all names of the three are different, in the text too; without
them the symbol of the second function is a label of the first one, and the program is refused. A
comment that spills a label of its own leaves the others defined once. -/
theorem close_names_defined_once :
    (∃ text, compile .win closeNames = .ok text ∧
      textLabels text = ["_f", "f_l0", "f_l1", "f_l2", "_f_l1", "f_l1_l0", "__f", "_f_l0"] ∧
      (textLabels text).Nodup ∧ (textLabels text).count (statementLabel "f" 1) = 1) ∧
    compile .unix closeNames = .error (.symbolClash "f_l1" "f_l1") ∧
    ∃ text, compile .unix (storing "x\ny:") = .ok text ∧ "y" ∈ textLabels text ∧
      ∀ name ∈ ["main", "main_l0", "main_l1", "main_l2"], (textLabels text).count name = 1 := by
  obtain ⟨text, htext⟩ := exists_ok_of_toBool
    (by decide +kernel : (compile .win closeNames).toBool = true)
  obtain ⟨text', htext'⟩ := exists_ok_of_toBool
    (by decide +kernel : (compile .unix (storing "x\ny:")).toBool = true)
  obtain ⟨items, -, -, hnames, hnodup, honce, -, hspelled⟩ := names_defined_once htext
  obtain ⟨items', hitems', -, hnames', -, -, hspilled, -⟩ := names_defined_once htext'
  obtain ⟨code, -, -, hlabels⟩ := hspelled (by decide : Spellable closeNames)
  refine ⟨⟨text, htext, ?_, ?_, ?_⟩, by decide +kernel, text', htext', ?_⟩
  · rw [hlabels, hnames]
    decide +kernel
  · rw [hlabels]
    exact hnodup
  · rw [hlabels]
    exact (honce ⟨⟨"f", []⟩, #[.nop, .jump 2]⟩ (by decide)).2 1 (by decide)
  · obtain ⟨hperm, hiff⟩ := hspilled
      (by decide : ∀ f ∈ (storing "x\ny:").functions, isSymbol f.name.toList = true)
    have hy : (compileProgram .unix (storing "x\ny:")).toOption.any fun items =>
        labelNames (items.flatMap Item.spilled) = ["y"] := by
      decide +kernel
    rw [hitems'] at hy
    simp only [Except.toOption, Option.any_some, decide_eq_true_eq] at hy
    have hdefined : Listing.definedNames (items'.map Item.line) =
        ["main", "main_l0", "main_l1", "main_l2"] := by
      rw [hnames']
      decide +kernel
    rw [hy, hdefined] at hperm hiff
    exact ⟨hperm.mem_iff.2 (by decide), hiff.2 (by decide)⟩

/-- A name with a line feed defines a label again: the text that is accepted is read, and has the
label of its first statement twice. -/
theorem label_defined_twice :
    ∃ text code, compile .unix (storing "x\nmain_l0:") = .ok text ∧ read? text = some code ∧
      textLabels text = ["main", "main_l0", "main_l1", "main_l0", "main_l2"] ∧
      (textLabels text).count (statementLabel "main" 0) = 2 := by
  obtain ⟨text, items, htext, -, -, hread, hlabels⟩ :=
    exists_spelled_text .unix (storing "x\nmain_l0:") (by decide)
      (fun items => labelNames (items.flatMap Item.spelled) =
        ["main", "main_l0", "main_l1", "main_l0", "main_l2"])
      (by decide +kernel) (by decide +kernel)
  have hall := (textLabels_of_read? hread).trans (of_decide_eq_true hlabels)
  refine ⟨text, _, htext, hread, hall, ?_⟩
  rw [hall]
  decide +kernel

end Programs

/-! ## Intrinsic calls -/

/-- The place of the call in the code of an intrinsic statement. The code lies between the labels of
the statement and of the next one, and the call comes behind the copies of the arguments. -/
structure IntrinsicCall (x : Executable) (f : Function) (k : Nat) (service : Intrinsic)
    (place : Nat) : Prop where
  statement_eq : f.body[k]? = some (.call (.intrinsic service))
  items_eq : ∃ front back, place = front.length + 1 + service.arity ∧
    x.items = front ++ .label (statementLabel f.name k) none ::
      ((callSequence (x.platform.symbol service.symbol) service.arity service.returnsValue).map
          .code ++ .label (statementLabel f.name (k + 1)) none :: back)

/-- What the calls of a service come to. If no function has the name of the service, the runtime
answers each of them; if one has, each of them puts its return address on the stack and goes to the
symbol of that function. -/
structure ServiceLinked (program : Program) (x : Executable) (service : Intrinsic) : Prop where
  label_iff : x.platform.symbol service.symbol ∈ labelNames x.items ↔
    service.symbol ∈ program.names
  placed : ∀ f ∈ program.functions, ∀ k, f.body[k]? = some (.call (.intrinsic service)) →
    ∃ place, IntrinsicCall x f k service place
  answered : service.symbol ∉ program.names → ∀ f k place c, IntrinsicCall x f k service place →
    c.pc = place →
      x.step? c = (c.goto (place + 1)).service? (x.runtime (c.goto (place + 1))) service
  taken : service.symbol ∈ program.names →
    ∃ position, x.position? (x.platform.symbol service.symbol) = some position ∧
      ∀ f k place c, IntrinsicCall x f k service place → c.pc = place →
        x.step? c = ((c.goto (place + 1)).push? (.code (place + 1))).map (·.goto position)

section Calls

variable {x : Executable} {program : Program} {c : Cpu} {f : Function} {k place : Nat}
  {service : Intrinsic}

/-- Every intrinsic statement of a loaded program has its call. -/
theorem exists_intrinsicCall (h : Loads program x) (hf : f ∈ program.functions)
    (hk : f.body[k]? = some (.call (.intrinsic service))) :
    ∃ place, IntrinsicCall x f k service place := by
  obtain ⟨code, front, back, hcode, hitems⟩ := h.statement hf hk
  cases hcode
  exact ⟨_, hk, front, back, rfl, hitems⟩

theorem IntrinsicCall.step?_eq (h : IntrinsicCall x f k service place) (hpc : c.pc = place) :
    x.step? c = x.call? (c.goto (place + 1)) (x.platform.symbol service.symbol) := by
  obtain ⟨front, back, rfl, hitems⟩ := h.items_eq
  obtain ⟨release, hcode⟩ : ∃ release,
      callSequence (x.platform.symbol service.symbol) service.arity service.returnsValue =
        copiesCode service.arity ++ .call (x.platform.symbol service.symbol) :: release :=
    ⟨_, callSequence_eq _ _ _⟩
  have hsplit : x.items = (front ++ (Item.label (statementLabel f.name k) none ::
      (copiesCode service.arity).map Item.code)) ++
        Item.code (.call (x.platform.symbol service.symbol)) ::
          (release.map Item.code ++ .label (statementLabel f.name (k + 1)) none :: back) := by
    rw [hitems, hcode]
    simp
  -- the copies of the arguments come before the call, one each
  have hlength : (front ++ (Item.label (statementLabel f.name k) none ::
      (copiesCode service.arity).map Item.code)).length = front.length + 1 + service.arity := by
    simp only [copiesCode, List.length_append, List.length_cons, List.length_map, List.length_range]
    omega
  rw [← hlength] at hpc ⊢
  exact Option.ext fun d => Executable.step_iff hsplit hpc

/-- Calls of a service come to the runtime, or to the function of its name. -/
theorem Loads.serviceLinked (h : Loads program x) (service : Intrinsic) :
    ServiceLinked program x service := by
  have hlabel : x.platform.symbol service.symbol ∈ labelNames x.items ↔
      service.symbol ∈ program.names := by
    obtain ⟨items, hitems, hx⟩ := h
    rw [hx, labelNames_bare, symbol_mem_labelNames_iff hitems]
  refine ⟨hlabel, fun f hf k hk => exists_intrinsicCall h hf hk, ?_, ?_⟩
  · -- no label has the symbol, so the call is left to the runtime
    intro hfree f k place c hcall hpc
    have hnone := position?_eq_none_iff.2 (mt hlabel.1 hfree)
    rw [hcall.step?_eq hpc, Executable.call?, hnone, Linked.service?_eq]
  · -- a label comes before the runtime
    intro htaken
    obtain ⟨position, hposition⟩ := Option.ne_none_iff_exists'.1
      fun hnone => position?_eq_none_iff.1 hnone (hlabel.2 htaken)
    refine ⟨position, hposition, fun f k place c hcall hpc => ?_⟩
    rw [hcall.step?_eq hpc, Executable.call?, hposition]
    rfl

end Calls

/-- Intrinsic calls come to the runtime unless a function has the name of the service. The text
defines the symbol of a service exactly if a function has that name; and every intrinsic call of the
loaded code is answered by the runtime, or enters that function. -/
theorem intrinsic_calls_linked {platform : Platform} {program : Program} {text : String}
    (h : compile platform program = .ok text) :
    ∃ items, compileProgram platform program = .ok items ∧
      text = Listing.text (items.map Item.line) ∧
      (∀ service : Intrinsic,
        platform.symbol service.symbol ∈ Listing.definedNames (items.map Item.line) ↔
          service.symbol ∈ program.names) ∧
      (Spellable program → read? text = some (items.map Item.bare)) ∧
      ∀ (runtime : Runtime) (service : Intrinsic),
        ServiceLinked program ⟨items.map Item.bare, platform, runtime⟩ service := by
  obtain ⟨items, hitems, rfl⟩ := code_of_compile h
  refine ⟨items, hitems, rfl, fun service => ?_, fun hspell => ?_, fun runtime service => ?_⟩
  · rw [definedNames_line, symbol_mem_labelNames_iff hitems]
  · exact read?_text (readable_compileProgram hspell hitems)
  · have hloads : Loads program ⟨items.map Item.bare, platform, runtime⟩ := ⟨items, hitems, rfl⟩
    exact hloads.serviceLinked service

/-- In a program without functions called `read` or `write` the first statement takes its value from
the runtime. -/
theorem square_reads_from_runtime :
    ∃ text items place, compile .win squareProgram = .ok text ∧ read? text = some items ∧
      ∀ (runtime : Runtime) (c : Cpu), c.pc = place →
        IntrinsicCall ⟨items, .win, runtime⟩ squareEntry 0 .read place ∧
        Executable.step? ⟨items, .win, runtime⟩ c =
          (c.goto (place + 1)).service? (runtime (c.goto (place + 1))) .read := by
  obtain ⟨text, htext⟩ := exists_ok_of_toBool
    (by decide +kernel : (compile .win squareProgram).toBool = true)
  obtain ⟨items, hitems, -, -, hread, hlinked⟩ := intrinsic_calls_linked htext
  have hplaced := (hlinked quietRuntime .read).placed squareEntry (by decide) 0 rfl
  obtain ⟨place, hplace⟩ := hplaced
  have hcall : ∀ runtime, IntrinsicCall ⟨items.map Item.bare, .win, runtime⟩ squareEntry 0 .read
      place := fun runtime => ⟨hplace.statement_eq, hplace.items_eq⟩
  refine ⟨text, _, place, htext, hread (by decide), fun runtime c hpc => ⟨hcall runtime, ?_⟩⟩
  exact (hlinked runtime .read).answered (by decide) squareEntry 0 place c (hcall runtime) hpc

/-- A function with the name of a service. -/
def readsSeven : Function := ⟨⟨"read", []⟩, #[.push 7, .returnTop]⟩

/-- A routine that writes what it reads. -/
def echoEntry : Function :=
  ⟨⟨"main", []⟩, #[.call (.intrinsic .read), .call (.intrinsic .write)]⟩

/-- The program of the two. -/
def takenProgram : Program := ⟨[echoEntry, readsSeven], by decide⟩

/-- A function called `read` takes the place of the runtime. The text defines the symbol that
the intrinsic call names; on the input 5 the reference machine writes 5, and the text writes 7 and
leaves the input unread. -/
theorem input_taken_from_function :
    ∃ text lines items position c,
      compile .unix takenProgram = .ok text ∧ compileListing .unix takenProgram = .ok lines ∧
        text = Listing.text lines ∧
        Platform.unix.symbol Intrinsic.read.symbol ∈ lines.definedNames ∧
        read? text = some items ∧ takenProgram.run [5] = .ok [5] ∧
        Calls ⟨items, .unix, quietRuntime⟩ echoEntry (zeroCaller position [5]) 0 1000 ∧
        Executable.Steps ⟨items, .unix, quietRuntime⟩ (zeroCaller position [5]) c ∧ c.pc = 1000 ∧
        c.input = [5] ∧ c.output = [7] := by
  obtain ⟨text, htext⟩ := exists_ok_of_toBool
    (by decide +kernel : (compile .unix takenProgram).toBool = true)
  have hspellable : Spellable takenProgram := by decide
  obtain ⟨items, hitems, hread⟩ := read?_compile hspellable htext
  obtain ⟨lines, hlines, hshown⟩ := map_eq_ok.1 htext
  have hdefined : (compileListing .unix takenProgram).toOption.any fun lines =>
      Platform.unix.symbol Intrinsic.read.symbol ∈ lines.definedNames := by
    decide +kernel
  have hrun : (compileProgram .unix takenProgram).toOption.any fun items =>
      let x : Executable := ⟨items.map Item.bare, .unix, quietRuntime⟩
      (x.position? "main").any fun position =>
        (x.after? 24 (zeroCaller position [5])).any fun c =>
          c.pc = 1000 ∧ c.input = [5] ∧ c.output = [7] := by
    decide +kernel
  rw [hlines] at hdefined
  rw [hitems] at hrun
  simp only [Except.toOption, Option.any_some, Option.any_eq_true, decide_eq_true_eq]
    at hdefined hrun
  obtain ⟨position, hposition, c, hc, hpc, hinput, houtput⟩ := hrun
  exact ⟨text, lines, _, position, c, htext, hlines, hshown.symm, hdefined, hread,
    by decide +kernel, calls_zeroCaller hposition [5], Executable.steps_of_after? hc, hpc, hinput,
    houtput⟩

end StackCodegen.Native
