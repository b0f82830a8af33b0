import StackCodegen.Proofs.Native.Preservation

/-!
# Locals that were never stored

The prologue makes room for the locals and leaves in their words what earlier calls, or the caller
of the entry, left there. A load of a local that was not stored in its call pushes the word that
stood in the local's place when the call was entered (`Meets.load_unset`), while the reference
machine pushes 0.

Main statement: up to the first such load that finds another word than 0, the processor meets the
run of the reference machine (`unset_local_reads_entry_word`). A program whose calls reuse the words
of one another has such a load even on memory that holds nothing but 0 (`stale_local_written`).
-/

set_option autoImplicit false

namespace StackCodegen.Native

/-- Recogniser for states of a run whose next statement computes no quotient without 32 bits. -/
def FitsQuotient (program : Program) (r : Machine.Run) : Prop :=
  ∀ f op right left rest, program.function? r.active.function = some f →
    f.body[r.active.next]? = some (.binary op) → op = .div ∨ op = .rem →
      r.active.stack = right :: left :: rest → ¬ Overflows left right

/-- A load of a local that was not stored in its call, as the processor does it: from where it meets
the run it comes to the next statement, and the word it has put on top of the operands is the one
that stood in the local's place when the call was entered. -/
structure LoadsUnset (x : Executable) (program : Program) (start : Cpu) (r : Machine.Run)
    (name : String) (word : Word) (f : Function) (base : Int) (entered c d : Cpu) : Prop where
  meets : Meets x program start r c f base entered
  statement : f.body[r.active.next]? = some (.load name)
  unset : name ∉ r.active.values
  entry_word : ∃ offset, f.frame.offset? name = some offset ∧
    entered.memory (base + offset) = word
  steps : x.Steps c d
  at_next : x.position? (statementLabel f.name (r.active.next + 1)) = some d.pc
  esp_eq : d.registers .esp = .address (operandTop f base (r.active.stack.length + 1))
  pushed : d.memory (operandTop f base (r.active.stack.length + 1)) = word

section Runs

variable {x : Executable} {program : Program} {start c entered : Cpu} {r r' : Machine.Run}
  {f : Function} {base top : Int} {place : Nat} {limits : Limits}

/-- A load of a local that was not stored pushes what stood there on entry. -/
theorem Meets.load_unset (h : Linked program x)
    (hmeets : Meets x program start r c f base entered) {name : String}
    (hk : f.body[r.active.next]? = some (.load name)) (hunset : name ∉ r.active.values) :
    ∃ word d, LoadsUnset x program start r name word f base entered c d := by
  obtain ⟨code, front, back, hcode, hfront, hstep, hitems, hnext⟩ := hmeets.statement h hk
  obtain ⟨operand, hword, hcode⟩ := bind_eq_ok.1 hcode
  cases hcode
  obtain ⟨offset, hoffset, rfl⟩ := wordOf_eq_ok hword
  have hnone : r.active.values[name]? = none := Std.TreeMap.getElem?_eq_none hunset
  have hesp : (c.goto (c.pc + 1)).registers .esp =
      .address (operandTop f base r.active.stack.length) := hmeets.esp_eq
  have hfound : (c.goto (c.pc + 1)).value? (.memory offset .ebp) =
      some (entered.memory (base + offset)) := by
    rw [Cpu.value?, Cpu.address?_eq (c := c.goto (c.pc + 1)) hmeets.ebp_eq, Option.map_some,
      Cpu.memory_goto, hmeets.holds.unset name offset hnone hoffset]
  obtain ⟨d, hrun, hd⟩ := Executable.runLine_push (x := x) _ hesp hfound
  obtain ⟨hsteps, hpc⟩ := Executable.steps_of_runLine (c := c.goto (c.pc + 1)) hitems hfront.symm
    (by simp [Instruction.straight]) hrun
  rw [← operandTop_succ] at hd
  refine ⟨_, d, hmeets, hk, hunset, ⟨offset, hoffset, rfl⟩, .head hstep hsteps, ?_, hd.esp_eq, ?_⟩
  · rw [hnext, hpc, hfront]
  · rw [hd.memory_eq, Memory.store_self]

/-- Where quotients fit, a state asks of memory only that a load of an unset local finds 0. -/
theorem Meets.regular_of_zero (hmeets : Meets x program start r c f base entered)
    (hfits : FitsQuotient program r)
    (hzero : ∀ name offset, f.body[r.active.next]? = some (.load name) → name ∉ r.active.values →
      f.frame.offset? name = some offset → entered.memory (base + offset) = .data 0) :
    Regular c.memory f base r.active := by
  have hfunction := hmeets.running.function_eq
  refine ⟨?_, fun op right left rest hk => hfits f op right left rest hfunction hk⟩
  intro name offset hk hnone hoffset
  rw [hmeets.holds.unset name offset hnone hoffset]
  refine hzero name offset hk ?_ hoffset
  rw [Std.TreeMap.mem_iff_isSome_getElem?, hnone]
  exact Bool.false_ne_true

/-- A load of an unset local, somewhere before a state of a run, that found another word than 0. -/
def FoundStale (x : Executable) (program : Program) (start : Cpu) (limits : Limits)
    (first r : Machine.Run) : Prop :=
  ∃ s s', Machine.Goes limits program first s ∧ Machine.step limits program s = .running s' ∧
    Machine.Goes limits program s' r ∧ ∃ name word f base entered c d, x.Steps start c ∧
      word ≠ .data 0 ∧ LoadsUnset x program start s name word f base entered c d

/-- A run is met up to the first load that finds another word than 0. -/
theorem meets_or_foundStale (h : Linked program x)
    (hmeets : Meets x program start r c f base entered) (hsteps : x.Steps start c)
    (hcalled : CalledFrom start top place) (hgoes : Machine.Goes limits program r r')
    (hfits : ∀ s, Machine.Goes limits program r s → FitsQuotient program s) :
    (∃ d f base entered, x.Steps start d ∧ Meets x program start r' d f base entered) ∨
      FoundStale x program start limits r r' := by
  induction hgoes with
  | refl => exact .inl ⟨c, f, base, entered, hsteps, hmeets⟩
  | @tail s s' hgoes hstep ih =>
      rcases ih with ⟨d, f', base', entered', hsteps', hmeets'⟩ | hstale
      · by_cases hzero : ∀ name offset, f'.body[s.active.next]? = some (.load name) →
            name ∉ s.active.values → f'.frame.offset? name = some offset →
              entered'.memory (base' + offset) = .data 0
        · have hfollowed := follows limits h hmeets' (hmeets'.regular_of_zero (hfits s hgoes) hzero)
            hcalled
          rw [hstep] at hfollowed
          obtain ⟨e, f'', base'', entered'', hsteps'', hmeets''⟩ := hfollowed
          exact .inl ⟨e, f'', base'', entered'', hsteps'.trans hsteps'', hmeets''⟩
        · push Not at hzero
          obtain ⟨name, offset, hk, hunset, hoffset, hne⟩ := hzero
          obtain ⟨word, e, hloads⟩ := hmeets'.load_unset h hk hunset
          obtain ⟨offset', hoffset', hword⟩ := hloads.entry_word
          cases hoffset.symm.trans hoffset'
          exact .inr ⟨s, s', hgoes, hstep, .refl, name, word, f', base', entered', d, e, hsteps',
            fun heq => hne (hword.trans heq), hloads⟩
      · obtain ⟨t, t', hgoes', hstep', hgoes'', hfound⟩ := hstale
        exact .inr ⟨t, t', hgoes', hstep', hgoes''.tail hstep, hfound⟩

/-- Nothing comes before the first state of a run. -/
theorem not_foundStale_self (x : Executable) (program : Program) (start : Cpu) (limits : Limits)
    (r : Machine.Run) : ¬ FoundStale x program start limits r r := by
  rintro ⟨s, s', hgoes, hstep, hgoes', -⟩
  have hlt := Machine.measure_lt_of_step hstep
  have hle := Machine.measure_le_of_goes hgoes
  have hle' := Machine.measure_le_of_goes hgoes'
  omega

end Runs

/-! ## Programs -/

/-- A load of a local that was not stored in its call pushes the word that stood in the local's
place when the call was entered. For every state of a run either an earlier such load found
another word than 0, or the processor meets the state, and if a local is loaded there that was not
stored, it comes to the next statement with that word. -/
theorem unset_local_reads_entry_word {platform : Platform} {program : Program} {text : String}
    {entry : Function} (h : compile platform program = .ok text)
    (hconforming : Conforming program entry) :
    ∃ items, read? text = some items ∧ ∀ (runtime : Runtime) (start : Cpu) (top : Int)
      (place : Nat) (first r : Machine.Run),
      Calls ⟨items, platform, runtime⟩ entry start top place → start.output = [] →
      Machine.enter .standard (.ofInput start.input) entry [] 0 [] = .running first →
      Machine.Goes .standard program first r →
      (∀ s, Machine.Goes .standard program first s → FitsQuotient program s) →
      FoundStale ⟨items, platform, runtime⟩ program start .standard first r ∨
        ∃ c f base entered, Executable.Steps ⟨items, platform, runtime⟩ start c ∧
          Meets ⟨items, platform, runtime⟩ program start r c f base entered ∧
          ∀ name, f.body[r.active.next]? = some (.load name) → name ∉ r.active.values →
            ∃ word d, LoadsUnset ⟨items, platform, runtime⟩ program start r name word f base entered
              c d := by
  obtain ⟨items, hitems, hread⟩ := read?_compile hconforming.spellable h
  refine ⟨_, hread, ?_⟩
  intro runtime start top place first r hcalls houtput hfirst hgoes hfits
  have hlinked : Linked program ⟨items.map Item.bare, platform, runtime⟩ :=
    ⟨⟨items, hitems, rfl⟩, hconforming.nodup, hconforming.name_ne⟩
  obtain ⟨c, base, hsteps, hmeets⟩ := meets_of_calls (m := .ofInput start.input) hlinked hconforming
    hcalls rfl houtput hfirst
  rcases meets_or_foundStale hlinked hmeets hsteps hcalls.called hgoes hfits with
    ⟨d, f, base', entered, hsteps', hmeets'⟩ | hstale
  · exact .inr ⟨d, f, base', entered, hsteps', hmeets', fun name hk hunset =>
      hmeets'.load_unset hlinked hk hunset⟩
  · exact .inl hstale

/-- A routine that writes a variable it never stored. -/
def unsetEntry : Function := ⟨⟨"main", []⟩, #[.load "x", .call (.intrinsic .write)]⟩

/-- The program of that routine. -/
def unsetProgram : Program := ⟨[unsetEntry], by decide⟩

/-- The first statement of the routine pushes the word that its caller left in the place of `x`. -/
theorem unset_read_by_first_load :
    ∃ text items position first word f base entered c d,
      compile .unix unsetProgram = .ok text ∧ read? text = some items ∧
        Calls ⟨items, .unix, quietRuntime⟩ unsetEntry (zeroCaller position []) 0 1000 ∧
        Machine.enter .standard (.ofInput []) unsetEntry [] 0 [] = .running first ∧
        Executable.Steps ⟨items, .unix, quietRuntime⟩ (zeroCaller position []) c ∧
        LoadsUnset ⟨items, .unix, quietRuntime⟩ unsetProgram (zeroCaller position []) first "x"
          word f
          base entered c d := by
  obtain ⟨text, htext⟩ := exists_ok_of_toBool
    (by decide +kernel : (compile .unix unsetProgram).toBool = true)
  have hmem : ∀ f ∈ unsetProgram.functions, f = unsetEntry := by simp [unsetProgram]
  have hconforming : Conforming unsetProgram unsetEntry := by decide
  have hfits : ∀ r, FitsQuotient unsetProgram r := by
    intro r f op right left rest hf hk
    have hstatement := Array.mem_of_getElem? hk
    rw [hmem f (List.mem_of_find?_eq_some hf)] at hstatement
    simp [unsetEntry] at hstatement
  obtain ⟨items, hread, hall⟩ := unset_local_reads_entry_word htext hconforming
  obtain ⟨items', hitems, hread'⟩ := read?_compile hconforming.spellable htext
  cases hread.symm.trans hread'
  have hentry : unsetEntry ∈ unsetProgram.functions := by decide
  have hloads : Loads unsetProgram ⟨items'.map Item.bare, .unix, quietRuntime⟩ :=
    ⟨items', hitems, rfl⟩
  obtain ⟨position, hposition⟩ := hloads.symbol hentry
  have hcalls := calls_zeroCaller hposition []
  rcases hall quietRuntime (zeroCaller position []) 0 1000 _ _ hcalls rfl rfl .refl
    (fun r _ => hfits r) with hstale | ⟨c, f, base, entered, hsteps, hmeets, hload⟩
  · exact absurd hstale (not_foundStale_self _ _ _ _ _)
  · have hf : f = unsetEntry := hmem f hmeets.running.mem
    obtain ⟨word, d, hloads⟩ := hload "x" (by rw [hf]; rfl) (by simp)
    exact ⟨text, _, position, _, word, f, base, entered, c, d, htext, hread, hcalls, rfl, hsteps,
      hloads⟩

/-- A function that stores 7. -/
def storesSeven : Function := ⟨⟨"f", []⟩, #[.push 7, .store "x", .returnZero]⟩

/-- A function that returns a variable it never stored. -/
def returnsUnset : Function := ⟨⟨"g", []⟩, #[.load "y", .returnTop]⟩

/-- A routine that calls the one after the other and writes what the second one returns. -/
def staleEntry : Function :=
  ⟨⟨"main", []⟩, #[.call (.function storesSeven.declaration), .pop,
    .call (.function returnsUnset.declaration), .call (.intrinsic .write)]⟩

/-- The program of the three. -/
def staleProgram : Program := ⟨[staleEntry, storesSeven, returnsUnset], by decide⟩

/-- The word of one call is read by the next one. From a caller whose memory holds nothing but 0
the load of `y` pushes 7, and 7 is written where the reference machine writes 0. -/
theorem stale_local_written :
    ∃ text items position c d e,
      compile .unix staleProgram = .ok text ∧ read? text = some items ∧
        staleProgram.run [] = .ok [0] ∧
        Calls ⟨items, .unix, quietRuntime⟩ staleEntry (zeroCaller position []) 0 1000 ∧
        Executable.Steps ⟨items, .unix, quietRuntime⟩ (zeroCaller position []) c ∧
        Executable.position? ⟨items, .unix, quietRuntime⟩ (statementLabel "g" 0) = some c.pc ∧
        Executable.Steps ⟨items, .unix, quietRuntime⟩ c d ∧
        Executable.position? ⟨items, .unix, quietRuntime⟩ (statementLabel "g" 1) = some d.pc ∧
        (d.address? .esp).map d.memory = some (.data 7) ∧
        Executable.Steps ⟨items, .unix, quietRuntime⟩ d e ∧ e.pc = 1000 ∧ e.output = [7] := by
  obtain ⟨text, htext⟩ := exists_ok_of_toBool
    (by decide +kernel : (compile .unix staleProgram).toBool = true)
  have hspellable : Spellable staleProgram := by decide
  obtain ⟨items, hitems, hread⟩ := read?_compile hspellable htext
  have hrun : (compileProgram .unix staleProgram).toOption.any fun items =>
      let x : Executable := ⟨items.map Item.bare, .unix, quietRuntime⟩
      (x.position? "main").any fun position =>
        (x.after? 26 (zeroCaller position [])).any fun c =>
          (x.after? 2 c).any fun d =>
            (x.after? 14 d).any fun e =>
              x.position? (statementLabel "g" 0) = some c.pc ∧
                x.position? (statementLabel "g" 1) = some d.pc ∧
                (d.address? .esp).map d.memory = some (.data 7) ∧ e.pc = 1000 ∧ e.output = [7] := by
    decide +kernel
  rw [hitems] at hrun
  simp only [Except.toOption, Option.any_some, Option.any_eq_true, decide_eq_true_eq] at hrun
  obtain ⟨position, hposition, c, hc, d, hd, e, he, hcpc, hdpc, htop, hepc, houtput⟩ := hrun
  exact ⟨text, _, position, c, d, e, htext, hread, by decide +kernel, calls_zeroCaller hposition [],
    Executable.steps_of_after? hc, hcpc, Executable.steps_of_after? hd, hdpc, htop,
    Executable.steps_of_after? he, hepc, houtput⟩

end StackCodegen.Native
