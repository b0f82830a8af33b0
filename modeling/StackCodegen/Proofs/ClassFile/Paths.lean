import StackCodegen.Proofs.ClassFile.LabelHeights
import StackCodegen.Proofs.ClassFile.Refusals
import Mathlib.Order.Bounds.Basic

/-!
# Heights along control-flow paths

The analysis visits each position once and in one order. What it is about has no order: the paths
that control takes through a body, any number of times around its loops, and the height each of them
comes with (`Arrives`). A body is sound where no path lacks operands and no two paths disagree
(`Consistent`).

The heights that a flow knows are heights of paths, whichever positions it has visited so far
(`traced_of_goesThrough`); a settled flow knows the height of every path (`known_of_arrives`).

Main statement: the analysis accepts the consistent bodies and finds the largest height that a path
attains; what it reports of another body is so (`maxHeight_exact`).
-/

set_option autoImplicit false

namespace StackCodegen.ClassFile

/-! ## Paths -/

/-- The place that a label stands for: its last `bind`. -/
def BoundAt (code : Array Instruction) (label : Label) (position : Nat) : Prop :=
  code[position]? = some (.bind label) ∧
    ∀ later, position < later → code[later]? ≠ some (.bind label)

/-- A step of control: behind any instruction but a `return` or a `goto` to the next one, and by a
jump to the place of its label. -/
inductive Passes (code : Array Instruction) (position : Nat) : Nat → Prop where
  | through {insn : Instruction} (found : code[position]? = some insn)
      (falls : insn.fallsThrough = true) : Passes code position (position + 1)
  | jump {op : Opcode} {label : Label} {target : Nat}
      (found : code[position]? = some (.jump op label)) (bound : BoundAt code label target) :
      Passes code position target

/-- A path from the first instruction, on which every instruction finds its operands, comes to a
place with a height. The place may lie past the end. -/
inductive Arrives (code : Array Instruction) : Nat → Nat → Prop where
  | start : Arrives code 0 0
  | pass {position height next : Nat} {insn : Instruction} (before : Arrives code position height)
      (found : code[position]? = some insn) (pops : insn.stackEffect.1 ≤ height)
      (passes : Passes code position next) : Arrives code next (insn.heightAfter height)

/-- The heights before and behind the instructions of a path. -/
inductive Attains (code : Array Instruction) : Nat → Prop where
  | before {position height : Nat} (arrives : Arrives code position height) : Attains code height
  | behind {position height : Nat} {insn : Instruction} (arrives : Arrives code position height)
      (found : code[position]? = some insn) (pops : insn.stackEffect.1 ≤ height) :
      Attains code (insn.heightAfter height)

/-- On every path all operands are there, and all paths to an instruction come with one height. -/
structure Consistent (code : Array Instruction) : Prop where
  pops_le : ∀ position height insn, Arrives code position height →
    code[position]? = some insn → insn.stackEffect.1 ≤ height
  agree : ∀ position height height', position < code.size → Arrives code position height →
    Arrives code position height' → height = height'

/-- The errors that paths bear out: at the offset of an instruction, some path lacks operands, or
two paths come with the two heights that are named. -/
inductive BorneOut (code : Array Instruction) : CodegenError → Prop where
  | underflow {position height : Nat} {insn : Instruction} (arrives : Arrives code position height)
      (found : code[position]? = some insn) (short : height < insn.stackEffect.1) :
      BorneOut code (.stackUnderflow (codeSize (code.toList.take position)))
  | mismatch {position expected found : Nat} (place : position < code.size)
      (first : Arrives code position expected) (second : Arrives code position found)
      (apart : expected ≠ found) :
      BorneOut code (.stackMismatch (codeSize (code.toList.take position)) expected found)

/-- A consistent body bears no error out. -/
theorem not_consistent_of_borneOut {code : Array Instruction} {e : CodegenError}
    (h : BorneOut code e) : ¬ Consistent code := by
  intro hconsistent
  cases h with
  | underflow harrives hfound hshort =>
      exact absurd (hconsistent.pops_le _ _ _ harrives hfound) (Nat.not_le.2 hshort)
  | mismatch hplace hfirst hsecond hapart =>
      exact hapart (hconsistent.agree _ _ _ hplace hfirst hsecond)

theorem attains_max {code : Array Instruction} {height height' : Nat} (h : Attains code height)
    (h' : Attains code height') : Attains code (max height height') := by
  rcases max_choice height height' with hmax | hmax
  · rwa [hmax]
  · rwa [hmax]

/-- A label has one place. -/
theorem boundAt_unique {code : Array Instruction} {label : Label} {position position' : Nat}
    (h : BoundAt code label position) (h' : BoundAt code label position') :
    position = position' := by
  rcases Nat.lt_trichotomy position position' with hlt | heq | hlt
  · exact absurd h'.1 (h.2 _ hlt)
  · exact heq
  · exact absurd h.1 (h'.2 _ hlt)

section Bodies

variable {body : SymbolicCode} {layout : Layout}

/-! ## Paths and the layout -/

/-- The layout puts a label where it is bound last. -/
theorem boundAt_of_binding (hlayout : layout.Scanned body) {label : Label} {b : Binding}
    (hb : layout.bindings[label]? = some b) : BoundAt body.instructions label b.position := by
  obtain ⟨done, todo, hcode, hlast, rfl⟩ := hlayout.binding_spec hb
  refine ⟨by rw [← Array.getElem?_toList, hcode]; simp, fun later hlater hfound => hlast ?_⟩
  obtain ⟨k, rfl⟩ : ∃ k, later = done.length + (k + 1) := Nat.exists_eq_add_of_lt hlater
  rw [← Array.getElem?_toList, hcode, List.getElem?_append_right (Nat.le_add_right _ _),
    Nat.add_sub_cancel_left, List.getElem?_cons_succ] at hfound
  exact List.mem_filterMap.2 ⟨_, List.mem_of_getElem? hfound, rfl⟩

/-- The offset of an instruction is the size of those before it. -/
theorem offset_eq_codeSize_take (hlayout : layout.Scanned body) {position : Nat}
    (hlt : position < body.instructions.size) :
    layout.offset position = codeSize (body.instructions.toList.take position) := by
  have hlength : (body.instructions.toList.take position).length = position := by
    rw [List.length_take, Array.length_toList]
    omega
  have hsplit : body.instructions.toList = body.instructions.toList.take position ++
      body.instructions[position] :: body.instructions.toList.drop (position + 1) := by
    rw [← Array.getElem_toList, List.getElem_cons_drop, List.take_append_drop]
  rw [← hlayout.offset_eq hsplit, hlength]

/-- A flow whose heights are heights of paths. -/
structure Flow.Traced (code : Array Instruction) (flow : Flow) : Prop where
  arrives : ∀ position height, flow.Known position height → Arrives code position height
  attains : Attains code flow.highest

theorem traced_start (code : Array Instruction) : (Flow.start code.size).Traced code := by
  refine ⟨fun position height hp => ?_, ?_⟩
  · obtain ⟨-, rfl, rfl⟩ := Flow.known_start.1 hp
    exact .start
  · rw [Flow.highest_start]
    exact .before .start

/-! ## Flows and paths

Of a body whose labels are bound, and whose jumps lead to labels of its own. -/

section Bound

variable (hlayout : layout.Scanned body)
  (htargets : ∀ op label, .jump op label ∈ body.instructions → label < body.labelCount)
  {flow flow' : Flow}

include hlayout htargets

/-- The successors that the analysis tries are the places to which control passes. -/
theorem mem_successors_iff_passes {position next : Nat} {insn : Instruction}
    (hinsn : body.instructions[position]? = some insn) :
    next ∈ Flow.successors layout position insn ↔ Passes body.instructions position next := by
  rw [Flow.mem_successors]
  constructor
  · rintro (⟨hfalls, rfl⟩ | ⟨op, label, b, rfl, hb, rfl⟩)
    · exact .through hinsn hfalls
    · exact .jump hinsn (boundAt_of_binding hlayout hb)
  · intro hpasses
    cases hpasses with
    | through hfound hfalls =>
        rw [hinsn, Option.some.injEq] at hfound
        exact .inl ⟨hfound ▸ hfalls, rfl⟩
    | @jump op label _ hfound hbound =>
        rw [hinsn, Option.some.injEq] at hfound
        have hlt : label < layout.bindings.size := by
          rw [hlayout.size_bindings]
          exact htargets op label (hfound ▸ Array.mem_of_getElem? hinsn)
        have hget := Array.getElem?_eq_getElem hlt
        exact .inr ⟨op, label, _, hfound, hget,
          boundAt_unique hbound (boundAt_of_binding hlayout hget)⟩

/-- A visit extends paths by one step. -/
theorem traced_of_visit {position : Nat} {rest : List Nat} {visited : Finset Nat}
    (hflow : flow.Visited body.instructions layout visited)
    (htraced : flow.Traced body.instructions) (hpending : flow.pending = position :: rest)
    (h : flow.visit body.instructions layout position rest = .ok flow') :
    flow'.Traced body.instructions := by
  obtain ⟨height, insn, hheight, hinsn⟩ := Flow.exists_pending hflow hpending
  obtain ⟨hpops, hreach⟩ := Flow.reached_of_visit hheight hinsn h
  have harrives := htraced.arrives position height hheight
  refine ⟨fun p known hp => ?_, ?_⟩
  · -- a height is known from before, or it is new at a successor
    obtain ⟨new, -, -, hnew, hold⟩ := hreach.fresh
    rcases hold p known hp with hkept | ⟨rfl, hmem⟩
    · exact htraced.arrives p known hkept
    · have hnext := (hnew p hmem).2.2
      exact .pass harrives hinsn hpops ((mem_successors_iff_passes hlayout htargets hinsn).1 hnext)
  · rw [hreach.highest_eq]
    exact attains_max htraced.attains
      (attains_max (.before harrives) (.behind harrives hinsn hpops))

/-- All the way of an analysis the known heights are heights of paths. -/
theorem traced_of_goesThrough (h : Flow.GoesThrough body.instructions layout flow) :
    flow.Traced body.instructions := by
  induction h with
  | start => exact traced_start _
  | visit hbefore hpending hvisit ih =>
      obtain ⟨visited, hvisited⟩ := hbefore.exists_visited
      exact traced_of_visit hlayout htargets hvisited ih hpending hvisit

/-! ## Settled flows know every path -/

/-- A settled flow knows the height of every path, however often the path goes around. -/
theorem known_of_arrives (hsettled : flow.Settled body.instructions layout)
    {position height : Nat} (h : Arrives body.instructions position height)
    (hlt : position < body.instructions.size) : flow.Known position height := by
  induction h with
  | start => exact hsettled.start hlt
  | @pass position height next insn _ hfound hpops hpasses ih =>
      have hknown := ih (Array.getElem?_eq_some_iff.1 hfound).1
      obtain ⟨-, -, -, hcarried⟩ := hsettled.carries position height insn hknown hfound
      exact hcarried next ((mem_successors_iff_passes hlayout htargets hfound).2 hpasses)
        (hsettled.size_eq ▸ hlt)

/-- A body whose flow settles is consistent. -/
theorem consistent_of_settled (hsettled : flow.Settled body.instructions layout) :
    Consistent body.instructions := by
  constructor
  · intro position height insn harrives hfound
    have hknown := known_of_arrives hlayout htargets hsettled harrives
      (Array.getElem?_eq_some_iff.1 hfound).1
    exact (hsettled.carries position height insn hknown hfound).1
  · intro position height height' hlt harrives harrives'
    have hknown := known_of_arrives hlayout htargets hsettled harrives hlt
    have hknown' := known_of_arrives hlayout htargets hsettled harrives' hlt
    rw [Flow.Known] at hknown hknown'
    rw [hknown] at hknown'
    cases hknown'
    rfl

/-- No path attains a height above that of a settled flow. -/
theorem attains_le_highest (hsettled : flow.Settled body.instructions layout) {height : Nat}
    (h : Attains body.instructions height) : height ≤ flow.highest := by
  have hcarries : ∀ {position height insn}, Arrives body.instructions position height →
      body.instructions[position]? = some insn →
      height ≤ flow.highest ∧ insn.heightAfter height ≤ flow.highest := by
    intro position height insn harrives hfound
    have hknown := known_of_arrives hlayout htargets hsettled harrives
      (Array.getElem?_eq_some_iff.1 hfound).1
    obtain ⟨-, hle, hafter, -⟩ := hsettled.carries position height insn hknown hfound
    exact ⟨hle, hafter⟩
  cases h with
  | before harrives =>
      -- the place may lie past the end: the height is that behind the instruction passed last
      cases harrives with
      | start => exact Nat.zero_le _
      | pass hbefore hfound _ _ => exact (hcarries hbefore hfound).2
  | behind harrives hfound _ => exact (hcarries harrives hfound).2

/-- The largest height of a settled flow is the largest that a path attains. -/
theorem isGreatest_highest (h : Flow.GoesThrough body.instructions layout flow)
    (hpending : flow.pending = []) :
    IsGreatest {h | Attains body.instructions h} flow.highest :=
  ⟨(traced_of_goesThrough hlayout htargets h).attains, fun _ hattains =>
    attains_le_highest hlayout htargets (settled_of_goesThrough h hpending) hattains⟩

/-! ## The analysis -/

/-- An error of the analysis is borne out by paths. -/
theorem borneOut_of_analyse_error {e : CodegenError}
    (h : analyse body.instructions layout = .error e) :
    BorneOut body.instructions e := by
  -- the flow it stopped at is one that an analysis goes through, so its heights are those of paths
  obtain ⟨last, position, rest, hthrough, -, hvisit⟩ := Flow.exists_visit_of_settle_error .start h
  obtain ⟨visited, hvisited⟩ := hthrough.exists_visited
  have htraced := traced_of_goesThrough hlayout htargets hthrough
  obtain ⟨height, insn, hheight, hinsn, hcause⟩ := Flow.visit_eq_error hvisit
  have harrives := htraced.arrives position height hheight
  rcases hcause with ⟨hshort, rfl⟩ | ⟨hpops, next, hnext, existing, hexisting, hne, rfl⟩
  · rw [offset_eq_codeSize_take hlayout (Array.getElem?_eq_some_iff.1 hinsn).1]
    exact .underflow harrives hinsn hshort
  · have hlt : next < body.instructions.size := by
      rw [← hvisited.size_eq]
      exact (Array.getElem?_eq_some_iff.1 hexisting).1
    rw [offset_eq_codeSize_take hlayout hlt]
    refine .mismatch hlt (htraced.arrives next existing hexisting) ?_ hne
    exact .pass harrives hinsn hpops ((mem_successors_iff_passes hlayout htargets hinsn).1 hnext)

end Bound

/-- The analysis is exact. It accepts a body if and only if no path lacks operands and no two
paths disagree; the height it finds is the largest that a path attains, and the error it reports of
another body is borne out by paths to the named instruction. The body has a layout if all its labels
are bound (`Layout.exists_scanned_iff`). -/
theorem maxHeight_exact (hlayout : layout.Scanned body)
    (htargets : ∀ op label, .jump op label ∈ body.instructions → label < body.labelCount) :
    ((∃ height, maxHeight body.instructions layout = .ok height) ↔
        Consistent body.instructions) ∧
      (∀ height, maxHeight body.instructions layout = .ok height →
        IsGreatest {h | Attains body.instructions h} height) ∧
      ∀ e, maxHeight body.instructions layout = .error e → BorneOut body.instructions e := by
  have haccepted : ∀ height, maxHeight body.instructions layout = .ok height →
      ∃ flow : Flow, Flow.GoesThrough body.instructions layout flow ∧ flow.pending = [] ∧
        flow.highest = height := by
    intro height h
    obtain ⟨flow, hflow, hheight⟩ := map_eq_ok.1 h
    obtain ⟨hthrough, hpending⟩ := Flow.goesThrough_of_settle .start hflow
    exact ⟨flow, hthrough, hpending, hheight⟩
  have hrefused : ∀ e, maxHeight body.instructions layout = .error e →
      BorneOut body.instructions e := fun e h =>
    borneOut_of_analyse_error hlayout htargets (map_eq_error.1 h)
  refine ⟨⟨?_, fun hconsistent => ?_⟩, fun height h => ?_, hrefused⟩
  · rintro ⟨height, h⟩
    obtain ⟨flow, hthrough, hpending, -⟩ := haccepted height h
    exact consistent_of_settled hlayout htargets (settled_of_goesThrough hthrough hpending)
  · cases h : maxHeight body.instructions layout with
    | ok height => exact ⟨height, rfl⟩
    | error e => exact absurd hconsistent (not_consistent_of_borneOut (hrefused e h))
  · obtain ⟨flow, hthrough, hpending, rfl⟩ := haccepted height h
    exact isGreatest_highest hlayout htargets hthrough hpending

end Bodies

/-- A loop with words below its own, and unreachable code behind it that lacks operands. -/
def counting : SymbolicCode :=
  ⟨#[.plain .iconst5, .bind 0, .plain .iconstM1, .plain .iadd, .plain .dup, .plain .iconst0,
    .jump .ifIcmpne 0, .plain .pop, .plain .returnVoid, .plain .iadd], 1⟩

/-- A loop that leaves a word behind each time. -/
def growing : SymbolicCode := ⟨#[.plain .iconst5, .bind 0, .plain .dup, .jump .goto 0], 1⟩

/-- The first loop never attains more than three words; the second comes back to its label, at
offset 1, with two words instead of one. -/
theorem counting_growing_exact :
    (∀ op label, .jump op label ∈ counting.instructions → label < counting.labelCount) ∧
      (∀ op label, .jump op label ∈ growing.instructions → label < growing.labelCount) ∧
      ∃ layout layout' : Layout, layout.Scanned counting ∧ layout'.Scanned growing ∧
        Consistent counting.instructions ∧ IsGreatest {h | Attains counting.instructions h} 3 ∧
        maxHeight growing.instructions layout' = .error (.stackMismatch 1 1 2) ∧
        BorneOut growing.instructions (.stackMismatch 1 1 2) := by
  have htargets : ∀ op label, .jump op label ∈ counting.instructions →
      label < counting.labelCount := by
    intro op label hmem
    obtain ⟨-, rfl⟩ : op = .ifIcmpne ∧ label = 0 := by simpa [counting] using hmem
    exact Nat.one_pos
  have htargets' : ∀ op label, .jump op label ∈ growing.instructions →
      label < growing.labelCount := by
    intro op label hmem
    obtain ⟨-, rfl⟩ : op = .goto ∧ label = 0 := by simpa [growing] using hmem
    exact Nat.one_pos
  have hlayout := Layout.scanned_of_isSome (by decide +kernel :
    ∀ b ∈ (Layout.scan counting).bindings, b.isSome = true)
  have hlayout' := Layout.scanned_of_isSome (by decide +kernel :
    ∀ b ∈ (Layout.scan growing).bindings, b.isSome = true)
  obtain ⟨haccepted, hgreatest, -⟩ := maxHeight_exact hlayout htargets
  obtain ⟨-, -, hreported⟩ := maxHeight_exact hlayout' htargets'
  have hheight : maxHeight counting.instructions ⟨(Layout.scan counting).offsets,
      (Layout.scan counting).bindings.filterMap id⟩ = .ok 3 := by decide +kernel
  have herror : maxHeight growing.instructions ⟨(Layout.scan growing).offsets,
      (Layout.scan growing).bindings.filterMap id⟩ = .error (.stackMismatch 1 1 2) := by
    decide +kernel
  exact ⟨htargets, htargets', _, _, hlayout, hlayout', haccepted.1 ⟨3, hheight⟩,
    hgreatest 3 hheight, herror, hreported _ herror⟩

end StackCodegen.ClassFile
