import StackCodegen.Proofs.Except
import StackCodegen.Proofs.ClassFile.StraightLine

/-!
# Heights of labels

The flow analysis finds a height for every position that it reaches. A body can also be checked
from heights of its labels alone: they are carried from one instruction to the next, an instruction
behind a `goto` or a `return` is reached through a label or not at all, and every jump and every
fall-through has to agree with the height of the label that it comes to (`Admits`). Such a check
needs no positions, so it is put together from checks of parts (`admits_append`).

Main statement: the analysis accepts the bodies whose labels can be given heights, and no others
(`exists_analyse_iff`).
-/

set_option autoImplicit false

namespace StackCodegen.ClassFile

/-- A height for each label that is reached. -/
abbrev LabelHeights := Label → Option Nat

namespace Instruction

/-- Recogniser for the instructions behind which the next one may be reached. -/
def fallsThrough : Instruction → Bool
  | jump op _ => op != .goto
  | plain op => op != .returnVoid
  | _ => true

/-- The height an instruction is reached with, where `carried` is carried to it from the instruction
above. -/
def heightAt (heights : LabelHeights) (carried : Option Nat) : Instruction → Option Nat
  | bind label => heights label
  | _ => carried

/-- The height that is carried on to the next instruction. -/
def carry (heights : LabelHeights) (carried : Option Nat) (insn : Instruction) : Option Nat :=
  if insn.fallsThrough then (insn.heightAt heights carried).map insn.heightAfter else none

/-- What heights of labels have to be for an instruction: the height carried to a label is that of
the label, an instruction finds its operands, and the target of a jump has the height behind it. -/
structure Accepts (heights : LabelHeights) (carried : Option Nat) (insn : Instruction) : Prop where
  merges : ∀ height, carried = some height → insn.heightAt heights carried = some height
  pops_le : ∀ height, insn.heightAt heights carried = some height → insn.stackEffect.1 ≤ height
  jumps : ∀ height op target, insn.heightAt heights carried = some height →
    insn = .jump op target → heights target = some (insn.heightAfter height)

end Instruction

/-- The height that is carried through a row of instructions. -/
def carriedBehind (heights : LabelHeights) (carried : Option Nat) (code : List Instruction) :
    Option Nat :=
  code.foldl (Instruction.carry heights) carried

/-- A row of instructions that accepts heights of labels, each one with the height carried to it. -/
def Admits (heights : LabelHeights) : Option Nat → List Instruction → Prop
  | _, [] => True
  | carried, insn :: code =>
    insn.Accepts heights carried ∧ Admits heights (insn.carry heights carried) code

section Rows

variable {heights : LabelHeights} {carried : Option Nat}

@[simp] theorem carriedBehind_nil : carriedBehind heights carried [] = carried := rfl

@[simp] theorem carriedBehind_cons (insn : Instruction) (code : List Instruction) :
    carriedBehind heights carried (insn :: code) =
      carriedBehind heights (insn.carry heights carried) code := rfl

@[simp] theorem carriedBehind_append (front back : List Instruction) :
    carriedBehind heights carried (front ++ back) =
      carriedBehind heights (carriedBehind heights carried front) back :=
  List.foldl_append

@[simp] theorem admits_nil : Admits heights carried [] := trivial

@[simp] theorem admits_cons (insn : Instruction) (code : List Instruction) :
    Admits heights carried (insn :: code) ↔
      insn.Accepts heights carried ∧ Admits heights (insn.carry heights carried) code := Iff.rfl

/-- A row is checked part by part. -/
theorem admits_append (front back : List Instruction) :
    Admits heights carried (front ++ back) ↔
      Admits heights carried front ∧ Admits heights (carriedBehind heights carried front) back := by
  induction front generalizing carried with
  | nil => simp
  | cons insn front ih => rw [List.cons_append, admits_cons, admits_cons, ih, and_assoc]; rfl

end Rows

section Single

variable {heights : LabelHeights} {carried : Option Nat} {label : Label} {op : Opcode}
  {height : Nat}

/-- A label is reached from above with its own height, or not at all. -/
@[simp] theorem accepts_bind :
    (Instruction.bind label).Accepts heights carried ↔
      ∀ height, carried = some height → heights label = some height := by
  constructor
  · exact fun h => h.merges
  · refine fun h => ⟨h, fun _ _ => Nat.zero_le _, fun _ _ _ _ hjump => ?_⟩
    cases hjump

@[simp] theorem carry_bind :
    (Instruction.bind label).carry heights carried = heights label := by
  change (heights label).map (fun height => height - 0 + 0) = heights label
  simp

/-- A jump that is reached finds its operands, and its label has the height behind it. -/
@[simp] theorem accepts_jump :
    (Instruction.jump op label).Accepts heights (some height) ↔
      op.stackEffect.1 ≤ height ∧
        heights label = some ((Instruction.jump op label).heightAfter height) := by
  constructor
  · exact fun h => ⟨h.pops_le height rfl, h.jumps height op label rfl rfl⟩
  · rintro ⟨hpops, hlabel⟩
    refine ⟨fun _ h => h, fun _ h => ?_, fun _ _ _ h hjump => ?_⟩
    · cases h
      exact hpops
    · cases h
      cases hjump
      exact hlabel

/-- The end of a method accepts any height. -/
theorem accepts_return : (Instruction.plain .returnVoid).Accepts heights carried :=
  ⟨fun _ h => h, fun _ _ => Nat.zero_le _, fun _ _ _ _ hjump => by cases hjump⟩

/-- What is not reached accepts any heights. -/
theorem accepts_none {insn : Instruction} (hbind : insn.isBind = false) :
    insn.Accepts heights none := by
  have hat : insn.heightAt heights none = none := by
    cases insn with
    | bind label => cases hbind
    | _ => rfl
  refine ⟨fun _ h => ?_, fun _ h => ?_, fun _ _ _ h _ => ?_⟩
  · cases h
  · rw [hat] at h
    cases h
  · rw [hat] at h
    cases h

@[simp] theorem carry_none {insn : Instruction} (hbind : insn.isBind = false) :
    insn.carry heights none = none := by
  cases insn with
  | bind label => cases hbind
  | _ => simp [Instruction.carry, Instruction.heightAt]

@[simp] theorem carry_goto : (Instruction.jump .goto label).carry heights carried = none := rfl

theorem carry_branch (hop : op ≠ .goto) :
    (Instruction.jump op label).carry heights carried =
      carried.map (Instruction.jump op label).heightAfter :=
  if_pos (by simpa [Instruction.fallsThrough] using hop)

end Single

/-! ## Rows without labels and jumps -/

/-- Recogniser for the instructions that are no labels and go on to the next one. -/
def Instruction.isInner (insn : Instruction) : Bool := insn.straight && !insn.isBind

/-- Operands that a row of instructions takes off, and words that it leaves in their place. -/
def netEffect : List Instruction → Nat × Nat
  | [] => (0, 0)
  | insn :: code =>
    (insn.stackEffect.1 + ((netEffect code).1 - insn.stackEffect.2),
      insn.stackEffect.2 - (netEffect code).1 + (netEffect code).2)

section Inner

variable {heights : LabelHeights} {insn : Instruction} {code : List Instruction} {height : Nat}

theorem isBind_of_isInner (h : insn.isInner = true) : insn.isBind = false := by
  rw [Instruction.isInner, Bool.and_eq_true, Bool.not_eq_true'] at h
  exact h.2

theorem accepts_inner (h : insn.isInner = true) :
    insn.Accepts heights (some height) ↔ insn.stackEffect.1 ≤ height := by
  have hat : insn.heightAt heights (some height) = some height := by
    cases insn with
    | bind label => cases h
    | _ => rfl
  constructor
  · exact fun haccepts => haccepts.pops_le height hat
  · refine fun hpops => ⟨fun _ hheight => hat.trans hheight, fun _ hheight => ?_,
      fun _ _ _ _ hjump => ?_⟩
    · rw [hat] at hheight
      cases hheight
      exact hpops
    · subst hjump
      cases h

theorem carry_inner (h : insn.isInner = true) (carried : Option Nat) :
    insn.carry heights carried = carried.map insn.heightAfter := by
  cases insn with
  | bind label => cases h
  | jump op label => cases h
  | plain op => cases op <;> first | cases h; done | rfl
  | _ => rfl

/-- A row without labels and jumps is accepted where its operands are there. -/
theorem admits_inner (hinner : ∀ insn ∈ code, insn.isInner = true) :
    Admits heights (some height) code ↔ (netEffect code).1 ≤ height := by
  induction code generalizing height with
  | nil => simp [netEffect]
  | cons insn code ih =>
      have hhead := hinner insn List.mem_cons_self
      rw [admits_cons, accepts_inner hhead, carry_inner hhead, Option.map_some,
        ih fun i hi => hinner i (List.mem_cons_of_mem _ hi), netEffect, Instruction.heightAfter]
      omega

theorem carriedBehind_inner (hinner : ∀ insn ∈ code, insn.isInner = true)
    (hheight : (netEffect code).1 ≤ height) :
    carriedBehind heights (some height) code =
      some (height - (netEffect code).1 + (netEffect code).2) := by
  induction code generalizing height with
  | nil => simp [netEffect]
  | cons insn code ih =>
      rw [netEffect] at hheight ⊢
      dsimp only at hheight ⊢
      rw [carriedBehind_cons, carry_inner (hinner insn List.mem_cons_self), Option.map_some,
        ih (fun i hi => hinner i (List.mem_cons_of_mem _ hi))
          (by rw [Instruction.heightAfter]; omega), Instruction.heightAfter]
      congr 1
      omega

/-- A row that is not reached is accepted, and what lies behind it is not reached either. -/
theorem admits_none (hinner : ∀ insn ∈ code, insn.isBind = false) :
    Admits heights none code ∧ carriedBehind heights none code = none := by
  induction code with
  | nil => simp
  | cons insn code ih =>
      have hhead := hinner insn List.mem_cons_self
      have hrest := ih fun i hi => hinner i (List.mem_cons_of_mem _ hi)
      rw [admits_cons, carriedBehind_cons, carry_none hhead]
      exact ⟨⟨accepts_none hhead, hrest.1⟩, hrest.2⟩

end Inner

/-! ## The analysis follows heights -/

namespace Flow

variable {code : Array Instruction} {layout : Layout} {flow : Flow} {expected : Nat → Option Nat}

/-- An instruction is followed by the next one of the list, or by the place of its label. -/
theorem mem_successors {position next : Nat} {insn : Instruction} :
    next ∈ successors layout position insn ↔
      insn.fallsThrough = true ∧ next = position + 1 ∨
        ∃ op target b, insn = .jump op target ∧ layout.bindings[target]? = some b ∧
          next = b.position := by
  cases insn with
  | jump op target =>
      have hlanding : next ∈ layout.bindings[target]?.toList.map Binding.position ↔
          ∃ op' target' b, Instruction.jump op target = .jump op' target' ∧
            layout.bindings[target']? = some b ∧ next = b.position := by
        rw [List.mem_map]
        constructor
        · rintro ⟨b, hb, rfl⟩
          exact ⟨op, target, b, rfl, Option.mem_toList.1 hb, rfl⟩
        · rintro ⟨_, _, b, heq, hb, rfl⟩
          cases heq
          exact ⟨b, Option.mem_toList.2 hb, rfl⟩
      by_cases hop : op = .goto
      · rw [← hlanding, successors, if_pos hop]
        simp [Instruction.fallsThrough, hop]
      · rw [← hlanding, successors, if_neg hop, List.mem_cons]
        simp [Instruction.fallsThrough, hop]
  | plain op => cases op <;> simp [successors, Instruction.fallsThrough]
  | _ => simp [successors, Instruction.fallsThrough]

/-- Heights of positions that every instruction carries on to its successors. -/
def Closed (code : Array Instruction) (layout : Layout) (expected : Nat → Option Nat) : Prop :=
  ∀ position height insn, expected position = some height → code[position]? = some insn →
    insn.stackEffect.1 ≤ height ∧ ∀ next ∈ successors layout position insn, next < code.size →
      expected next = some (insn.heightAfter height)

/-- A flow that knows expected heights alone. -/
structure Within (code : Array Instruction) (expected : Nat → Option Nat) (flow : Flow) : Prop where
  size_eq : flow.heights.size = code.size
  known : ∀ position height, flow.Known position height → expected position = some height

/-- A position is reached with the height that is expected there. -/
theorem within_reach {after next : Nat} (hflow : flow.Within code expected)
    (hnext : next < code.size → expected next = some after) :
    ∃ flow', flow.reach layout after next = .ok flow' ∧ flow'.Within code expected := by
  obtain ⟨heights, pending, highest⟩ := flow
  unfold reach
  dsimp only
  split
  next hlt =>
      have hafter := hnext (hflow.size_eq ▸ hlt)
      split
      next =>
          refine ⟨_, rfl, by simpa using hflow.size_eq, fun position height hp => ?_⟩
          by_cases hposition : next = position
          · subst hposition
            rw [Known, Array.getElem?_set_self hlt] at hp
            cases hp
            exact hafter
          · rw [Known, Array.getElem?_set_ne hlt hposition] at hp
            exact hflow.known position height hp
      next existing hsome =>
          have hknown : Known ⟨heights, pending, highest⟩ next existing := by
            rw [Known, Array.getElem?_eq_getElem hlt, hsome]
          have hsame := (hflow.known next existing hknown).symm.trans hafter
          rw [if_pos (Option.some.inj hsame)]
          exact ⟨_, rfl, hflow⟩
  next => exact ⟨_, rfl, hflow⟩

theorem within_foldlM {after : Nat} {nexts : List Nat} (hflow : flow.Within code expected)
    (hnexts : ∀ next ∈ nexts, next < code.size → expected next = some after) :
    ∃ flow', nexts.foldlM (reach layout after) flow = .ok flow' ∧
      flow'.Within code expected := by
  induction nexts generalizing flow with
  | nil => exact ⟨flow, rfl, hflow⟩
  | cons next nexts ih =>
      obtain ⟨mid, hreach, hmid⟩ : ∃ mid, flow.reach layout after next = .ok mid ∧
          mid.Within code expected :=
        within_reach hflow (hnexts next List.mem_cons_self)
      obtain ⟨flow', hfold, hflow'⟩ := ih hmid fun n hn => hnexts n (List.mem_cons_of_mem _ hn)
      exact ⟨flow', by rw [List.foldlM_cons]; exact bind_eq_ok.2 ⟨mid, hreach, hfold⟩, hflow'⟩

/-- A visit finds no fault with expected heights. -/
theorem within_visit (hclosed : Closed code layout expected) (hflow : flow.Within code expected)
    (position : Nat) (rest : List Nat) :
    ∃ flow', flow.visit code layout position rest = .ok flow' ∧ flow'.Within code expected := by
  obtain ⟨heights, pending, highest⟩ := flow
  unfold visit
  dsimp only
  split
  next height insn hheight hinsn =>
      obtain ⟨hpops, hnexts⟩ :=
        hclosed position height insn (hflow.known position height hheight) hinsn
      rw [if_neg (Nat.not_lt.2 hpops)]
      exact within_foldlM ⟨hflow.size_eq, hflow.known⟩ hnexts
  next => exact ⟨_, rfl, hflow.size_eq, hflow.known⟩

/-- The analysis accepts a body for which heights can be expected. -/
theorem exists_settle (hclosed : Closed code layout expected) (hflow : flow.Within code expected) :
    ∃ flow', flow.settle code layout = .ok flow' := by
  fun_induction settle code layout flow with
  | case1 flow hpending => exact ⟨flow, rfl⟩
  | case2 flow position rest hpending e hvisit =>
      obtain ⟨flow', hok, -⟩ := within_visit hclosed hflow position rest
      rw [hvisit] at hok
      cases hok
  | case3 flow position rest hpending mid hvisit ih =>
      obtain ⟨flow', hok, hmid⟩ := within_visit hclosed hflow position rest
      rw [hvisit] at hok
      cases hok
      exact ih hmid

theorem within_start (hstart : 0 < code.size → expected 0 = some 0) :
    (start code.size).Within code expected := by
  refine ⟨size_start, fun position height hp => ?_⟩
  obtain ⟨hpos, rfl, rfl⟩ := known_start.1 hp
  exact hstart hpos

end Flow

/-! ## Heights of labels and heights of positions -/

/-- A body that binds each of its labels at most once, and jumps to labels of its own alone. -/
structure SymbolicCode.Labelled (body : SymbolicCode) : Prop where
  nodup : (boundLabels body.instructions.toList).Nodup
  bound_lt : ∀ label ∈ boundLabels body.instructions.toList, label < body.labelCount
  target_lt : ∀ op target, .jump op target ∈ body.instructions.toList → target < body.labelCount

/-- A label lies at its binding. -/
theorem SymbolicCode.Labelled.binding_eq {body : SymbolicCode} {layout : Layout}
    (h : body.Labelled) (hlayout : Layout.of body = .ok layout) {label : Label}
    {done todo : List Instruction}
    (hcode : body.instructions.toList = done ++ .bind label :: todo) :
    layout.bindings[label]? = some ⟨done.length, codeSize done⟩ :=
  Layout.binding_of_nodup hlayout h.nodup (h.bound_lt label (by rw [hcode]; simp)) hcode

section Bodies

variable {body : SymbolicCode} {layout : Layout} {heights : LabelHeights}

/-- The height that heights of labels give to a position. -/
def heightOf (heights : LabelHeights) (code : List Instruction) (position : Nat) : Option Nat :=
  code[position]?.bind fun insn =>
    insn.heightAt heights (carriedBehind heights (some 0) (code.take position))

theorem heightOf_split {code done todo : List Instruction} {insn : Instruction}
    (h : code = done ++ insn :: todo) :
    heightOf heights code done.length =
      insn.heightAt heights (carriedBehind heights (some 0) done) := by
  subst h
  simp [heightOf]

/-- A height carried to a position is the height of the position. -/
theorem heightOf_of_carried {code done todo : List Instruction} {height : Nat}
    (h : Admits heights (some 0) code) (hcode : code = done ++ todo) (htodo : todo ≠ [])
    (hcarried : carriedBehind heights (some 0) done = some height) :
    heightOf heights code done.length = some height := by
  cases todo with
  | nil => exact absurd rfl htodo
  | cons insn todo =>
      rw [heightOf_split hcode]
      rw [hcode, admits_append] at h
      exact h.2.1.merges height hcarried

/-- Heights of labels give heights that every instruction carries on. -/
theorem closed_heightOf (hlayout : Layout.of body = .ok layout)
    (h : Admits heights (some 0) body.instructions.toList) :
    Flow.Closed body.instructions layout (heightOf heights body.instructions.toList) := by
  intro position height insn hheight hinsn
  rw [← Array.getElem?_toList] at hinsn
  obtain ⟨done, todo, hcode, rfl⟩ : ∃ done todo, body.instructions.toList = done ++ insn :: todo ∧
      done.length = position := by
    obtain ⟨hlt, hget⟩ := List.getElem?_eq_some_iff.1 hinsn
    refine ⟨body.instructions.toList.take position, body.instructions.toList.drop (position + 1),
      ?_, by rw [List.length_take]; omega⟩
    rw [← hget, List.getElem_cons_drop, List.take_append_drop]
  rw [heightOf_split hcode] at hheight
  have haccepts : insn.Accepts heights (carriedBehind heights (some 0) done) := by
    rw [hcode, admits_append] at h
    exact h.2.1
  refine ⟨haccepts.pops_le height hheight, fun next hnext hlt => ?_⟩
  -- the next position is reached by fall-through
  have hbehind : insn.fallsThrough = true → next = done.length + 1 →
      heightOf heights body.instructions.toList next = some (insn.heightAfter height) := by
    rintro hfalls rfl
    have hcode' : body.instructions.toList = (done ++ [insn]) ++ todo := by
      rw [hcode, List.append_assoc]
      rfl
    have hlength : done.length + 1 = (done ++ [insn]).length := by simp
    have htodo : todo ≠ [] := by
      rintro rfl
      rw [← Array.length_toList, hcode'] at hlt
      simp at hlt
    rw [hlength]
    refine heightOf_of_carried h hcode' htodo ?_
    rw [carriedBehind_append, carriedBehind_cons, carriedBehind_nil, Instruction.carry,
      if_pos hfalls, hheight, Option.map_some]
  rcases Flow.mem_successors.1 hnext with ⟨hfalls, hsucc⟩ | ⟨op, target, b, rfl, hb, rfl⟩
  · exact hbehind hfalls hsucc
  · obtain ⟨done', todo', hcode', -, rfl⟩ := Layout.binding_spec hlayout hb
    exact (heightOf_split hcode').trans (haccepts.jumps height op target hheight rfl)

/-- A body whose labels can be given heights is accepted. -/
theorem exists_analyse (hlayout : Layout.of body = .ok layout)
    (h : Admits heights (some 0) body.instructions.toList) :
    ∃ flow, analyse body.instructions layout = .ok flow := by
  refine Flow.exists_settle (closed_heightOf hlayout h) (Flow.within_start fun hpos => ?_)
  have hne : body.instructions.toList ≠ [] := by
    intro hnil
    rw [← Array.length_toList, hnil] at hpos
    exact absurd hpos (Nat.lt_irrefl 0)
  exact heightOf_of_carried h (List.nil_append _).symm hne rfl

/-- Heights that an analysis settled on, at the places of labels. -/
def Flow.labelHeights (flow : Flow) (layout : Layout) : LabelHeights := fun label =>
  layout.bindings[label]?.bind fun b => flow.heights[b.position]?.join

theorem Flow.labelHeights_eq_some {flow : Flow} {label : Label} {b : Binding} {height : Nat}
    (hb : layout.bindings[label]? = some b) :
    flow.labelHeights layout label = some height ↔ flow.Known b.position height := by
  rw [Flow.labelHeights, hb, Option.bind_some, Option.join_eq_some_iff]
  rfl

section Settled

variable {flow : Flow} {done todo : List Instruction} {insn : Instruction} {carried : Option Nat}

/-- The height that labels give to an instruction is the settled one. -/
theorem known_of_heightAt (hlayout : Layout.of body = .ok layout) (hlabels : body.Labelled)
    (hcode : body.instructions.toList = done ++ insn :: todo)
    (hcarried : ∀ height, carried = some height → flow.Known done.length height) {height : Nat}
    (h : insn.heightAt (flow.labelHeights layout) carried = some height) :
    flow.Known done.length height := by
  cases insn with
  | bind label =>
      exact (Flow.labelHeights_eq_some (hlabels.binding_eq hlayout hcode)).1 h
  | _ => exact hcarried height h

/-- An instruction accepts settled heights. -/
theorem accepts_of_final (hlayout : Layout.of body = .ok layout) (hlabels : body.Labelled)
    (hfinal : flow.Final body.instructions layout)
    (hcode : body.instructions.toList = done ++ insn :: todo)
    (hcarried : ∀ height, carried = some height → flow.Known done.length height) :
    insn.Accepts (flow.labelHeights layout) carried := by
  have hinsn : body.instructions[done.length]? = some insn := by
    rw [← Array.getElem?_toList, hcode]
    simp
  refine ⟨fun height hheight => ?_, fun height hheight => ?_, ?_⟩
  · cases insn with
    | bind label =>
        exact (Flow.labelHeights_eq_some (hlabels.binding_eq hlayout hcode)).2
          (hcarried height hheight)
    | _ => exact hheight
  · have hknown := known_of_heightAt hlayout hlabels hcode hcarried hheight
    exact (hfinal.carries done.length height insn hknown hinsn).1
  · rintro height op target hheight rfl
    have hknown := known_of_heightAt hlayout hlabels hcode hcarried hheight
    have hlt : target < layout.bindings.size := by
      rw [Layout.size_bindings hlayout]
      exact hlabels.target_lt op target (by rw [hcode]; simp)
    have hget := Array.getElem?_eq_getElem hlt
    obtain ⟨done', todo', hcode', -, hb⟩ := Layout.binding_spec hlayout hget
    have hsize : layout.bindings[target].position < flow.heights.size := by
      rw [hb, hfinal.size_eq, ← Array.length_toList, hcode']
      simp
    exact (Flow.labelHeights_eq_some hget).2
      ((hfinal.carries done.length height _ hknown hinsn).2.2.2 _
        (Flow.mem_successors.2 (.inr ⟨op, target, _, rfl, hget, rfl⟩)) hsize)

/-- What is carried behind an instruction is the settled height there. -/
theorem known_of_carry (hlayout : Layout.of body = .ok layout) (hlabels : body.Labelled)
    (hfinal : flow.Final body.instructions layout)
    (hcode : body.instructions.toList = done ++ insn :: todo) (htodo : todo ≠ [])
    (hcarried : ∀ height, carried = some height → flow.Known done.length height) {height : Nat}
    (h : insn.carry (flow.labelHeights layout) carried = some height) :
    flow.Known (done ++ [insn]).length height := by
  have hinsn : body.instructions[done.length]? = some insn := by
    rw [← Array.getElem?_toList, hcode]
    simp
  rw [Instruction.carry] at h
  split at h
  next hfalls =>
      obtain ⟨before, hbefore, rfl⟩ := Option.map_eq_some_iff.1 h
      have hknown := known_of_heightAt hlayout hlabels hcode hcarried hbefore
      have hsize : done.length + 1 < flow.heights.size := by
        have hpos := List.length_pos_iff.2 htodo
        rw [hfinal.size_eq, ← Array.length_toList, hcode, List.length_append, List.length_cons]
        omega
      rw [List.length_append, List.length_singleton]
      exact (hfinal.carries done.length before insn hknown hinsn).2.2.2 _
        (Flow.mem_successors.2 (.inl ⟨hfalls, rfl⟩)) hsize
  next => cases h

end Settled

/-- Settled heights of labels are right for the whole body. -/
theorem admits_of_final {flow : Flow} (hlayout : Layout.of body = .ok layout)
    (hlabels : body.Labelled) (hfinal : flow.Final body.instructions layout) :
    Admits (flow.labelHeights layout) (some 0) body.instructions.toList := by
  have hrow : ∀ (todo done : List Instruction) (carried : Option Nat),
      body.instructions.toList = done ++ todo →
      (∀ height, carried = some height → todo ≠ [] → flow.Known done.length height) →
      Admits (flow.labelHeights layout) carried todo := by
    intro todo
    induction todo with
    | nil => exact fun _ _ _ _ => trivial
    | cons insn todo ih =>
        intro done carried hcode hcarried
        have hknown := fun height hheight => hcarried height hheight (List.cons_ne_nil _ _)
        refine ⟨accepts_of_final hlayout hlabels hfinal hcode hknown,
          ih (done ++ [insn]) _ (by rw [hcode, List.append_assoc]; rfl) ?_⟩
        exact fun height hheight htodo =>
          known_of_carry hlayout hlabels hfinal hcode htodo hknown hheight
  refine hrow _ [] (some 0) rfl ?_
  intro height hheight hne
  cases hheight
  refine hfinal.start ?_
  rw [← Array.length_toList]
  exact List.length_pos_iff.2 hne

/-- The analysis accepts the bodies whose labels can be given heights, and no others. -/
theorem exists_analyse_iff (hlayout : Layout.of body = .ok layout)
    (hmodest : ∀ insn ∈ body.instructions.toList, insn.Modest)
    (hlabels : body.Labelled) :
    (∃ flow, analyse body.instructions layout = .ok flow) ↔
      ∃ heights, Admits heights (some 0) body.instructions.toList := by
  constructor
  · rintro ⟨flow, hflow⟩
    exact ⟨_, admits_of_final hlayout hlabels (analyse_spec hmodest hflow)⟩
  · rintro ⟨heights, hheights⟩
    exact exists_analyse hlayout hheights

end Bodies

end StackCodegen.ClassFile
