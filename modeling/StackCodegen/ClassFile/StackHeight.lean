import StackCodegen.ClassFile.Layout

/-!
# Operand-stack heights

A forward flow analysis over the instruction list. The first instruction is reached with an empty
stack; from there heights are carried along fall-through and jumps. An instruction that is reached
with too few operands, or in two ways with different heights, is an error. The result is the largest
height met before or after any reached instruction.

Positions wait on a last-in first-out list, and each is put there once, when its height becomes
known. A jump's fall-through is put there before its target. The order decides which of several
errors is reported.

Main statement: `Flow.visit` lowers `Flow.measure` (`measure_of_visit`), so the analysis ends.
-/

set_option autoImplicit false

namespace StackCodegen.ClassFile

/-- Heights known so far, positions whose successors are still to be visited, and the largest height
met. -/
structure Flow where
  heights : Array (Option Nat)
  pending : List Nat
  highest : Nat

namespace Flow

/-- The first instruction, if there is one, is reached with an empty stack. -/
def start (count : Nat) : Flow :=
  if count = 0 then
    ⟨#[], [], 0⟩
  else
    ⟨(Array.replicate count none).setIfInBounds 0 (some 0), [0], 0⟩

/-- Positions that may follow a position holding the given instruction. A plain `return` has none,
`goto` only its label; any other jump may fall through. -/
def successors (layout : Layout) (position : Nat) : Instruction → List Nat
  | .jump op target =>
    let landing := layout.bindings[target]?.toList.map Binding.position
    if op = .goto then landing else (position + 1) :: landing
  | .plain .returnVoid => []
  | _ => [position + 1]

/-- The flow after `next` is reached with the height `after`. Positions past the end are left
alone. -/
def reach (layout : Layout) (after : Nat) (flow : Flow) (next : Nat) : Except CodegenError Flow :=
  match flow with
  | ⟨heights, pending, highest⟩ =>
    if h : next < heights.size then
      match heights[next] with
      | none => .ok ⟨heights.set next (some after), next :: pending, highest⟩
      | some existing =>
        if existing = after then
          .ok ⟨heights, pending, highest⟩
        else
          .error (.stackMismatch (layout.offset next) existing after)
    else
      .ok ⟨heights, pending, highest⟩

/-- The flow after the successors of `position` are reached; `rest` is pending besides. -/
def visit (code : Array Instruction) (layout : Layout) (flow : Flow) (position : Nat)
    (rest : List Nat) : Except CodegenError Flow :=
  match flow with
  | ⟨heights, _, highest⟩ =>
    match heights[position]?, code[position]? with
    | some (some height), some insn =>
      if height < insn.stackEffect.1 then
        .error (.stackUnderflow (layout.offset position))
      else
        let after := height - insn.stackEffect.1 + insn.stackEffect.2
        (successors layout position insn).foldlM (reach layout after)
          ⟨heights, rest, max highest (max height after)⟩
    | _, _ => .ok ⟨heights, rest, highest⟩

/-- Unknown heights and pending positions together. -/
def measure (flow : Flow) : Nat := flow.heights.count none + flow.pending.length

theorem measure_of_reach {layout : Layout} {after next : Nat} {flow flow' : Flow}
    (h : flow.reach layout after next = .ok flow') : flow'.measure = flow.measure := by
  obtain ⟨heights, pending, highest⟩ := flow
  unfold reach at h
  dsimp only at h
  split at h
  next hlt =>
    split at h
    next heq =>
      cases h
      have hpos : 0 < heights.count none :=
        Array.count_pos_iff.2 (heq ▸ Array.getElem_mem hlt)
      simp only [measure, List.length_cons, Array.count_set hlt, heq]
      simp
      omega
    next =>
      split at h
      · cases h
        rfl
      · cases h
  next =>
    cases h
    rfl

theorem measure_of_foldlM_reach {layout : Layout} {after : Nat} {nexts : List Nat}
    {flow flow' : Flow} (h : nexts.foldlM (reach layout after) flow = .ok flow') :
    flow'.measure = flow.measure := by
  induction nexts generalizing flow with
  | nil =>
    cases h
    rfl
  | cons next nexts ih =>
    rw [List.foldlM_cons] at h
    cases hr : flow.reach layout after next with
    | error e => simp [hr, bind, Except.bind] at h
    | ok mid =>
      simp only [hr, bind, Except.bind] at h
      rw [ih h, measure_of_reach hr]

/-- Visiting a pending position lowers the measure. -/
theorem measure_of_visit {code : Array Instruction} {layout : Layout} {flow flow' : Flow}
    {position : Nat} {rest : List Nat} (hp : flow.pending = position :: rest)
    (h : flow.visit code layout position rest = .ok flow') : flow'.measure < flow.measure := by
  obtain ⟨heights, pending, highest⟩ := flow
  dsimp only at hp
  subst hp
  unfold visit at h
  dsimp only at h
  split at h
  · split at h
    · cases h
    · rw [measure_of_foldlM_reach h]
      simp [measure]
  · cases h
    simp [measure]

/-- Visits until nothing is pending. -/
def settle (code : Array Instruction) (layout : Layout) (flow : Flow) :
    Except CodegenError Flow :=
  match _hp : flow.pending with
  | [] => .ok flow
  | position :: rest =>
    match _hv : flow.visit code layout position rest with
    | .error e => .error e
    | .ok flow' => settle code layout flow'
termination_by flow.measure
decreasing_by exact measure_of_visit ‹_› ‹_›

end Flow

/-- The heights of a body, nothing left to visit. -/
def analyse (code : Array Instruction) (layout : Layout) : Except CodegenError Flow :=
  (Flow.start code.size).settle code layout

/-- The largest operand-stack height of a body. -/
def maxHeight (code : Array Instruction) (layout : Layout) : Except CodegenError Nat :=
  Flow.highest <$> analyse code layout

end StackCodegen.ClassFile
