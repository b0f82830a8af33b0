import StackCodegen.Proofs.ClassFile.Placement
import Mathlib.Algebra.BigOperators.Intervals
import Mathlib.Algebra.Order.BigOperators.Group.Finset

/-!
# Settled stack heights

What a flow analysis that ends without an error has established. Every known height is carried to
the successors of its instruction (`Flow.Carries`): the instruction finds its operands, and the
heights before and after it are at most the reported one.

The invariant keeps apart the positions whose successors were visited (`Flow.Visited`). Every known
position is visited or pending, never both, and each visit raises heights by at most the size of the
visited instruction (`Flow.Bounded`); so no height exceeds the size of the code (`analyse_spec`).
Both hold of every flow that an analysis goes through (`Flow.GoesThrough`), also where it ends with
an error.
-/

set_option autoImplicit false

namespace StackCodegen.ClassFile

open scoped BigOperators

/-- The height behind an instruction that starts at `height`. -/
def Instruction.heightAfter (insn : Instruction) (height : Nat) : Nat :=
  height - insn.stackEffect.1 + insn.stackEffect.2

/-- An instruction that adds no more words to the stack than it has bytes. -/
def Instruction.Modest (insn : Instruction) : Prop :=
  insn.stackEffect.2 ≤ insn.stackEffect.1 + insn.size

instance (insn : Instruction) : Decidable insn.Modest :=
  inferInstanceAs (Decidable (_ ≤ _))

namespace Flow

variable {code : Array Instruction} {layout : Layout} {flow flow' : Flow}

/-- The height at a position is known. -/
def Known (flow : Flow) (position height : Nat) : Prop :=
  flow.heights[position]? = some (some height)

/-- A position from which heights were carried on. -/
def Carries (code : Array Instruction) (layout : Layout) (flow : Flow) (position : Nat) : Prop :=
  ∀ height insn, flow.Known position height → code[position]? = some insn →
    insn.stackEffect.1 ≤ height ∧ height ≤ flow.highest ∧
      insn.heightAfter height ≤ flow.highest ∧
      ∀ next ∈ successors layout position insn, next < flow.heights.size →
        flow.Known next (insn.heightAfter height)

/-- What reaching some positions with a height does to a flow. -/
structure Reached (after : Nat) (nexts : List Nat) (flow flow' : Flow) : Prop where
  size_eq : flow'.heights.size = flow.heights.size
  highest_eq : flow'.highest = flow.highest
  kept : ∀ p h, flow.Known p h → flow'.Known p h
  reached : ∀ next ∈ nexts, next < flow.heights.size → flow'.Known next after
  fresh : ∃ new, flow'.pending = new ++ flow.pending ∧ new.Nodup ∧
    (∀ p ∈ new, flow.heights[p]? = some none ∧ flow'.Known p after ∧ p ∈ nexts) ∧
    ∀ p h, flow'.Known p h → flow.Known p h ∨ h = after ∧ p ∈ new

/-- Nothing is done where nothing new is reached. -/
theorem reached_self {after : Nat} {nexts : List Nat}
    (h : ∀ next ∈ nexts, next < flow.heights.size → flow.Known next after) :
    Reached after nexts flow flow where
  size_eq := rfl
  highest_eq := rfl
  kept := fun _ _ h => h
  reached := h
  fresh := ⟨[], rfl, List.nodup_nil, fun _ h => absurd h List.not_mem_nil, fun _ _ h => .inl h⟩

/-- One position is reached. -/
theorem reached_of_reach {after next : Nat} (h : flow.reach layout after next = .ok flow') :
    Reached after [next] flow flow' := by
  obtain ⟨heights, pending, highest⟩ := flow
  unfold reach at h
  dsimp only at h
  split at h
  next hlt =>
      split at h
      next hnone =>
          cases h
          have hunknown : heights[next]? = some none := by
            rw [Array.getElem?_eq_getElem hlt, hnone]
          refine ⟨by simp, rfl, ?_, ?_, [next], rfl, by simp, ?_, ?_⟩
          · intro p height hp
            have hne : next ≠ p := by
              rintro rfl
              rw [Known, hunknown] at hp
              cases hp
            rw [Known, Array.getElem?_set_ne hlt hne]
            exact hp
          · intro p hp _
            rw [List.mem_singleton.1 hp, Known, Array.getElem?_set_self hlt]
          · intro p hp
            rw [List.mem_singleton.1 hp]
            exact ⟨hunknown, by rw [Known, Array.getElem?_set_self hlt], List.mem_singleton_self _⟩
          · intro p height hp
            by_cases hne : next = p
            · subst hne
              rw [Known, Array.getElem?_set_self hlt] at hp
              cases hp
              exact .inr ⟨rfl, List.mem_singleton_self _⟩
            · rw [Known, Array.getElem?_set_ne hlt hne] at hp
              exact .inl hp
      next existing hsome =>
          split at h
          next heq =>
              cases h
              refine reached_self fun p hp _ => ?_
              rw [List.mem_singleton.1 hp, Known, Array.getElem?_eq_getElem hlt, hsome, heq]
          next => cases h
  next hge =>
      cases h
      refine reached_self fun p hp hlt => ?_
      rw [List.mem_singleton.1 hp] at hlt
      exact absurd hlt hge

theorem Reached.trans {after : Nat} {nexts nexts' : List Nat} {mid : Flow}
    (h : Reached after nexts flow mid) (h' : Reached after nexts' mid flow') :
    Reached after (nexts ++ nexts') flow flow' := by
  obtain ⟨new, hpending, hnodup, hnew, hknown⟩ := h.fresh
  obtain ⟨new', hpending', hnodup', hnew', hknown'⟩ := h'.fresh
  refine ⟨h'.size_eq.trans h.size_eq, h'.highest_eq.trans h.highest_eq,
    fun p height hp => h'.kept p height (h.kept p height hp), ?_,
    new' ++ new, by rw [hpending', hpending, List.append_assoc], ?_, ?_, ?_⟩
  · intro next hnext hlt
    rcases List.mem_append.1 hnext with hmem | hmem
    · exact h'.kept _ _ (h.reached next hmem hlt)
    · exact h'.reached next hmem (h.size_eq ▸ hlt)
  · refine List.nodup_append.2 ⟨hnodup', hnodup, ?_⟩
    rintro p hp q hq rfl
    have hnone := (hnew' p hp).1
    have hsome := (hnew p hq).2.1
    rw [Known, hnone] at hsome
    cases hsome
  · intro p hp
    rcases List.mem_append.1 hp with hmem | hmem
    · refine ⟨?_, (hnew' p hmem).2.1, List.mem_append_right _ (hnew' p hmem).2.2⟩
      have hnone := (hnew' p hmem).1
      have hlt : p < flow.heights.size := by
        rw [← h.size_eq]
        exact (Array.getElem?_eq_some_iff.1 hnone).1
      rw [Array.getElem?_eq_getElem hlt]
      cases hold : flow.heights[p] with
      | none => rfl
      | some height =>
          have hkept := h.kept p height (by rw [Known, Array.getElem?_eq_getElem hlt, hold])
          rw [Known, hnone] at hkept
          cases hkept
    · exact ⟨(hnew p hmem).1, h'.kept _ _ (hnew p hmem).2.1,
        List.mem_append_left _ (hnew p hmem).2.2⟩
  · intro p height hp
    rcases hknown' p height hp with hmid | ⟨rfl, hmem⟩
    · rcases hknown p height hmid with hold | ⟨rfl, hmem⟩
      · exact .inl hold
      · exact .inr ⟨rfl, List.mem_append_right _ hmem⟩
    · exact .inr ⟨rfl, List.mem_append_left _ hmem⟩

/-- Positions are reached one after the other. -/
theorem reached_of_foldlM {after : Nat} {nexts : List Nat}
    (h : nexts.foldlM (reach layout after) flow = .ok flow') : Reached after nexts flow flow' := by
  induction nexts generalizing flow with
  | nil =>
      cases h
      exact reached_self fun _ h => absurd h List.not_mem_nil
  | cons next nexts ih =>
      rw [List.foldlM_cons] at h
      cases hr : flow.reach layout after next with
      | error e =>
          simp only [hr, bind, Except.bind] at h
          cases h
      | ok mid =>
          simp only [hr, bind, Except.bind] at h
          exact (reached_of_reach hr).trans (ih h)

/-! ## The invariant -/

/-- The size of the instruction at a position. -/
def sizeAt (code : Array Instruction) (position : Nat) : Nat :=
  (code[position]?.map Instruction.size).getD 0

/-- The state of an analysis that visited the successors of the positions in `visited`. -/
structure Visited (code : Array Instruction) (layout : Layout) (flow : Flow)
    (visited : Finset Nat) : Prop where
  size_eq : flow.heights.size = code.size
  start : 0 < code.size → flow.Known 0 0
  nodup : flow.pending.Nodup
  disjoint : ∀ p ∈ flow.pending, p ∉ visited
  known_of_mem : ∀ p, p ∈ flow.pending ∨ p ∈ visited → ∃ height, flow.Known p height
  mem_of_known : ∀ p height, flow.Known p height → p ∈ flow.pending ∨ p ∈ visited
  carries : ∀ p ∈ visited, flow.Carries code layout p

/-- Heights that the sizes of the visited instructions make up for. -/
structure Bounded (code : Array Instruction) (flow : Flow) (visited : Finset Nat) : Prop where
  height_le : ∀ p height, flow.Known p height → height ≤ ∑ q ∈ visited, sizeAt code q
  highest_le : flow.highest ≤ ∑ q ∈ visited, sizeAt code q

/-- At the start the first position is known, and no other one. -/
theorem known_start {count position height : Nat} :
    (start count).Known position height ↔ 0 < count ∧ position = 0 ∧ height = 0 := by
  unfold start
  split
  next hzero => simp [Known, hzero]
  next hpos =>
      rw [Known, Array.getElem?_setIfInBounds]
      by_cases hp : 0 = position
      · subst hp
        simp only [if_pos, Array.size_replicate, Nat.pos_of_ne_zero hpos, Option.some.injEq,
          true_and]
        exact eq_comm
      · simp only [if_neg hp, Array.getElem?_replicate]
        constructor
        · intro h
          split at h <;> cases h
        · rintro ⟨-, rfl, -⟩
          exact absurd rfl hp

theorem size_start {count : Nat} : (start count).heights.size = count := by
  unfold start
  split
  next hzero => simp [hzero]
  next => simp

theorem highest_start (count : Nat) : (start count).highest = 0 := by
  unfold start
  split <;> rfl

theorem visited_start : (start code.size).Visited code layout ∅ := by
  have hpending : (start code.size).pending = if code.size = 0 then [] else [0] := by
    unfold start
    split <;> rfl
  have hmem : ∀ p, p ∈ (start code.size).pending ↔ 0 < code.size ∧ p = 0 := by
    intro p
    rw [hpending]
    split
    next hzero => simp [hzero]
    next hpos => simp [Nat.pos_of_ne_zero hpos]
  refine ⟨size_start, fun hpos => known_start.2 ⟨hpos, rfl, rfl⟩, ?_, by simp, ?_, ?_, by simp⟩
  · rw [hpending]
    split <;> simp
  · rintro p (hp | hp)
    · obtain ⟨hpos, rfl⟩ := (hmem p).1 hp
      exact ⟨0, known_start.2 ⟨hpos, rfl, rfl⟩⟩
    · exact absurd hp (Finset.notMem_empty p)
  · intro p height hp
    obtain ⟨hpos, rfl, -⟩ := known_start.1 hp
    exact .inl ((hmem 0).2 ⟨hpos, rfl⟩)

theorem bounded_start : (start code.size).Bounded code ∅ := by
  refine ⟨fun p height hp => ?_, by rw [highest_start]; exact Nat.zero_le _⟩
  rw [(known_start.1 hp).2.2]
  exact Nat.zero_le _

section Visits

variable {position height highest : Nat} {rest nexts : List Nat} {visited : Finset Nat}
  {insn : Instruction} {after : Nat}

/-- A visit reaches the successors of an instruction with the height behind it, if the
instruction finds its operands. -/
theorem reached_of_visit (hheight : flow.Known position height)
    (hinsn : code[position]? = some insn)
    (h : flow.visit code layout position rest = .ok flow') :
    insn.stackEffect.1 ≤ height ∧
      Reached (insn.heightAfter height) (successors layout position insn)
        ⟨flow.heights, rest, max flow.highest (max height (insn.heightAfter height))⟩ flow' := by
  obtain ⟨heights, pending, highest⟩ := flow
  have hheight' : heights[position]? = some (some height) := hheight
  unfold visit at h
  simp only [hheight', hinsn] at h
  split at h
  · cases h
  next hpops => exact ⟨Nat.le_of_not_lt hpops, reached_of_foldlM h⟩

/-- What is reached for the first time was not known. -/
theorem not_known_of_fresh {p old : Nat} (h : flow.heights[p]? = some none) :
    ¬ flow.Known p old := by
  intro hold
  rw [Known, h] at hold
  cases hold

/-- The worklist after a visit holds what was pending besides and what was reached for the first
time; none of it was visited. -/
theorem worklist_of_visit (hflow : flow.Visited code layout visited)
    (hpending : flow.pending = position :: rest) (hheight : flow.Known position height)
    (hreach : Reached after nexts ⟨flow.heights, rest, highest⟩ flow') :
    flow'.pending.Nodup ∧ ∀ p ∈ flow'.pending, p ∉ insert position visited := by
  have hnodup := List.nodup_cons.1 (hpending ▸ hflow.nodup)
  have hrest : ∀ p ∈ rest, p ∈ flow.pending := fun p hp => hpending ▸ List.mem_cons_of_mem _ hp
  obtain ⟨new, hpending', hnew, hfresh, -⟩ := hreach.fresh
  rw [hpending']
  refine ⟨List.nodup_append.2 ⟨hnew, hnodup.2, ?_⟩, fun p hp hmem => ?_⟩
  · rintro p hp q hq rfl
    obtain ⟨old, hold⟩ := hflow.known_of_mem p (.inl (hrest p hq))
    exact not_known_of_fresh (hfresh p hp).1 hold
  · rcases List.mem_append.1 hp with hp | hp
    · have hold : ∃ old, flow.Known p old := by
        rcases Finset.mem_insert.1 hmem with rfl | hvisited
        · exact ⟨height, hheight⟩
        · exact hflow.known_of_mem p (.inr hvisited)
      obtain ⟨old, hold⟩ := hold
      exact not_known_of_fresh (hfresh p hp).1 hold
    · rcases Finset.mem_insert.1 hmem with rfl | hvisited
      · exact hnodup.1 hp
      · exact hflow.disjoint p (hrest p hp) hvisited

/-- After a visit the known positions are those of the worklist and the visited ones. -/
theorem exists_known_iff_of_visit (hflow : flow.Visited code layout visited)
    (hpending : flow.pending = position :: rest) (hheight : flow.Known position height)
    (hreach : Reached after nexts ⟨flow.heights, rest, highest⟩ flow') (p : Nat) :
    (∃ known, flow'.Known p known) ↔ p ∈ flow'.pending ∨ p ∈ insert position visited := by
  obtain ⟨new, hpending', -, hfresh, hknown⟩ := hreach.fresh
  rw [hpending']
  constructor
  · rintro ⟨known, hp⟩
    rcases hknown p known hp with hold | ⟨-, hmem⟩
    · rcases hflow.mem_of_known p known hold with hp | hp
      · rw [hpending] at hp
        rcases List.mem_cons.1 hp with rfl | hp
        · exact .inr (Finset.mem_insert_self _ _)
        · exact .inl (List.mem_append_right _ hp)
      · exact .inr (Finset.mem_insert_of_mem hp)
    · exact .inl (List.mem_append_left _ hmem)
  · have hkept : (∃ old, flow.Known p old) → ∃ known, flow'.Known p known :=
      fun ⟨old, hold⟩ => ⟨old, hreach.kept p old hold⟩
    rintro (hp | hp)
    · rcases List.mem_append.1 hp with hp | hp
      · exact ⟨_, (hfresh p hp).2.1⟩
      · exact hkept (hflow.known_of_mem p (.inl (hpending ▸ List.mem_cons_of_mem _ hp)))
    · rcases Finset.mem_insert.1 hp with rfl | hvisited
      · exact hkept ⟨height, hheight⟩
      · exact hkept (hflow.known_of_mem p (.inr hvisited))

/-- The visited position carries its height on, and older ones carry on what they did. -/
theorem carries_of_visit (hflow : flow.Visited code layout visited)
    (hheight : flow.Known position height) (hinsn : code[position]? = some insn)
    (hpops : insn.stackEffect.1 ≤ height)
    (hreach : Reached (insn.heightAfter height) (successors layout position insn)
      ⟨flow.heights, rest, max flow.highest (max height (insn.heightAfter height))⟩ flow') :
    ∀ p ∈ insert position visited, flow'.Carries code layout p := by
  intro p hp height' insn' hheight' hinsn'
  have hhighest : flow'.highest = max flow.highest (max height (insn.heightAfter height)) :=
    hreach.highest_eq
  rcases Finset.mem_insert.1 hp with rfl | hvisited
  · -- the visited position: its successors have just been reached
    have hsame := hreach.kept p height hheight
    rw [Known, hheight'] at hsame
    cases hsame
    rw [hinsn] at hinsn'
    cases hinsn'
    refine ⟨hpops, by omega, by omega, fun next hnext hlt => ?_⟩
    exact hreach.reached next hnext (hreach.size_eq ▸ hlt)
  · -- an older one: what it carried on is kept
    obtain ⟨old, hold⟩ := hflow.known_of_mem p (.inr hvisited)
    have hsame := hreach.kept p old hold
    rw [Known, hheight'] at hsame
    cases hsame
    obtain ⟨hpops', hle, hafter, hcarried⟩ := hflow.carries p hvisited _ insn' hold hinsn'
    refine ⟨hpops', by omega, by omega, fun next hnext hlt => ?_⟩
    exact hreach.kept _ _ (hcarried next hnext (hreach.size_eq ▸ hlt))

/-- A pending position holds an instruction, and its height is known. -/
theorem exists_pending (hflow : flow.Visited code layout visited)
    (hpending : flow.pending = position :: rest) :
    ∃ height insn, flow.Known position height ∧ code[position]? = some insn := by
  obtain ⟨height, hheight⟩ :=
    hflow.known_of_mem position (.inl (hpending ▸ List.mem_cons_self))
  have hlt : position < code.size := by
    rw [← hflow.size_eq]
    exact (Array.getElem?_eq_some_iff.1 hheight).1
  exact ⟨height, _, hheight, Array.getElem?_eq_getElem hlt⟩

/-- A visit moves one position from the pending to the visited ones. -/
theorem visited_of_visit (hflow : flow.Visited code layout visited)
    (hpending : flow.pending = position :: rest)
    (h : flow.visit code layout position rest = .ok flow') :
    flow'.Visited code layout (insert position visited) := by
  obtain ⟨height, insn, hheight, hinsn⟩ := exists_pending hflow hpending
  obtain ⟨hpops, hreach⟩ := reached_of_visit hheight hinsn h
  obtain ⟨hnodup, hdisjoint⟩ := worklist_of_visit hflow hpending hheight hreach
  have hknown := exists_known_iff_of_visit hflow hpending hheight hreach
  exact ⟨hreach.size_eq.trans hflow.size_eq, fun hpos => hreach.kept _ _ (hflow.start hpos),
    hnodup, hdisjoint, fun p => (hknown p).2, fun p known hp => (hknown p).1 ⟨known, hp⟩,
    carries_of_visit hflow hheight hinsn hpops hreach⟩

theorem sum_insert_sizeAt (hinsn : code[position]? = some insn) (hnot : position ∉ visited) :
    ∑ q ∈ insert position visited, sizeAt code q =
      insn.size + ∑ q ∈ visited, sizeAt code q := by
  rw [Finset.sum_insert hnot, sizeAt, hinsn]
  rfl

/-- A modest instruction raises a height by its own size at most. -/
theorem heightAfter_le (hmodest : ∀ insn ∈ code.toList, insn.Modest)
    (hbounded : flow.Bounded code visited) (hheight : flow.Known position height)
    (hinsn : code[position]? = some insn) (hpops : insn.stackEffect.1 ≤ height) :
    insn.heightAfter height ≤ insn.size + ∑ q ∈ visited, sizeAt code q := by
  have hle := hbounded.height_le position height hheight
  have hmod := hmodest insn (Array.mem_toList_iff.2 (Array.mem_of_getElem? hinsn))
  unfold Instruction.Modest at hmod
  unfold Instruction.heightAfter
  omega

/-- A visit raises no height beyond the sizes of the instructions visited with it. -/
theorem bounded_of_visit (hmodest : ∀ insn ∈ code.toList, insn.Modest)
    (hflow : flow.Visited code layout visited) (hbounded : flow.Bounded code visited)
    (hpending : flow.pending = position :: rest)
    (h : flow.visit code layout position rest = .ok flow') :
    flow'.Bounded code (insert position visited) := by
  have hnot : position ∉ visited := hflow.disjoint position (hpending ▸ List.mem_cons_self)
  obtain ⟨height, insn, hheight, hinsn⟩ := exists_pending hflow hpending
  obtain ⟨hpops, hreach⟩ := reached_of_visit hheight hinsn h
  have hsum := sum_insert_sizeAt hinsn hnot
  have hafter := heightAfter_le hmodest hbounded hheight hinsn hpops
  refine ⟨fun p known hp => ?_, ?_⟩
  · obtain ⟨new, -, -, -, hold⟩ := hreach.fresh
    rw [hsum]
    rcases hold p known hp with hold | ⟨rfl, -⟩
    · exact le_trans (hbounded.height_le p known hold) (Nat.le_add_left _ _)
    · exact hafter
  · have hhighest : flow'.highest = max flow.highest (max height (insn.heightAfter height)) :=
      hreach.highest_eq
    have hle := hbounded.height_le position height hheight
    have hold := hbounded.highest_le
    rw [hhighest, hsum]
    omega

end Visits

/-! ## Runs of the analysis -/

/-- The flows that an analysis goes through. -/
inductive GoesThrough (code : Array Instruction) (layout : Layout) : Flow → Prop where
  | start : GoesThrough code layout (start code.size)
  | visit {flow flow' : Flow} {position : Nat} {rest : List Nat}
      (before : GoesThrough code layout flow) (next : flow.pending = position :: rest)
      (visited : flow.visit code layout position rest = .ok flow') :
      GoesThrough code layout flow'

/-- A flow that settles is gone through to its end. -/
theorem goesThrough_of_settle (hflow : GoesThrough code layout flow)
    (h : flow.settle code layout = .ok flow') :
    GoesThrough code layout flow' ∧ flow'.pending = [] := by
  fun_induction settle code layout flow with
  | case1 flow hpending =>
      cases h
      exact ⟨hflow, hpending⟩
  | case2 flow position rest hpending e hvisit => cases h
  | case3 flow position rest hpending mid hvisit ih => exact ih (hflow.visit hpending hvisit) h

/-- A flow that does not settle is gone through to the visit that fails. -/
theorem exists_visit_of_settle_error {e : CodegenError} (hflow : GoesThrough code layout flow)
    (h : flow.settle code layout = .error e) :
    ∃ last position rest, GoesThrough code layout last ∧ last.pending = position :: rest ∧
      last.visit code layout position rest = .error e := by
  fun_induction settle code layout flow with
  | case1 flow hpending => cases h
  | case2 flow position rest hpending e' hvisit =>
      cases h
      exact ⟨flow, position, rest, hflow, hpending, hvisit⟩
  | case3 flow position rest hpending mid hvisit ih => exact ih (hflow.visit hpending hvisit) h

namespace GoesThrough

/-- The invariant holds all the way. -/
theorem exists_visited (h : GoesThrough code layout flow) :
    ∃ visited, flow.Visited code layout visited := by
  induction h with
  | start => exact ⟨∅, visited_start⟩
  | visit _ hpending hvisit ih =>
      obtain ⟨visited, hvisited⟩ := ih
      exact ⟨_, visited_of_visit hvisited hpending hvisit⟩

/-- Over modest instructions the bound on heights holds all the way, too. -/
theorem exists_bounded (hmodest : ∀ insn ∈ code.toList, insn.Modest)
    (h : GoesThrough code layout flow) :
    ∃ visited, flow.Visited code layout visited ∧ flow.Bounded code visited := by
  induction h with
  | start => exact ⟨∅, visited_start, bounded_start⟩
  | visit _ hpending hvisit ih =>
      obtain ⟨visited, hvisited, hbounded⟩ := ih
      exact ⟨_, visited_of_visit hvisited hpending hvisit,
        bounded_of_visit hmodest hvisited hbounded hpending hvisit⟩

end GoesThrough

end Flow

/-! ## What an analysis establishes -/

theorem sum_sizeAt (code : Array Instruction) :
    ∑ p ∈ Finset.range code.size, Flow.sizeAt code p = codeSize code.toList := by
  have hlist : ∀ insns : List Instruction,
      ∑ p ∈ Finset.range insns.length, (insns[p]?.map Instruction.size).getD 0 =
        codeSize insns := by
    intro insns
    induction insns with
    | nil => rfl
    | cons insn insns ih =>
        rw [List.length_cons, Finset.sum_range_succ', codeSize_cons, ← ih, Nat.add_comm]
        rfl
  simpa [Flow.sizeAt] using hlist code.toList

theorem sum_sizeAt_le {code : Array Instruction} {positions : Finset Nat}
    (h : ∀ p ∈ positions, p < code.size) :
    ∑ p ∈ positions, Flow.sizeAt code p ≤ codeSize code.toList := by
  rw [← sum_sizeAt]
  exact Finset.sum_le_sum_of_subset fun p hp => Finset.mem_range.2 (h p hp)

/-- The visited instructions are instructions of the body. -/
theorem Flow.Visited.lt_size {code : Array Instruction} {layout : Layout} {flow : Flow}
    {visited : Finset Nat} (h : flow.Visited code layout visited) {p : Nat} (hp : p ∈ visited) :
    p < code.size := by
  obtain ⟨height, hheight⟩ := h.known_of_mem p (.inr hp)
  rw [← h.size_eq]
  exact (Array.getElem?_eq_some_iff.1 hheight).1

/-- What holds of the heights that an analysis settled on. -/
structure Flow.Settled (code : Array Instruction) (layout : Layout) (flow : Flow) : Prop where
  size_eq : flow.heights.size = code.size
  start : 0 < code.size → flow.Known 0 0
  carries : ∀ p, flow.Carries code layout p

/-- What holds of the heights of an analysed body. -/
structure Flow.Final (code : Array Instruction) (layout : Layout) (flow : Flow) : Prop
    extends flow.Settled code layout where
  highest_le : flow.highest ≤ codeSize code.toList

section Analysed

variable {code : Array Instruction} {layout : Layout} {flow : Flow}

/-- An analysis that ends has visited all it knows. -/
theorem settled_of_goesThrough (h : Flow.GoesThrough code layout flow)
    (hpending : flow.pending = []) : flow.Settled code layout := by
  obtain ⟨visited, hvisited⟩ := h.exists_visited
  refine ⟨hvisited.size_eq, hvisited.start, fun p height insn hheight hinsn => ?_⟩
  have hmem := hvisited.mem_of_known p height hheight
  rw [hpending] at hmem
  exact hvisited.carries p (hmem.resolve_left List.not_mem_nil) height insn hheight hinsn

/-- Settled heights are carried along every step and never exceed the size of the code. -/
theorem analyse_spec (hmodest : ∀ insn ∈ code.toList, insn.Modest)
    (h : analyse code layout = .ok flow) : flow.Final code layout := by
  obtain ⟨hthrough, hpending⟩ := Flow.goesThrough_of_settle .start h
  obtain ⟨visited, hvisited, hbounded⟩ := hthrough.exists_bounded hmodest
  exact ⟨settled_of_goesThrough hthrough hpending,
    hbounded.highest_le.trans (sum_sizeAt_le fun _ => hvisited.lt_size)⟩

end Analysed

/-! ## Heights in 16 bits -/

/-- The height behind an instruction in 16-bit words, whatever is lost. -/
def Instruction.wordAfter (insn : Instruction) (height : UInt16) : UInt16 :=
  height - .ofNat insn.stackEffect.1 + .ofNat insn.stackEffect.2

/-- Nothing is lost where the operands are there and the heights fit. -/
theorem toNat_wordAfter {insn : Instruction} {height : Nat} (hpops : insn.stackEffect.1 ≤ height)
    (hheight : height ≤ 65535) (hafter : insn.heightAfter height ≤ 65535) :
    (insn.wordAfter (.ofNat height)).toNat = insn.heightAfter height := by
  unfold Instruction.heightAfter at hafter ⊢
  rw [Instruction.wordAfter, UInt16.toNat_add, UInt16.toNat_sub, UInt16.toNat_ofNat',
    UInt16.toNat_ofNat', UInt16.toNat_ofNat',
    Nat.mod_eq_of_lt (show height < 2 ^ 16 by omega),
    Nat.mod_eq_of_lt (show insn.stackEffect.1 < 2 ^ 16 by omega),
    Nat.mod_eq_of_lt (show insn.stackEffect.2 < 2 ^ 16 by omega)]
  omega

/-- An analysis, on its way to a result or to an error, comes to an instruction with a height that
holds its operands, and computes the height behind it. -/
inductive Flow.Computes (code : Array Instruction) (layout : Layout) :
    Instruction → Nat → Prop where
  | visit {flow : Flow} {position height : Nat} {rest : List Nat} {insn : Instruction}
      (through : GoesThrough code layout flow) (next : flow.pending = position :: rest)
      (known : flow.Known position height) (found : code[position]? = some insn)
      (pops : insn.stackEffect.1 ≤ height) : Computes code layout insn height

/-- No height that is computed exceeds the size of the code. A position need not lie behind the
instructions that made up its height, but each of them was visited once. -/
theorem le_codeSize_of_computes {code : Array Instruction} {layout : Layout} {insn : Instruction}
    {height : Nat} (hmodest : ∀ insn ∈ code.toList, insn.Modest)
    (h : Flow.Computes code layout insn height) :
    height ≤ codeSize code.toList ∧ insn.heightAfter height ≤ codeSize code.toList := by
  obtain ⟨hthrough, hpending, hknown, hfound, hpops⟩ := h
  obtain ⟨visited, hvisited, hbounded⟩ := hthrough.exists_bounded hmodest
  have hnot := hvisited.disjoint _ (hpending ▸ List.mem_cons_self)
  constructor
  · exact (hbounded.height_le _ _ hknown).trans (sum_sizeAt_le fun _ => hvisited.lt_size)
  · have hafter := Flow.heightAfter_le hmodest hbounded hknown hfound hpops
    rw [← Flow.sum_insert_sizeAt hfound hnot] at hafter
    refine hafter.trans (sum_sizeAt_le fun p hp => ?_)
    rcases Finset.mem_insert.1 hp with rfl | hp
    · exact (Array.getElem?_eq_some_iff.1 hfound).1
    · exact hvisited.lt_size hp

end StackCodegen.ClassFile
