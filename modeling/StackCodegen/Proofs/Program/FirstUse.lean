import StackCodegen.Proofs.Program.Variables
import Mathlib.Data.List.Induction

/-!
# Variables in the order of their first use

A statement uses a variable if it loads or stores it. The scan of a body keeps the first of equal
names (`variableNames_eq_eraseDups`). So it lists the variables that are used and no others
(`mem_variableNames_iff`), by ascending index of the first statement that uses them
(`pairwise_firstUse`). Statements behind a body add names behind those that are there
(`variableNames_isPrefix_append`).
-/

set_option autoImplicit false

namespace StackCodegen

/-! ## Uses -/

/-- Recogniser for statements that load or store a variable. -/
def Statement.uses (name : String) : Statement → Bool
  | load name' | store name' => name' == name
  | _ => false

theorem Statement.variableName?_eq_some_iff {s : Statement} {name : String} :
    s.variableName? = some name ↔ s.uses name = true := by
  cases s <;> simp [variableName?, uses]

namespace Body

/-- The variables that some statement of a body loads or stores. -/
def Uses (body : Body) (name : String) : Prop := ∃ s ∈ body.toList, s.uses name = true

/-- The index of the first statement that loads or stores a variable; the number of statements
where none does. -/
def firstUse (body : Body) (name : String) : Nat := body.toList.findIdx (Statement.uses name)

theorem firstUse_lt_iff {body : Body} {name : String} :
    body.firstUse name < body.size ↔ body.Uses name := by
  rw [firstUse, Uses, ← Array.length_toList, List.findIdx_lt_length]

/-- A first use stays the first one when statements follow. -/
theorem firstUse_append {body more : Body} {name : String} (h : body.Uses name) :
    (body ++ more).firstUse name = body.firstUse name := by
  have hlt := firstUse_lt_iff.2 h
  rw [firstUse, ← Array.length_toList] at hlt
  rw [firstUse, firstUse, Array.toList_append, List.findIdx_append, if_pos hlt]

/-- What the front does not use is first used behind it. -/
theorem size_le_firstUse_append {body more : Body} {name : String} (h : ¬ body.Uses name) :
    body.size ≤ (body ++ more).firstUse name := by
  have hge := mt firstUse_lt_iff.1 h
  rw [firstUse, ← Array.length_toList] at hge
  rw [firstUse, Array.toList_append, List.findIdx_append, if_neg hge, ← Array.length_toList]
  exact Nat.le_add_left _ _

end Body

/-! ## The scan -/

/-- The scan adds, to what it kept, the new names of the rest. -/
theorem firstByKey_eq_append (names : List String) (seen : Std.TreeSet String)
    (kept : Array String) (hseen : ∀ k, seen.contains k = true ↔ k ∈ kept.toList) :
    firstByKey id seen kept names =
      kept.toList ++ (names.removeAll kept.toList).eraseDups := by
  induction names generalizing seen kept with
  | nil => simp [firstByKey, List.removeAll]
  | cons name names ih =>
      rw [firstByKey]
      split
      next hold =>
          -- a name that was kept is removed from the rest as well
          have hmem : name ∈ kept.toList := (hseen name).1 hold
          rw [ih seen kept hseen, List.removeAll, List.removeAll, List.filter_cons_of_neg]
          simpa using hmem
      next hnew =>
          have hnot : name ∉ kept.toList := fun hmem => hnew ((hseen name).2 hmem)
          have hpush : ∀ k, (seen.insert name).contains k = true ↔
              k ∈ (kept.push name).toList := by
            intro k
            have h := @seen_push String id seen kept (by simpa using hseen) name k
            simpa using h
          -- later places of the name are removed once it is kept
          have hrest : names.removeAll (kept.push name).toList =
              (names.removeAll kept.toList).filter fun b => !b == name := by
            simp only [List.removeAll, List.filter_filter, Array.toList_push]
            apply List.filter_congr
            intro b _
            simp [beq_eq_decide, Bool.and_comm]
          have hhead : (name :: names).removeAll kept.toList =
              name :: names.removeAll kept.toList := by
            rw [List.removeAll, List.filter_cons_of_pos, List.removeAll]
            simpa using hnot
          rw [id_eq, ih _ _ hpush, hrest, hhead, List.eraseDups_cons, Array.toList_push,
            List.append_assoc, List.singleton_append]

namespace Body

/-- Of equal names the first one is listed. -/
theorem variableNames_eq_eraseDups (body : Body) :
    body.variableNames = (body.toList.filterMap Statement.variableName?).eraseDups := by
  rw [variableNames, distinctBy, firstByKey_eq_append _ _ _ (by simp)]
  simp [List.removeAll]

/-- A body lists the variables it uses, and no others. -/
theorem mem_variableNames_iff {body : Body} {name : String} :
    name ∈ body.variableNames ↔ body.Uses name := by
  rw [variableNames_eq_eraseDups, List.mem_eraseDups, List.mem_filterMap]
  simp only [Statement.variableName?_eq_some_iff, Uses]

/-- The names of a body come first among those of a longer one. -/
theorem variableNames_append (body more : Body) :
    (body ++ more).variableNames = body.variableNames ++
      ((more.toList.filterMap Statement.variableName?).removeAll
        (body.toList.filterMap Statement.variableName?)).eraseDups := by
  rw [variableNames_eq_eraseDups, variableNames_eq_eraseDups, Array.toList_append,
    List.filterMap_append, List.eraseDups_append]

/-- Statements behind a body add names behind those that are there. -/
theorem variableNames_isPrefix_append (body more : Body) :
    body.variableNames <+: (body ++ more).variableNames := by
  rw [variableNames_append]
  exact List.prefix_append _ _

/-- One more statement adds at most the one name that it uses, if that is new. -/
theorem variableNames_push (body : Body) (s : Statement) :
    (body ++ #[s]).variableNames = body.variableNames ∨
      ∃ name, s.uses name = true ∧ ¬ body.Uses name ∧
        (body ++ #[s]).variableNames = body.variableNames ++ [name] := by
  rw [variableNames_append]
  cases hname : s.variableName? with
  | none => exact .inl (by simp [hname, List.removeAll])
  | some name =>
      by_cases hold : body.Uses name
      · left
        have hmem := mem_variableNames_iff.2 hold
        rw [variableNames_eq_eraseDups, List.mem_eraseDups] at hmem
        have hnone : [name].removeAll (body.toList.filterMap Statement.variableName?) = [] := by
          rw [List.removeAll, List.filter_cons_of_neg (by simpa using hmem), List.filter_nil]
        simp [hname, hnone]
      · right
        refine ⟨name, Statement.variableName?_eq_some_iff.1 hname, hold, ?_⟩
        have hnot := mt mem_variableNames_iff.1 hold
        rw [variableNames_eq_eraseDups, List.mem_eraseDups] at hnot
        have hone : [name].removeAll (body.toList.filterMap Statement.variableName?) = [name] := by
          rw [List.removeAll, List.filter_cons_of_pos (by simpa using hnot), List.filter_nil]
        simp [hname, hone, List.eraseDups_cons]

/-- A body lists its variables by ascending first use. -/
theorem pairwise_firstUse (body : Body) :
    body.variableNames.Pairwise fun a b => body.firstUse a < body.firstUse b := by
  -- by induction on the number of statements, the last one being split off
  obtain ⟨statements⟩ := body
  induction statements using List.reverseRecOn with
  | nil => exact List.Pairwise.nil
  | append_singleton statements s ih =>
      have hsplit : (⟨statements ++ [s]⟩ : Body) = ⟨statements⟩ ++ #[s] := by simp
      rw [hsplit]
      -- names of the front keep their first uses
      have hfront : (Body.variableNames ⟨statements⟩).Pairwise fun a b =>
          Body.firstUse (⟨statements⟩ ++ #[s]) a < Body.firstUse (⟨statements⟩ ++ #[s]) b := by
        apply List.Pairwise.imp_of_mem ?_ ih
        intro a b ha hb hlt
        rw [firstUse_append (mem_variableNames_iff.1 ha),
          firstUse_append (mem_variableNames_iff.1 hb)]
        exact hlt
      rcases variableNames_push ⟨statements⟩ s with hsame | ⟨name, -, hnew, hadd⟩
      · rw [hsame]
        exact hfront
      · rw [hadd, List.pairwise_append]
        refine ⟨hfront, List.pairwise_singleton _ _, ?_⟩
        intro a ha b hb
        obtain rfl := List.mem_singleton.1 hb
        -- the new name is first used where the front has ended
        have hused := mem_variableNames_iff.1 ha
        rw [firstUse_append hused]
        exact Nat.lt_of_lt_of_le (firstUse_lt_iff.2 hused) (size_le_firstUse_append hnew)

end Body

end StackCodegen
