import StackCodegen.Program.Basic
import StackCodegen.Proofs.Program.Variables
import Mathlib.Data.List.Forall2
import Mathlib.Data.Set.Function

/-!
# Renaming of variables

Two programs differ in the names of variables alone if their functions, taken in order, have the
same names, and for each pair there is a renaming: it tells the variables of the function apart, and
it takes parameters to parameters and statements to statements (`Function.RenamedBy`). Functions
need not share a renaming.

A renaming keeps the order in which variables occur first, since it keeps every place at which one
occurs (`Function.RenamedBy.variableNames_eq`).
-/

set_option autoImplicit false

namespace StackCodegen

/-! ## Lists -/

/-- What lies at a place of a list has its partner at the same place of the other. -/
theorem exists_getElem?_of_forall₂ {α β : Type} {R : α → β → Prop} {list : List α} {list' : List β}
    (h : List.Forall₂ R list list') {k : Nat} {a : α} (ha : list[k]? = some a) :
    ∃ b, list'[k]? = some b ∧ R a b := by
  induction h generalizing k with
  | nil => cases ha
  | cons head tail ih =>
      cases k with
      | zero =>
          cases ha
          exact ⟨_, rfl, head⟩
      | succ k => exact ih ha

/-- The last elements of two lists are partners. -/
theorem exists_getLast?_of_forall₂ {α β : Type} {R : α → β → Prop} {list : List α}
    {list' : List β} (h : List.Forall₂ R list list') :
    list.getLast? = none ∧ list'.getLast? = none ∨
      ∃ a b, list.getLast? = some a ∧ list'.getLast? = some b ∧ R a b := by
  rw [List.getLast?_eq_getElem?, List.getLast?_eq_getElem?, ← h.length_eq]
  cases ha : list[list.length - 1]? with
  | none =>
      refine .inl ⟨rfl, ?_⟩
      rw [List.getElem?_eq_none_iff, ← h.length_eq]
      exact List.getElem?_eq_none_iff.1 ha
  | some a =>
      obtain ⟨b, hb, hab⟩ := exists_getElem?_of_forall₂ h ha
      exact .inr ⟨a, b, rfl, hb, hab⟩

/-- The scan for first elements goes the same way over elements whose keys are told apart alike. -/
theorem firstByKey_map {α β : Type} {key : α → String} {key' : β → String} {g : α → β}
    (elements : List α) {seen seen' : Std.TreeSet String} {kept : Array α} {kept' : Array β}
    (hkept : kept'.toList = kept.toList.map g)
    (hseen : ∀ a ∈ elements, seen'.contains (key' (g a)) = seen.contains (key a))
    (hkey : ∀ a ∈ elements, ∀ b ∈ elements, key' (g a) = key' (g b) ↔ key a = key b) :
    firstByKey key' seen' kept' (elements.map g) = (firstByKey key seen kept elements).map g := by
  -- on the elements that are left: the keys seen so far are compared on those alone
  induction elements generalizing seen seen' kept kept' with
  | nil => exact hkept
  | cons a elements ih =>
      obtain ⟨hhead, hrest⟩ := List.forall_mem_cons.1 hseen
      have hkey' : ∀ b ∈ elements, ∀ c ∈ elements, key' (g b) = key' (g c) ↔ key b = key c :=
        fun b hb c hc => hkey b (List.mem_cons_of_mem _ hb) c (List.mem_cons_of_mem _ hc)
      rw [List.map_cons, firstByKey, firstByKey, hhead]
      split
      · exact ih hkept hrest hkey'
      · refine ih ?_ (fun b hb => ?_) hkey'
        · rw [Array.toList_push, Array.toList_push, hkept, List.map_append]
          rfl
        · rw [Std.TreeSet.contains_insert, Std.TreeSet.contains_insert, hrest b hb]
          congr 1
          rw [Bool.eq_iff_iff, beq_iff_eq, beq_iff_eq, Std.compare_eq_iff_eq,
            Std.compare_eq_iff_eq]
          exact hkey a List.mem_cons_self b (List.mem_cons_of_mem _ hb)

theorem distinctBy_map {α β : Type} (key : α → String) (key' : β → String) {g : α → β}
    {elements : List α}
    (hkey : ∀ a ∈ elements, ∀ b ∈ elements, key' (g a) = key' (g b) ↔ key a = key b) :
    distinctBy key' (elements.map g) = (distinctBy key elements).map g :=
  firstByKey_map elements rfl (fun _ _ => by simp) hkey

/-! ## Statements -/

/-- A statement and the same statement with its variable renamed. The parameters of a callee are
renamed with the callee; a call keeps its number of operands. -/
inductive Statement.Renamed (σ : String → String) : Statement → Statement → Prop where
  | load (name : String) : Renamed σ (.load name) (.load (σ name))
  | store (name : String) : Renamed σ (.store name) (.store (σ name))
  | call {d d' : Declaration} (hname : d'.name = d.name) (harity : d'.arity = d.arity) :
      Renamed σ (.call (.function d)) (.call (.function d'))
  | other {s : Statement} (h : s.variableName? = none) : Renamed σ s s

namespace Statement.Renamed

variable {σ : String → String} {s s' : Statement}

theorem variableName?_eq (h : s.Renamed σ s') : s'.variableName? = s.variableName?.map σ := by
  cases h with
  | load name | store name | call hname harity => rfl
  | other h => rw [h, Option.map_none]

theorem jumpTarget?_eq (h : s.Renamed σ s') : s'.jumpTarget? = s.jumpTarget? := by
  cases h <;> rfl

theorem isReturn_eq (h : s.Renamed σ s') : s'.isReturn = s.isReturn := by
  cases h <;> rfl

end Statement.Renamed

/-! ## Functions and programs -/

/-- The variables of a function: its parameters, and what its body names. -/
def Function.variables (f : Function) : List String :=
  f.declaration.parameters ++ f.body.variableNames

/-- A function and the same function with its variables renamed. -/
structure Function.RenamedBy (σ : String → String) (f f' : Function) : Prop where
  name_eq : f'.name = f.name
  parameters_eq : f'.declaration.parameters = f.declaration.parameters.map σ
  body : List.Forall₂ (Statement.Renamed σ) f.body.toList f'.body.toList
  injective : Set.InjOn σ {name | name ∈ f.variables}

/-- A program and the same program with the variables of its functions renamed. -/
def Program.Renamed (program program' : Program) : Prop :=
  List.Forall₂ (fun f f' => ∃ σ, Function.RenamedBy σ f f') program.functions program'.functions

namespace Function.RenamedBy

variable {σ : String → String} {f f' : Function}

theorem size_eq (h : RenamedBy σ f f') : f'.body.size = f.body.size := by
  rw [← Array.length_toList, ← Array.length_toList, h.body.length_eq]

theorem arity_eq (h : RenamedBy σ f f') : f'.declaration.arity = f.declaration.arity := by
  rw [Declaration.arity, Declaration.arity, h.parameters_eq, List.length_map]

/-- A renaming tells the variables of its function apart. -/
theorem inj_iff (h : RenamedBy σ f f') {name name' : String} (hname : name ∈ f.variables)
    (hname' : name' ∈ f.variables) : σ name = σ name' ↔ name = name' :=
  ⟨fun heq => h.injective hname hname' heq, congrArg σ⟩

/-- The names at the places where variables occur are renamed one by one. -/
theorem filterMap_variableName? {body body' : List Statement}
    (h : List.Forall₂ (Statement.Renamed σ) body body') :
    body'.filterMap Statement.variableName? = (body.filterMap Statement.variableName?).map σ := by
  induction h with
  | nil => rfl
  | cons head tail ih =>
      rw [List.filterMap_cons, List.filterMap_cons, head.variableName?_eq, ih]
      split
      next hnone =>
          rw [Option.map_eq_none_iff.1 hnone]
      next name hname =>
          obtain ⟨name', hname', rfl⟩ := Option.map_eq_some_iff.1 hname
          rw [hname', List.map_cons]

/-- The first occurrences of variables keep their order. -/
theorem variableNames_eq (h : RenamedBy σ f f') :
    f'.body.variableNames = f.body.variableNames.map σ := by
  rw [Body.variableNames, filterMap_variableName? h.body, Body.variableNames]
  have hmem : ∀ name ∈ f.body.toList.filterMap Statement.variableName?, name ∈ f.variables := by
    intro name hname
    obtain ⟨s, hs, hname⟩ := List.mem_filterMap.1 hname
    exact List.mem_append_right _ (Body.mem_variableNames hs hname)
  refine distinctBy_map id id fun name hname name' hname' => ?_
  exact h.inj_iff (hmem name hname) (hmem name' hname')

theorem jumpTargets_eq (h : RenamedBy σ f f') : f'.body.jumpTargets = f.body.jumpTargets := by
  have htargets : ∀ {body body' : List Statement} (n : Nat),
      List.Forall₂ (Statement.Renamed σ) body body' →
      ((body'.zipIdx n).filterMap fun entry =>
          entry.1.jumpTarget?.map fun target => (entry.2, target)) =
        (body.zipIdx n).filterMap fun entry =>
          entry.1.jumpTarget?.map fun target => (entry.2, target) := by
    intro body body' n hbody
    induction hbody generalizing n with
    | nil => rfl
    | cons head tail ih =>
        simp only [List.zipIdx_cons, List.filterMap_cons, head.jumpTarget?_eq, ih]
  exact htargets 0 h.body

theorem back?_isReturn_eq (h : RenamedBy σ f f') :
    f'.body.back?.any Statement.isReturn = f.body.back?.any Statement.isReturn := by
  rw [← Array.getLast?_toList, ← Array.getLast?_toList]
  rcases exists_getLast?_of_forall₂ h.body with ⟨hnone, hnone'⟩ | ⟨s, s', hs, hs', hrenamed⟩
  · rw [hnone, hnone']
  · rw [hs, hs', Option.any_some, Option.any_some, hrenamed.isReturn_eq]

end Function.RenamedBy

/-- A look-up finds the function at the same place. -/
theorem Program.Renamed.function? {program program' : Program} (h : program.Renamed program')
    {name : String} {g : Function} (hg : program.function? name = some g) :
    ∃ g' σ, program'.function? name = some g' ∧ Function.RenamedBy σ g g' := by
  unfold Program.Renamed at h
  unfold Program.function? at hg ⊢
  generalize program.functions = functions at h hg
  generalize program'.functions = functions' at h
  induction h with
  | nil => cases hg
  | cons head tail ih =>
      obtain ⟨σ, hσ⟩ := head
      rw [List.find?_cons] at hg ⊢
      rw [hσ.name_eq]
      split at hg
      · cases hg
        exact ⟨_, σ, rfl, hσ⟩
      · exact ih hg

end StackCodegen
