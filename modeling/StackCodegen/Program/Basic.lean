import StackCodegen.Program.Statement

/-!
# Programs

A program is a list of functions with pairwise different names, kept in the order in which they were
added. The order is what writers and targets follow; look-up is by name alone.

Main statements: `add?` appends exactly when the name is new (`functions_of_add?`,
`add?_eq_error_iff`).
-/

set_option autoImplicit false

namespace StackCodegen

/-- A declaration with its body. -/
structure Function where
  declaration : Declaration
  body : Body
  deriving DecidableEq

namespace Function

/-- The name of a function is that of its declaration. -/
def name (f : Function) : String := f.declaration.name

end Function

/-- Functions in order of addition, no two of one name. -/
structure Program where
  functions : List Function
  names_nodup : (functions.map Function.name).Nodup
  deriving DecidableEq

/-- Refusal to add a second function of one name. -/
structure DuplicateFunction where
  name : String
  deriving DecidableEq

/-- The text of the refusal. -/
def DuplicateFunction.message (e : DuplicateFunction) : String :=
  "Duplicate function declaration: " ++ e.name

namespace Program

/-- The program without functions. -/
def empty : Program := ⟨[], List.nodup_nil⟩

instance : Inhabited Program := ⟨empty⟩

/-- Name of the preferred entry routine. -/
def entryName : String := "main"

/-- The program whose only function is a parameterless entry routine. -/
def ofRoutine (body : Body) : Program :=
  ⟨[⟨⟨entryName, []⟩, body⟩], by simp⟩

/-- Number of functions. -/
def size (p : Program) : Nat := p.functions.length

/-- Names in order of addition. -/
def names (p : Program) : List String := p.functions.map Function.name

/-- The function of a given name. -/
def function? (p : Program) (name : String) : Option Function :=
  p.functions.find? fun f => f.name == name

/-- The entry routine: the function named `entryName`, else the only function there is. -/
def entry? (p : Program) : Option Function :=
  match p.function? entryName with
  | some f => some f
  | none =>
    match p.functions with
    | [f] => some f
    | _ => none

theorem function?_eq_none_iff (p : Program) (name : String) :
    p.function? name = none ↔ name ∉ p.names := by
  simp [function?, names]

/-- The program with `f` after all others, unless its name is taken. -/
def add? (p : Program) (f : Function) : Except DuplicateFunction Program :=
  if h : f.name ∈ p.functions.map Function.name then
    .error ⟨f.name⟩
  else
    .ok ⟨p.functions ++ [f], by
      rw [List.map_append, List.nodup_append]
      refine ⟨p.names_nodup, by simp, ?_⟩
      intro a ha b hb hab
      rw [List.map_cons, List.map_nil, List.mem_singleton] at hb
      exact h (hb ▸ hab ▸ ha)⟩

theorem add?_eq_error_iff {p : Program} {f : Function} {e : DuplicateFunction} :
    p.add? f = .error e ↔ f.name ∈ p.names ∧ e = ⟨f.name⟩ := by
  unfold add? names
  split <;> simp_all [eq_comm]

theorem functions_of_add? {p q : Program} {f : Function} (h : p.add? f = .ok q) :
    q.functions = p.functions ++ [f] := by
  unfold add? at h
  split at h
  · cases h
  · cases h
    rfl

/-- The program of the given functions, in their order; the first name that repeats an earlier one
is reported. -/
def ofFunctions? (functions : List Function) : Except DuplicateFunction Program :=
  functions.foldlM add? empty

end Program

end StackCodegen
