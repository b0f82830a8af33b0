import StackCodegen.Program.Basic
import StackCodegen.Proofs.Except
import Mathlib.Data.List.Nodup

/-!
# Programs as stores of functions

A program grows by additions, one after the other. An addition in place leaves the program as it is
where the name is taken; an addition that hands the program on loses it there. `Stores` says what a
program holds and answers in terms of the functions that were added.

Main statements: a program stores what was in it at the start and what was added since, in this
order (`additions_stored`); a list of functions makes a program exactly if no name repeats an
earlier one, and otherwise the first name that does is reported (`exists_ofFunctions?_iff`,
`foldlM_add?_eq_error_iff`).
-/

set_option autoImplicit false

namespace StackCodegen.Program

/-! ## Look-ups and additions -/

theorem eq_of_functions_eq {p q : Program} (h : p.functions = q.functions) : p = q := by
  cases p
  cases q
  cases h
  rfl

theorem function?_eq_some_iff (p : Program) (name : String) (f : Function) :
    p.function? name = some f ↔ f ∈ p.functions ∧ f.name = name := by
  constructor
  · intro h
    exact ⟨List.mem_of_find?_eq_some h, by simpa using List.find?_some h⟩
  · rintro ⟨hmem, rfl⟩
    cases hfound : p.function? f.name with
    | none =>
        rw [function?_eq_none_iff] at hfound
        exact absurd (List.mem_map_of_mem hmem) hfound
    | some g =>
        have hname : g.name = f.name := by simpa using List.find?_some hfound
        rw [List.inj_on_of_nodup_map p.names_nodup (List.mem_of_find?_eq_some hfound) hmem hname]

/-- A function whose name is new is added. -/
theorem exists_add? {p : Program} {f : Function} (h : f.name ∉ p.names) :
    ∃ q, p.add? f = .ok q ∧ q.functions = p.functions ++ [f] := by
  cases hadd : p.add? f with
  | error refusal => exact absurd (add?_eq_error_iff.1 hadd).1 h
  | ok q => exact ⟨q, rfl, functions_of_add? hadd⟩

/-- The entry routine is the function of that name; a program without one has its only function as
the entry routine. -/
theorem entry?_eq_some_iff (p : Program) (f : Function) :
    p.entry? = some f ↔ f ∈ p.functions ∧ f.name = entryName ∨
      entryName ∉ p.names ∧ p.functions = [f] := by
  rw [← function?_eq_some_iff, ← function?_eq_none_iff, entry?]
  cases p.function? entryName with
  | some g => simp
  | none =>
      match p.functions with
      | [] | [_] | _ :: _ :: _ => simp

/-- Insertion into a table whose keys are whole declarations: an equal key keeps its place, and a
new one comes last. -/
def insertKeyed (f : Function) : List Function → List Function
  | [] => [f]
  | g :: functions =>
    if g.declaration = f.declaration then f :: functions else g :: insertKeyed f functions

/-- A table of declarations has no place for a function whose name is new. -/
theorem insertKeyed_of_new {f : Function} {functions : List Function}
    (h : f.name ∉ functions.map Function.name) : insertKeyed f functions = functions ++ [f] := by
  induction functions with
  | nil => rfl
  | cons g functions ih =>
      rw [List.map_cons, List.mem_cons, not_or] at h
      have hne : g.declaration ≠ f.declaration :=
        fun heq => h.1 (congrArg Declaration.name heq.symm)
      rw [insertKeyed, if_neg hne, ih h.2, List.cons_append]

/-! ## Rows of additions -/

/-- The program behind an addition in place, and the refusal if there is one. -/
def addInPlace (p : Program) (f : Function) : Program × Option DuplicateFunction :=
  match p.add? f with
  | .ok q => (q, none)
  | .error refusal => (p, some refusal)

/-- A call that adds a function: in place, or handing on the program with it. -/
inductive Addition where
  | inPlace (f : Function)
  | handingOn (f : Function)

/-- The program behind a call, with the function if it was added. A program that is handed on is
lost with a refusal. -/
def Addition.perform (p : Program) : Addition → Option (Program × List Function)
  | inPlace f =>
    match p.addInPlace f with
    | (q, none) => some (q, [f])
    | (q, some _) => some (q, [])
  | handingOn f =>
    match p.add? f with
    | .ok q => some (q, [f])
    | .error _ => none

/-- The program behind a row of calls, with the functions that were added in their order. -/
def additions : List Addition → Program → Option (Program × List Function)
  | [], p => some (p, [])
  | call :: calls, p => do
    let (q, new) ← call.perform p
    let (r, added) ← additions calls q
    return (r, new ++ added)

/-- A program that is added to in place is never lost. -/
theorem exists_additions (functions : List Function) (p : Program) :
    ∃ q added, additions (functions.map .inPlace) p = some (q, added) := by
  induction functions generalizing p with
  | nil => exact ⟨p, [], rfl⟩
  | cons f functions ih =>
      obtain ⟨q, new, hcall⟩ : ∃ q new, (Addition.inPlace f).perform p = some (q, new) := by
        cases hadd : p.add? f <;> simp [Addition.perform, addInPlace, hadd]
      obtain ⟨r, added, hcalls⟩ := ih q
      exact ⟨r, new ++ added, by simp [additions, hcall, hcalls]⟩

/-- A call puts what it adds behind what was there. -/
theorem functions_of_perform {call : Addition} {p q : Program} {new : List Function}
    (h : call.perform p = some (q, new)) : q.functions = p.functions ++ new := by
  cases call with
  | inPlace f =>
      cases hadd : p.add? f with
      | ok r =>
          simp only [Addition.perform, addInPlace, hadd] at h
          cases h
          exact functions_of_add? hadd
      | error refusal =>
          simp only [Addition.perform, addInPlace, hadd] at h
          cases h
          exact (List.append_nil _).symm
  | handingOn f =>
      cases hadd : p.add? f with
      | ok r =>
          simp only [Addition.perform, hadd] at h
          cases h
          exact functions_of_add? hadd
      | error refusal =>
          simp only [Addition.perform, hadd] at h
          cases h

/-- A row of calls puts what it adds behind what was there. -/
theorem functions_of_additions {calls : List Addition} {p q : Program} {added : List Function}
    (h : additions calls p = some (q, added)) : q.functions = p.functions ++ added := by
  induction calls generalizing p added with
  | nil =>
      cases h
      exact (List.append_nil _).symm
  | cons call calls ih =>
      simp only [additions, Option.bind_eq_bind, Option.bind_eq_some_iff] at h
      obtain ⟨⟨r, new⟩, hcall, ⟨q', later⟩, hcalls, hresult⟩ := h
      cases hresult
      rw [ih hcalls, functions_of_perform hcall, List.append_assoc]

/-- What a program holds and what it answers, where it stores the given functions. -/
structure Stores (p : Program) (functions : List Function) : Prop where
  names_nodup : (functions.map Function.name).Nodup
  functions_eq : p.functions = functions
  function?_eq_some_iff : ∀ name f, p.function? name = some f ↔ f ∈ functions ∧ f.name = name
  function?_eq_none_iff : ∀ name, p.function? name = none ↔ name ∉ functions.map Function.name
  add?_taken : ∀ f, f.name ∈ functions.map Function.name → p.add? f = .error ⟨f.name⟩
  addInPlace_taken : ∀ f, f.name ∈ functions.map Function.name →
    p.addInPlace f = (p, some ⟨f.name⟩)
  add?_new : ∀ f, f.name ∉ functions.map Function.name →
    ∃ q, p.add? f = .ok q ∧ q.functions = insertKeyed f functions
  entry?_eq_some_iff : ∀ f, p.entry? = some f ↔ f ∈ functions ∧ f.name = entryName ∨
    entryName ∉ functions.map Function.name ∧ functions = [f]

theorem stores_functions (p : Program) : p.Stores p.functions where
  names_nodup := p.names_nodup
  functions_eq := rfl
  function?_eq_some_iff := p.function?_eq_some_iff
  function?_eq_none_iff := p.function?_eq_none_iff
  add?_taken f htaken := add?_eq_error_iff.2 ⟨htaken, rfl⟩
  addInPlace_taken f htaken := by rw [addInPlace, add?_eq_error_iff.2 ⟨htaken, rfl⟩]
  add?_new f hnew := by
    rw [insertKeyed_of_new hnew]
    exact exists_add? hnew
  entry?_eq_some_iff := p.entry?_eq_some_iff

/-! ## Programs of lists -/

theorem name_notMem_of_nodup {p : Program} {f : Function} {functions : List Function}
    (h : ((p.functions ++ f :: functions).map Function.name).Nodup) : f.name ∉ p.names := by
  rw [List.map_append, List.nodup_append] at h
  exact fun htaken => h.2.2 f.name htaken f.name List.mem_cons_self rfl

theorem foldlM_add?_eq_ok_iff {functions : List Function} {p q : Program} :
    functions.foldlM add? p = .ok q ↔
      ((p.functions ++ functions).map Function.name).Nodup ∧
        q.functions = p.functions ++ functions := by
  induction functions generalizing p with
  | nil =>
      rw [List.foldlM_nil, List.append_nil]
      constructor
      · intro h
        rw [Except.ok.inj h]
        exact ⟨q.names_nodup, rfl⟩
      · rintro ⟨-, hfunctions⟩
        rw [eq_of_functions_eq hfunctions]
        rfl
  | cons f functions ih =>
      rw [List.foldlM_cons, bind_eq_ok]
      constructor
      · rintro ⟨r, hadd, hrest⟩
        rw [ih, functions_of_add? hadd, List.append_assoc] at hrest
        exact hrest
      · intro h
        obtain ⟨r, hadd, hfunctions⟩ := exists_add? (name_notMem_of_nodup h.1)
        refine ⟨r, hadd, ?_⟩
        rw [ih, hfunctions, List.append_assoc]
        exact h

theorem foldlM_add?_eq_error_iff {functions : List Function} {p : Program}
    {refusal : DuplicateFunction} :
    functions.foldlM add? p = .error refusal ↔
      ∃ front f back, functions = front ++ f :: back ∧
        ((p.functions ++ front).map Function.name).Nodup ∧
        f.name ∈ (p.functions ++ front).map Function.name ∧ refusal = ⟨f.name⟩ := by
  induction functions generalizing p with
  | nil =>
      constructor
      · intro h
        cases h
      · rintro ⟨front, f, back, h, -⟩
        cases front <;> cases h
  | cons f functions ih =>
      rw [List.foldlM_cons, bind_eq_error, add?_eq_error_iff]
      constructor
      · -- either the first name is refused, or one behind it
        rintro (⟨htaken, rfl⟩ | ⟨r, hadd, hrest⟩)
        · refine ⟨[], f, functions, rfl, ?_, ?_, rfl⟩
          · rw [List.append_nil]
            exact p.names_nodup
          · rw [List.append_nil]
            exact htaken
        · obtain ⟨front, g, back, rfl, hnodup, htaken, rfl⟩ := ih.1 hrest
          rw [functions_of_add? hadd, List.append_assoc] at hnodup htaken
          exact ⟨f :: front, g, back, rfl, hnodup, htaken, rfl⟩
      · rintro ⟨front, g, back, hsplit, hnodup, htaken, rfl⟩
        cases front with
        | nil =>
            cases hsplit
            rw [List.append_nil] at htaken
            exact .inl ⟨htaken, rfl⟩
        | cons f' front =>
            cases hsplit
            obtain ⟨r, hadd, hfunctions⟩ := exists_add? (name_notMem_of_nodup hnodup)
            refine .inr ⟨r, hadd, ih.2 ⟨front, g, back, rfl, ?_, ?_, rfl⟩⟩
            · rw [hfunctions, List.append_assoc]
              exact hnodup
            · rw [hfunctions, List.append_assoc]
              exact htaken

/-- A program is made of its functions again. -/
theorem ofFunctions?_functions (p : Program) : ofFunctions? p.functions = .ok p :=
  foldlM_add?_eq_ok_iff.2 ⟨p.names_nodup, rfl⟩

/-- A list makes a program, of its functions in their order, if its names are pairwise different. -/
theorem exists_ofFunctions?_iff (functions : List Function) :
    (∃ p, ofFunctions? functions = .ok p ∧ p.functions = functions) ↔
      (functions.map Function.name).Nodup := by
  constructor
  · rintro ⟨p, h, -⟩
    exact (foldlM_add?_eq_ok_iff.1 h).1
  · intro h
    exact ⟨⟨functions, h⟩, foldlM_add?_eq_ok_iff.2 ⟨h, rfl⟩, rfl⟩

/-- A program stores what it started with and what was added since, in this order and under
pairwise different names, however the additions came about and whichever of them were refused. A
list makes a program exactly if its names are pairwise different; otherwise the first name that
repeats an earlier one is reported. -/
theorem additions_stored :
    (∀ calls start p added, additions calls start = some (p, added) →
      p.Stores (start.functions ++ added)) ∧
    (∀ (functions : List Function) start,
      ∃ p added, additions (functions.map .inPlace) start = some (p, added)) ∧
    ∀ functions : List Function,
      ((∃ p, ofFunctions? functions = .ok p ∧ p.functions = functions) ↔
        (functions.map Function.name).Nodup) ∧
      ∀ refusal, ofFunctions? functions = .error refusal ↔
        ∃ front f back, functions = front ++ f :: back ∧ (front.map Function.name).Nodup ∧
          f.name ∈ front.map Function.name ∧ refusal = ⟨f.name⟩ := by
  refine ⟨fun calls start p added h => ?_, exists_additions, fun functions => ?_⟩
  · rw [← functions_of_additions h]
    exact p.stores_functions
  · exact ⟨exists_ofFunctions?_iff functions, fun refusal => foldlM_add?_eq_error_iff⟩

/-- Additions to the program of a routine: two of new names, and two of names that are taken by
functions of other parameters. -/
def mixedAdditions : List Addition :=
  [.inPlace ⟨⟨"f", ["a"]⟩, #[.load "a", .returnTop]⟩, .inPlace ⟨⟨entryName, ["a"]⟩, #[]⟩,
    .handingOn ⟨⟨"g", []⟩, #[.returnZero]⟩, .inPlace ⟨⟨"f", []⟩, #[.nop]⟩]

theorem mixedAdditions_stored : ∃ p added,
    additions mixedAdditions (.ofRoutine #[.push 7, .returnTop]) = some (p, added) ∧
    added.map Function.name = ["f", "g"] ∧
    p.Stores ((ofRoutine #[.push 7, .returnTop]).functions ++ added) := by
  obtain ⟨⟨p, added⟩, hresult⟩ := Option.isSome_iff_exists.1
    (by decide : (additions mixedAdditions (.ofRoutine #[.push 7, .returnTop])).isSome = true)
  refine ⟨p, added, hresult, ?_, additions_stored.1 _ _ _ _ hresult⟩
  have hnames : (additions mixedAdditions (.ofRoutine #[.push 7, .returnTop])).map
      (fun result => result.2.map Function.name) = some ["f", "g"] := by decide
  rw [hresult] at hnames
  exact Option.some.inj hnames

end StackCodegen.Program
