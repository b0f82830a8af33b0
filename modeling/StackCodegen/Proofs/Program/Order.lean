import StackCodegen.Proofs.Machine.Requests
import StackCodegen.Proofs.Program.Store
import Mathlib.Data.List.Perm.Subperm

/-!
# Order of functions

Two programs are the same if they map the same declarations to the same bodies, in whatever order
these were added. Names are pairwise different, so the functions of the one are a permutation of
those of the other (`same_iff_perm`), and what is looked up by name is the same function. A machine
knows its program by look-ups alone.

Main statements: the same programs have the same entry routine (`entry?_eq_of_perm`) and serve every
request alike (`run_eq_of_perm`).
-/

set_option autoImplicit false

namespace StackCodegen

namespace Program

/-- The body of a declaration; look-up is by the declaration as a whole. -/
def bodyOf? (p : Program) (declaration : Declaration) : Option Body :=
  (p.functions.find? fun f => f.declaration = declaration).map Function.body

/-- Equality of programs as tables from declarations to bodies. -/
def same (p q : Program) : Bool :=
  p.size == q.size && p.functions.all fun f => q.bodyOf? f.declaration == some f.body

/-- The table of a program holds its functions. -/
theorem bodyOf?_eq_some_iff {p : Program} {f : Function} :
    p.bodyOf? f.declaration = some f.body ↔ f ∈ p.functions := by
  constructor
  · intro h
    obtain ⟨g, hg, hbody⟩ := Option.map_eq_some_iff.1 h
    have hdeclaration : g.declaration = f.declaration := by simpa using List.find?_some hg
    have heq : g = f := by
      cases g
      cases f
      cases hdeclaration
      cases hbody
      rfl
    exact heq ▸ List.mem_of_find?_eq_some hg
  · intro hf
    cases hfound : p.functions.find? fun g => g.declaration = f.declaration with
    | none => exact absurd (List.find?_eq_none.1 hfound f hf) (by simp)
    | some g =>
        have hdeclaration : g.declaration = f.declaration := by simpa using List.find?_some hfound
        have hname : g.name = f.name := congrArg Declaration.name hdeclaration
        rw [bodyOf?, hfound,
          List.inj_on_of_nodup_map p.names_nodup (List.mem_of_find?_eq_some hfound) hf hname]
        rfl

theorem functions_nodup (p : Program) : p.functions.Nodup := p.names_nodup.of_map

/-- Programs are the same if and only if their functions differ in order alone. -/
theorem same_iff_perm {p q : Program} : p.same q = true ↔ p.functions.Perm q.functions := by
  rw [same, Bool.and_eq_true, beq_iff_eq, List.all_eq_true]
  simp only [beq_iff_eq, bodyOf?_eq_some_iff]
  constructor
  · rintro ⟨hsize, hmem⟩
    -- without repetition, a part that is as long as the whole is a reordering of it
    exact (List.subperm_of_subset p.functions_nodup hmem).perm_of_length_le (Nat.le_of_eq hsize.symm)
  · intro h
    exact ⟨h.length_eq, fun f hf => h.mem_iff.1 hf⟩

section Perm

variable {p q : Program} (h : p.functions.Perm q.functions)
include h

theorem mem_names_iff_of_perm (name : String) : name ∈ p.names ↔ name ∈ q.names :=
  (h.map Function.name).mem_iff

/-- Of the functions one at most has the name, so the first one is the same in any order. -/
theorem function?_eq_of_perm (name : String) : p.function? name = q.function? name :=
  Option.ext fun f => by rw [function?_eq_some_iff, function?_eq_some_iff, h.mem_iff]

/-- A program with a single function has it in one order only. -/
theorem entry?_eq_of_perm : p.entry? = q.entry? :=
  Option.ext fun f => by
    rw [entry?_eq_some_iff, entry?_eq_some_iff, h.mem_iff, mem_names_iff_of_perm h]
    constructor
    · rintro (hentry | ⟨hnone, honly⟩)
      · exact .inl hentry
      · exact .inr ⟨hnone, List.perm_singleton.1 (honly ▸ h).symm⟩
    · rintro (hentry | ⟨hnone, honly⟩)
      · exact .inl hentry
      · exact .inr ⟨hnone, List.perm_singleton.1 (honly ▸ h)⟩

end Perm

end Program

/-! ## Runs -/

namespace Machine

variable {p q : Program} (h : ∀ name, p.function? name = q.function? name) (limits : Limits)
include h

/-- A call looks its function up by name. -/
theorem call_eq_of_function? (m : Machine) (a : Activation) (callers : List Activation)
    (index : Nat) (callee : Callee) :
    call limits p m a callers index callee = call limits q m a callers index callee := by
  cases callee with
  | intrinsic service => cases service <;> rfl
  | function declaration => simp only [call, h]

/-- A step that is no call does not look at the program. -/
theorem step_eq_of_function? (r : Run) : step limits p r = step limits q r := by
  obtain ⟨m, a, callers⟩ := r
  rw [step, step]
  split
  next => rfl
  next statement _ =>
      split
      next => rfl
      next =>
          cases statement with
          | call callee => exact call_eq_of_function? h ..
          | _ => rfl

/-- Programs that find the same functions by name run alike from any state on. -/
theorem finish_eq_of_function? (r : Run) : finish limits p r = finish limits q r := by
  rw [finish_eq, finish_eq, ← step_eq_of_function? h limits r]
  match hstep : step limits p r with
  | .stopped m outcome => rfl
  | .running r' => exact finish_eq_of_function? r'
termination_by r.measure limits
decreasing_by exact measure_lt_of_step hstep

theorem runFunction_eq_of_function? (function : Function) (m : Machine) :
    runFunction limits p function m = runFunction limits q function m := by
  rw [runFunction, runFunction]
  cases enter limits m function [] 0 [] with
  | stopped m' outcome => rfl
  | running r => exact finish_eq_of_function? h limits r

omit h

/-- Every request is served alike, whatever the order of the functions. -/
theorem run_eq_of_perm (h : p.functions.Perm q.functions) (m : Machine) (request : Request) :
    request.run limits p m = request.run limits q m := by
  have hfunctions := Program.function?_eq_of_perm h
  cases request with
  | routine body => exact runFunction_eq_of_function? hfunctions limits _ m
  | entry =>
      rw [Request.run, Request.run, runEntry, runEntry, Program.entry?_eq_of_perm h]
      cases q.entry? with
      | none => rfl
      | some function => exact runFunction_eq_of_function? hfunctions limits function m

end Machine

end StackCodegen
