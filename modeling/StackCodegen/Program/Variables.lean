import StackCodegen.Program.Statement
import Std.Data.TreeSet

/-!
# Variables of a routine

The variables a body names by `load` or `store`, each once, in order of first occurrence. The scan
is structural: statements that no run reaches count too.
-/

set_option autoImplicit false

namespace StackCodegen

/-- The first element of each key, in order. Keys in `seen` are dropped, and `kept` comes first. -/
def firstByKey {α : Type} (key : α → String) (seen : Std.TreeSet String) (kept : Array α) :
    List α → List α
  | [] => kept.toList
  | a :: rest =>
    if seen.contains (key a) then
      firstByKey key seen kept rest
    else
      firstByKey key (seen.insert (key a)) (kept.push a) rest

/-- The first element of each key, in order. -/
def distinctBy {α : Type} (key : α → String) (elements : List α) : List α :=
  firstByKey key ∅ #[] elements

namespace Body

/-- Every variable of a body, in order of first occurrence. -/
def variableNames (body : Body) : List String :=
  distinctBy id (body.toList.filterMap Statement.variableName?)

end Body

end StackCodegen
