/-!
# Failures of a command

A failure tells what could not be done, and the reasons from the nearest to the first one. Reasons
are numbered if there are several, and the lines of a reason stand below each other.
-/

set_option autoImplicit false

namespace StackCodegen.CommandLine

/-- What could not be done, and why. -/
structure Failure where
  context : String
  causes : List String
  deriving DecidableEq

namespace Failure

/-- The lines of a reason, after a mark of its first line; the others are indented alike. -/
def indented (mark : String) (cause : String) : String :=
  let indent := "\n" ++ "".pushn ' ' mark.length
  "\n" ++ mark ++ indent.intercalate (cause.splitOn "\n")

/-- The mark of a numbered reason: its number right-aligned in five columns. -/
def numberMark (n : Nat) : String :=
  let digits := toString n
  "".pushn ' ' (5 - digits.length) ++ digits ++ ": "

/-- The text of the reasons. -/
def causesText : List String → String
  | [] => ""
  | [cause] => "\n\nCaused by:" ++ indented "    " cause
  | causes =>
    "\n\nCaused by:" ++ .join (causes.zipIdx.map fun (cause, n) => indented (numberMark n) cause)

/-- The text of a failure. -/
def text (f : Failure) : String := "Error: " ++ f.context ++ causesText f.causes ++ "\n"

end Failure

end StackCodegen.CommandLine
