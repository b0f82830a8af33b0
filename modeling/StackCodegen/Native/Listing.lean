/-!
# Assembly text

Lines of assembly in AT&T form. Directives and labels start in the first column, instructions are
indented by four blanks. A label may carry a comment, which runs to the end of its line.
-/

set_option autoImplicit false

namespace StackCodegen.Native

/-- One line. -/
inductive Line where
  | directive (text : String)
  | label (name : String)
  | commentedLabel (name : String) (comment : String)
  | instruction (mnemonic : String) (operands : List String)
  deriving DecidableEq

/-- The text of a line, without its end. -/
def Line.text : Line → String
  | directive text => text
  | label name => name ++ ":"
  | commentedLabel name comment => name ++ ": # " ++ comment
  | instruction mnemonic [] => "    " ++ mnemonic
  | instruction mnemonic operands => "    " ++ mnemonic ++ " " ++ ", ".intercalate operands

/-- Lines in order. -/
abbrev Listing := List Line

namespace Listing

/-- The text of a listing; every line is ended by a line feed. -/
def text (lines : Listing) : String :=
  lines.foldl (fun acc line => acc ++ line.text ++ "\n") ""

/-- Number of lines. -/
def lineCount (lines : Listing) : Nat := lines.length

end Listing

end StackCodegen.Native
