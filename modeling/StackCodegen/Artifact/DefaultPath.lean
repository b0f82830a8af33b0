import StackCodegen.Artifact
import StackCodegen.Path

/-!
# Where output goes by default

A class file is named after its class, without the package, and an assembly text after the input;
both stand next to the input.
-/

set_option autoImplicit false

namespace StackCodegen

/-- The name of a class without its package. -/
def simpleName (className : String) : String :=
  ((className.splitOn "/").getLast?).getD className

/-- The path of the output of an input file. -/
def OutputFormat.defaultPath (format : OutputFormat) (settings : Settings) (input : String) :
    String :=
  match format with
  | .classFile => Path.withName (simpleName settings.className ++ ".class") input
  | .assembly => Path.withExtension "s" input

end StackCodegen
