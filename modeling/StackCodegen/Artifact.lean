import StackCodegen.Native.Lowering
import StackCodegen.Settings.Basic

/-!
# Artifacts

The two kinds of output, and the compilation of a program to either. Managed code is made of the
entry routine alone, native code of every function.
-/

set_option autoImplicit false

namespace StackCodegen

/-- Which kind of output is asked for. -/
inductive OutputFormat where
  | classFile
  | assembly
  deriving DecidableEq

namespace OutputFormat

/-- The displayed name. -/
def text : OutputFormat → String
  | classFile => "jvm"
  | assembly => "x86"

/-- A text that names no kind of output, in lower case. -/
structure Unknown where
  text : String
  deriving DecidableEq

/-- The text of the refusal. -/
def Unknown.message (e : Unknown) : String := s!"unknown output format `{e.text}`"

/-- The kind of output of a name in any case. -/
def ofText? (text : String) : Except Unknown OutputFormat :=
  match text.toLower with
  | "jvm" | "class" => .ok classFile
  | "x86" | "asm" => .ok assembly
  | other => .error ⟨other⟩

end OutputFormat

/-- Compiled output. -/
inductive Artifact where
  | classFile (bytes : List UInt8)
  | assembly (text : String)
  deriving DecidableEq

namespace Artifact

/-- The kind of an artifact. -/
def format : Artifact → OutputFormat
  | classFile _ => .classFile
  | assembly _ => .assembly

/-- The stored form. -/
def bytes : Artifact → ByteArray
  | classFile bytes => .mk bytes.toArray
  | assembly text => text.toUTF8

/-- Number of bytes of the stored form. -/
def size : Artifact → Nat
  | classFile bytes => bytes.length
  | assembly text => text.utf8ByteSize

end Artifact

/-- The output of a program. -/
def Program.compile (program : Program) (format : OutputFormat) (settings : Settings) :
    Except CodegenError Artifact :=
  match format with
  | .classFile =>
    match program.entry? with
    | none => .error .missingEntry
    | some entry => .classFile <$> Managed.compile settings.managed entry.body
  | .assembly => .assembly <$> Native.compile settings.platform program

end StackCodegen
