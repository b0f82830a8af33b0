import StackCodegen.Log
import StackCodegen.Managed.Compile
import StackCodegen.Native.Platform

/-!
# Settings

What can be chosen about a compilation, whichever place it is chosen in.
-/

set_option autoImplicit false

namespace StackCodegen

/-- The symbol convention of native code, the name and the variable table of managed code, and the
level of log records that are shown. -/
structure Settings where
  platform : Native.Platform
  className : String
  debugInfo : Bool
  level : LogLevel
  deriving DecidableEq

namespace Settings

/-- The settings that hold where nothing is chosen. -/
def standard : Settings :=
  ⟨.standard, Managed.Options.standard.className, Managed.Options.standard.debugInfo, .standard⟩

/-- The part that concerns managed code. -/
def managed (s : Settings) : Managed.Options := ⟨s.className, s.debugInfo⟩

end Settings

end StackCodegen
