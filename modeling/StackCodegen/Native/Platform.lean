import StackCodegen.Program.Statement

/-!
# Platforms of the native target

Platforms differ in how a name becomes a linker symbol. Three readings of a platform's name are in
use: the displayed one, the one that arguments are matched with (in any case), and the spellings
that settings files admit.
-/

set_option autoImplicit false

namespace StackCodegen.Native

/-- A symbol convention. -/
inductive Platform where
  | unix
  | win
  deriving DecidableEq

/-- A text that names no platform. -/
structure UnknownPlatform where
  text : String
  deriving DecidableEq

/-- The text of the refusal. -/
def UnknownPlatform.message (e : UnknownPlatform) : String :=
  s!"Unknown target platform `{e.text}` (expected UNIX or WIN)"

namespace Platform

/-- The convention used unless another one is asked for. -/
def standard : Platform := unix

/-- The symbol of a name: as written, or after an underscore. -/
def symbol : Platform → String → String
  | unix, name => name
  | win, name => "_" ++ name

/-- The displayed name. -/
def text : Platform → String
  | unix => "UNIX"
  | win => "WIN"

/-- The platform of an argument, in any case. -/
def ofText? (text : String) : Except UnknownPlatform Platform :=
  if text.toLower = "unix" then
    .ok unix
  else if text.toLower = "win" then
    .ok win
  else
    .error ⟨text⟩

/-- The name written into settings. -/
def settingsName : Platform → String
  | unix => "unix"
  | win => "win"

/-- The platform of a name read from settings. -/
def ofSettingsName? (text : String) : Option Platform :=
  if text ∈ ["unix", "UNIX", "Unix"] then some unix
  else if text ∈ ["win", "WIN", "Win"] then some win
  else none

theorem ofSettingsName?_settingsName (p : Platform) : ofSettingsName? p.settingsName = some p := by
  cases p <;> decide

end Platform

/-- The label of statement `index` of a function. -/
def statementLabel (function : String) (index : Nat) : String :=
  function ++ "_l" ++ toString index

end StackCodegen.Native
