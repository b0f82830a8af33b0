import StackCodegen.Host
import StackCodegen.Path
import StackCodegen.Settings.Document

/-!
# Where settings are kept

Settings are read from one file: the one that is asked for, or else the one of the working
directory, or else the one of the user; where neither of these is present, the standard settings
hold.
-/

set_option autoImplicit false

namespace StackCodegen

/-- Why settings could not be read or written. -/
inductive SettingsError where
  | file (e : FileError)
  | malformed
  deriving DecidableEq

namespace SettingsError

/-- The text of the reason, and those of the reasons behind it. -/
def messages : SettingsError → List String
  | file e => ["IO error: " ++ e.message, e.message]
  | malformed => ["Config parse error: malformed document", "malformed document"]

end SettingsError

namespace Settings

variable {m : Type → Type} [Monad m]

/-- The settings file of a working directory. -/
def localFile : String := "stackc.toml"

/-- The settings file of the user. The folder of settings may be named itself; else it is the usual
one of the home folder, or that of the application data. -/
def userFile? (host : Host m) : m (Option String) := do
  let inFolder (folder : String) : String := Path.join (Path.join folder "stackc") "config.toml"
  if let some folder ← host.environment "XDG_CONFIG_HOME" then return some (inFolder folder)
  if let some home ← host.environment "HOME" then return some (inFolder (Path.join home ".config"))
  return (← host.environment "APPDATA").map inFolder

/-- The settings of a file. -/
def readFrom (host : Host m) (path : String) : m (Except SettingsError Settings) := do
  match ← host.readText path with
  | .error e => return .error (.file e)
  | .ok text =>
    match parse? text with
    | some settings => return .ok settings
    | none => return .error .malformed

/-- The settings that hold, from a given file if there is one. -/
def load (host : Host m) (path : Option String) : m (Except SettingsError Settings) := do
  if let some path := path then return ← readFrom host path
  if ← host.isPresent localFile then return ← readFrom host localFile
  match ← userFile? host with
  | some path => if ← host.isPresent path then readFrom host path else return .ok standard
  | none => return .ok standard

/-- Write settings to a file, whose folder is made if it is missing. -/
def save (host : Host m) (settings : Settings) (path : String) : m (Except SettingsError Unit) := do
  let folder := (Path.parent? path).getD ""
  if !folder.isEmpty && !(← host.isPresent folder) then
    if let .error e ← host.makeFolder folder then return .error (.file e)
  match ← host.write path settings.render.toUTF8 with
  | .ok () => return .ok ()
  | .error e => return .error (.file e)

end Settings

end StackCodegen
