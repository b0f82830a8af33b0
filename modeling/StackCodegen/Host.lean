/-!
# The host of a command

What a command asks of its surroundings: files, the variables of the environment, and the standard
input. The answers are computations in a monad, so that one description of a command serves both the
real files and those of a `FileStore`.
-/

set_option autoImplicit false

namespace StackCodegen

/-- Why a file could not be used. -/
inductive FileError where
  | missing
  | notFolder
  | isFolder
  | nameTooLong
  | zeroInName
  | notText
  | other (text : String)
  deriving DecidableEq

/-- The text of the reason. -/
def FileError.message : FileError → String
  | missing => "No such file or directory (os error 2)"
  | notFolder => "Not a directory (os error 20)"
  | isFolder => "Is a directory (os error 21)"
  | nameTooLong => "File name too long (os error 36)"
  | zeroInName => "file name contained an unexpected NUL byte"
  | notText => "stream did not contain valid UTF-8"
  | other text => text

/-- The surroundings of a command. -/
structure Host (m : Type → Type) where
  /-- The bytes of a file. -/
  read : String → m (Except FileError ByteArray)
  /-- Give a file new bytes, and make it if there is none. -/
  write : String → ByteArray → m (Except FileError Unit)
  /-- Tell whether there is a file or a folder. -/
  isPresent : String → m Bool
  /-- Make a folder and those above it, as far as they are missing. -/
  makeFolder : String → m (Except FileError Unit)
  /-- The value of a variable of the environment. -/
  environment : String → m (Option String)
  /-- All bytes of the standard input. -/
  standardInput : m ByteArray

namespace Host

variable {m : Type → Type} [Monad m]

/-- The text of a file. -/
def readText (host : Host m) (path : String) : m (Except FileError String) := do
  match ← host.read path with
  | .error e => return .error e
  | .ok bytes =>
    match String.fromUTF8? bytes with
    | some text => return .ok text
    | none => return .error .notText

end Host

end StackCodegen
