import StackCodegen.CommandLine.Session

/-!
# The program

The command line on the real files, environment and standard streams.
-/

set_option autoImplicit false

namespace StackCodegen

/-- The reason in an error of the system. -/
def FileError.ofSystem : IO.Error → FileError
  | .noFileOrDirectory .. => .missing
  | .alreadyExists _ code details | .otherError code details | .resourceBusy code details
  | .resourceVanished code details | .unsupportedOperation code details
  | .hardwareFault code details | .unsatisfiedConstraints code details
  | .illegalOperation code details | .protocolError code details | .timeExpired code details
  | .interrupted _ code details | .invalidArgument _ code details
  | .permissionDenied _ code details | .resourceExhausted _ code details
  | .inappropriateType _ code details | .noSuchThing _ code details =>
    .other s!"{details} (os error {code})"
  | .unexpectedEof => .other "unexpected end of file"
  | .userError text => .other text

/-- A computation whose error is an answer. -/
def answering {α : Type} (x : IO α) : IO (Except FileError α) := do
  try
    return .ok (← x)
  catch e => return .error (.ofSystem e)

/-- All bytes that a stream still has, after those in front. -/
partial def readAll (stream : IO.FS.Stream) (front : ByteArray) : IO ByteArray := do
  let bytes ← stream.read 65536
  if bytes.isEmpty then return front else readAll stream (front ++ bytes)

/-- The system as a host. -/
def systemHost : Host IO where
  read path := answering (IO.FS.readBinFile path)
  write path bytes := answering (IO.FS.writeBinFile path bytes)
  isPresent path := return (← answering (IO.FS.realPath path)).toBool
  makeFolder path := answering (IO.FS.createDirAll path)
  environment name := IO.getEnv name
  standardInput := do readAll (← IO.getStdin) .empty

end StackCodegen

open StackCodegen in
/-- Carry out the command line. -/
def main (arguments : List String) : IO UInt32 := do
  let outcome ← CommandLine.respond systemHost arguments
  (← IO.getStderr).putStr outcome.errors
  (← IO.getStdout).putStr outcome.output
  return .ofNat outcome.exitCode
