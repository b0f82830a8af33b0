import StackCodegen.Artifact.DefaultPath
import StackCodegen.Artifact.Report
import StackCodegen.CommandLine.Failure
import StackCodegen.CommandLine.Help
import StackCodegen.Machine.Basic
import StackCodegen.Machine.InputText
import StackCodegen.Program.Document
import StackCodegen.Settings.Store

/-!
# Carrying out a command

A command line is carried out against a host. The settings come first, whatever the command; the
options of the command take precedence over them. What the command writes to the standard output
comes at its end, and only if nothing failed. Log records from the chosen level up are lines of the
error output, and so is a failure.

The exit code is 0 for success and for a request for help, 1 for a failure, and 2 for arguments that
are at fault.
-/

set_option autoImplicit false

namespace StackCodegen.CommandLine

/-- The system that programs are compiled on. -/
def systemName : String := "linux"

/-- What is left of a command line that was carried out. -/
structure Outcome where
  exitCode : Nat
  output : String
  errors : String

/-- A part of a command: it may fail, and notes log records. -/
abbrev Session (m : Type → Type) := ExceptT Failure (StateT (Array LogRecord) m)

namespace Session

variable {m : Type → Type} [Monad m]

/-- Note a log record. -/
def note (r : LogRecord) : Session m Unit := modify (·.push r)

/-- The value of a result, whose error fails with a reason. -/
def orFail {ε α : Type} (context : String) (causes : ε → List String) :
    Except ε α → Session m α
  | .ok a => return a
  | .error e => throw ⟨context, causes e⟩

/-- The program of a file. -/
def loadProgram (host : Host m) (file : String) : Session m Program := do
  let text ← orFail s!"Failed to read IR: {file}" (fun e => [e.message]) (← host.readText file)
  orFail s!"Failed to parse IR: {file}" (fun e => [readErrorText e]) (Program.parse text)
where
  readErrorText : Document.ReadError → String
    | .malformed => "malformed document"
    | .duplicate e => e.message

/-- The output of the program of a file. -/
def compileFile (host : Host m) (file : String) (format : OutputFormat) (settings : Settings)
    (threshold : LogLevel) : Session m Artifact := do
  let program ← loadProgram host file
  if LogLevel.debug.rank ≥ threshold.rank then
    for r in program.report format settings do note r
  let artifact ← orFail s!"Failed to compile {file} to {format.text}" (fun e => [e.message])
    (program.compile format settings)
  note ⟨.info, s!"compiled {file} ({artifact.size} bytes)"⟩
  return artifact

/-- Write an artifact to a file. -/
def writeArtifact (host : Host m) (artifact : Artifact) (path : String) : Session m Unit := do
  orFail s!"Failed to write output: {path}" (fun e => [FileError.message e])
    (← host.write path artifact.bytes)
  note ⟨.debug, s!"wrote {path}"⟩

/-- The integers of the standard input. A line that is not a text counts only if none before it is
at fault. -/
def readInput (host : Host m) : Session m (List Int32) := do
  let bytes ← host.standardInput
  let read (text : String) : Session m (List Int32) :=
    orFail "Failed to read stdin" (fun e => [e.message, e.cause.message]) (InputText.parse text)
  match String.fromUTF8? bytes with
  | some text => read text
  | none =>
    let _ ← read (InputText.textBefore bytes)
    throw ⟨"Failed to read stdin", [FileError.notText.message]⟩

/-- Run the program of a file on the standard input. -/
def runFile (host : Host m) (file : String) (threshold : LogLevel) : Session m String := do
  let input ← readInput host
  let program ← loadProgram host file
  let events := if threshold = .trace then some #[] else none
  let result := Machine.runEntry .standard program { Machine.ofInput input with events := events }
  for event in result.1.events.getD #[] do note ⟨.trace, event.message⟩
  let values ← orFail s!"Failed to run: {file}" (fun e => [Fault.message e]) (outputOf result)
  return String.join (values.map fun v => toString v.toInt ++ "\n")

/-- Carry out a command. The answer is what it writes to the standard output. -/
def perform (host : Host m) (settings : Settings) (threshold : LogLevel) :
    Command → Session m String
  | .managed file output className debugInfo => do
    let settings :=
      { settings with
        className := className.getD settings.className
        debugInfo := settings.debugInfo && debugInfo }
    let artifact ← compileFile host file .classFile settings threshold
    writeArtifact host artifact (output.getD (OutputFormat.classFile.defaultPath settings file))
    return ""
  | .native file output platform => do
    let settings := { settings with platform := platform.getD settings.platform }
    let artifact ← compileFile host file .assembly settings threshold
    match output, artifact with
    | some "-", .assembly text => return text
    | _, _ =>
      writeArtifact host artifact (output.getD (OutputFormat.assembly.defaultPath settings file))
      return ""
  | .run file => runFile host file threshold
  | .version => return programTitle ++ "\n"

end Session

section

variable {m : Type → Type} [Monad m]

/-- Carry out what arguments ask for. -/
def carryOut (host : Host m) (invocation : Invocation) : m Outcome := do
  match ← Settings.load host invocation.settingsFile with
  | .error e => return ⟨1, "", Failure.text ⟨"Failed to load configuration", e.messages⟩⟩
  | .ok settings =>
    let threshold := if invocation.verbose then .debug else settings.level
    let session : Session m String := do
      Session.note ⟨.debug, s!"{programTitle} on {systemName}"⟩
      Session.perform host settings threshold invocation.command
    let (result, records) ← session.run.run #[]
    let log := String.join <|
      (records.toList.filter (LogRecord.isShown threshold)).map (·.line ++ "\n")
    match result with
    | .ok output => return ⟨0, output, log⟩
    | .error failure => return ⟨1, "", log ++ failure.text⟩

/-- Carry out a command line. -/
def respond (host : Host m) (arguments : List String) : m Outcome :=
  match Invocation.ofArguments arguments with
  | .ok invocation => carryOut host invocation
  | .error (.help topic) => return ⟨0, Help.text topic, ""⟩
  | .error .version => return ⟨0, programTitle ++ "\n", ""⟩
  | .error .usage => return ⟨2, "", Help.hint⟩

end

end StackCodegen.CommandLine
