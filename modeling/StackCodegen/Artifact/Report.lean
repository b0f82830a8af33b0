import StackCodegen.Artifact

/-!
# What a compilation reports

The log records of a compilation, all of them for debugging. They follow its stages: a stage that
fails ends the report with the records of the stages before it.
-/

set_option autoImplicit false

namespace StackCodegen

/-- A record for debugging. -/
def LogRecord.debug (message : String) : LogRecord := ⟨.debug, message⟩

/-- The report on a class file. -/
def Managed.report (options : Managed.Options) (body : Body) : List LogRecord :=
  let opening := LogRecord.debug
    s!"jvm: compiling {body.size} statement(s) into class {options.className}"
  match assembleMain options.className body with
  | .error _ => [opening]
  | .ok assembled =>
    [opening, .debug <| s!"jvm: main uses {assembled.main.code.length} byte(s) of code, " ++
      s!"max_stack {assembled.main.maxStack}, max_locals {assembled.maxLocals}"]

/-- The record of the compilation of a function. -/
def Native.functionRecord (platform : Platform) (function : Function) : LogRecord :=
  let frame := Frame.layout function.declaration function.body
  .debug <| s!"x86: {platform.symbol function.name} ({function.body.size} statement(s), " ++
    s!"{frame.localsSize} byte(s) of locals)"

/-- The functions up to the first one that cannot be compiled, that one included. -/
def Native.attempted (platform : Platform) (program : Program) : List Function → List Function
  | [] => []
  | function :: functions =>
    match lowerFunction platform program function with
    | .ok _ => function :: attempted platform program functions
    | .error _ => [function]

/-- The report on an assembly text. -/
def Native.report (platform : Platform) (program : Program) : List LogRecord :=
  let opening := LogRecord.debug
    s!"x86: compiling {program.size} function(s) for {platform.text}"
  let functions := if (symbolClash? platform program).isSome then []
    else attempted platform program program.functions
  let closing := match compileListing platform program with
    | .ok listing => [.debug s!"x86: emitted {Listing.lineCount listing} line(s)"]
    | .error _ => []
  opening :: functions.map (functionRecord platform) ++ closing

/-- The report on the output of a program. -/
def Program.report (program : Program) (format : OutputFormat) (settings : Settings) :
    List LogRecord :=
  .debug s!"compile: {program.size} function(s) to {format.text}" ::
    match format with
    | .classFile =>
      match program.entry? with
      | none => []
      | some entry => Managed.report settings.managed entry.body
    | .assembly => Native.report settings.platform program

end StackCodegen
