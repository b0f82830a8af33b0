import StackCodegen.CommandLine.Arguments

/-!
# Help texts

The help on the program, on a command, and on the request for help. A text opens with what the topic
is for and with the form of its arguments; then come lists in two columns, of which the second one
starts two columns after the longest entry of the first one.
-/

set_option autoImplicit false

namespace StackCodegen.CommandLine

/-- The name of the program. -/
def programName : String := "stackc"

/-- The version of the program. -/
def programVersion : String := "0.3.2"

/-- The name and the version of the program. -/
def programTitle : String := programName ++ " " ++ programVersion

namespace Help

/-- A list with a heading: the entries, each with what it is for. -/
structure Table where
  heading : String
  rows : List (String × String)

/-- The lines of a list. -/
def Table.lines (t : Table) : List String :=
  let width := t.rows.foldl (fun width (entry, _) => max width entry.length) 0
  (t.heading ++ ":") :: t.rows.map fun (entry, purpose) =>
    "  " ++ entry ++ "".pushn ' ' (width - entry.length) ++ "  " ++ purpose

/-! ## Entries -/

/-- What a command is for. -/
def commandPurpose : CommandName → String
  | .managed => "Compile the entry routine into a class file"
  | .native => "Compile every function into x86 assembly"
  | .run => "Run the IR on the reference interpreter, one integer per stdin line"
  | .version => "Print version information"

/-- What the request for help is for. -/
def helpPurpose : String := "Print this message or the help of the given subcommand(s)"

/-- The name of the value of an option. -/
def valueName? : OptionName → Option String
  | .settings => some "FILE"
  | .output => some "OUT"
  | .className => some "CLASS_NAME"
  | .platform => some "PLATFORM"
  | .help | .version | .verbose | .noDebugInfo => none

/-- What an option is for, at a place before the command (`none`) or after it. -/
def optionPurpose (place : Option CommandName) : OptionName → String
  | .help => "Print help"
  | .version => "Print version"
  | .verbose => "Enable verbose output"
  | .settings => "Configuration file (defaults to ./stackc.toml, then the user config)"
  | .output =>
    if place = some .managed then "Output path (defaults to <class name>.class next to the input)"
    else "Output path; `-` prints to stdout (defaults to <input>.s)"
  | .className => "Internal name of the generated class"
  | .noDebugInfo => "Omit the LocalVariableTable"
  | .platform => "Symbol convention: UNIX or WIN"

/-- The forms of an option. Long names stand below each other. -/
def optionEntry (name : OptionName) : String :=
  let short := match name.short? with
    | some c => .ofList ['-', c, ',', ' ']
    | none => "    "
  let value := match valueName? name with
    | some value => " <" ++ value ++ ">"
    | none => ""
  short ++ "--" ++ name.long ++ value

/-! ## Lists -/

/-- The options at a place. -/
def options (place : Option CommandName) : Table where
  heading := "Options"
  rows := (OptionName.available place).map fun name => (optionEntry name, optionPurpose place name)

/-- The operands of a command. -/
def operands (name : CommandName) : List Table :=
  if name.hasOperand then [⟨"Arguments", [("<FILE>", "IR file (JSON)")]⟩] else []

/-- The commands, and the request for help. -/
def commands : Table where
  heading := "Commands"
  rows := CommandName.all.map (fun name => (name.text, commandPurpose name)) ++
    [("help", helpPurpose)]

/-! ## Topics -/

/-- What a topic is for. -/
def purpose : HelpTopic → String
  | .program => programName
  | .command name => commandPurpose name
  | .help => helpPurpose

/-- The form of the arguments of a topic. -/
def form : HelpTopic → String
  | .program => programName ++ " [OPTIONS] <COMMAND>"
  | .command name =>
    programName ++ " " ++ name.text ++ " [OPTIONS]" ++ (if name.hasOperand then " <FILE>" else "")
  | .help => programName ++ " help [COMMAND]..."

/-- The lists of a topic. -/
def tables : HelpTopic → List Table
  | .program => [commands, options none]
  | .command name => operands name ++ [options (some name)]
  | .help => [⟨"Arguments", [("[COMMAND]...", "Print help for the subcommand(s)")]⟩]

/-- The help on a topic. -/
def text (topic : HelpTopic) : String :=
  let blocks := [[purpose topic], ["Usage: " ++ form topic]] ++ (tables topic).map Table.lines
  "\n\n".intercalate (blocks.map ("\n".intercalate ·)) ++ "\n"

/-- The hint where arguments are at fault. -/
def hint : String :=
  "Usage: " ++ form .program ++ "\n\nFor more information, try '--help'.\n"

end Help

end StackCodegen.CommandLine
