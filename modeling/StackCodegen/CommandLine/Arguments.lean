import StackCodegen.Native.Platform

/-!
# Arguments

The arguments of a command line: options, one of the commands, and the options and the operand of
that command.

An option has a long name after two dashes, and may have a short one, a letter after one dash. The
value of an option is the next argument, or it is attached: to a long name by an equals sign, to a
letter with or without one. Letters without values may share a dash. After two dashes alone, every
argument is an operand.

Arguments are looked at from the left, and the first one that asks for help or that is at fault
decides. A value that is an argument of its own is looked at together with what follows it among the
arguments of the same command, or after all others. An option must not be given twice, except once
before and once after the command, where the later one counts.
-/

set_option autoImplicit false

namespace StackCodegen.CommandLine

/-- The commands. -/
inductive CommandName where
  | managed | native | run | version
  deriving DecidableEq

namespace CommandName

/-- The name on the command line. -/
def text : CommandName → String
  | managed => "jvm"
  | native => "x86"
  | run => "run"
  | version => "version"

/-- All commands. -/
def all : List CommandName := [managed, native, run, version]

/-- The command of a name. -/
def ofText? (text : String) : Option CommandName := all.find? (·.text = text)

/-- Recogniser for the commands that take an operand. -/
def hasOperand : CommandName → Bool
  | version => false
  | _ => true

end CommandName

/-- The options of all commands. -/
inductive OptionName where
  | help | version | verbose | settings | output | className | noDebugInfo | platform
  deriving DecidableEq

namespace OptionName

/-- The name after two dashes. -/
def long : OptionName → String
  | help => "help"
  | version => "version"
  | verbose => "verbose"
  | settings => "config"
  | output => "output"
  | className => "class-name"
  | noDebugInfo => "no-debug-info"
  | platform => "platform"

/-- The letter after one dash. -/
def short? : OptionName → Option Char
  | help => some 'h'
  | version => some 'V'
  | verbose => some 'v'
  | output => some 'o'
  | _ => none

/-- Recogniser for the options with a value. -/
def hasValue : OptionName → Bool
  | settings | output | className | platform => true
  | help | version | verbose | noDebugInfo => false

/-- The options before the command (`none`) or after it. -/
def available : Option CommandName → List OptionName
  | none => [settings, verbose, help, version]
  | some .managed => [output, className, noDebugInfo, settings, verbose, help]
  | some .native => [output, platform, settings, verbose, help]
  | some .run | some .version => [settings, verbose, help]

/-- Recogniser for the values of an option. Files have to be named. -/
def accepts : OptionName → String → Bool
  | settings, text | output, text => !text.isEmpty
  | platform, text => (Native.Platform.ofText? text).toBool
  | _, _ => true

end OptionName

/-- What help is about: the whole program, a command, or the request for help itself. -/
inductive HelpTopic where
  | program
  | command (name : CommandName)
  | help
  deriving DecidableEq

/-- The topic of a request for help at a place, before the command (`none`) or after it. -/
def HelpTopic.ofPlace : Option CommandName → HelpTopic
  | none => program
  | some name => command name

/-- Why arguments are not carried out. -/
inductive Refusal where
  | help (topic : HelpTopic)
  | version
  | usage
  deriving DecidableEq

/-- What is known of the arguments at one place, before the command or after it. -/
structure Given where
  /-- The options so far; those without a value have the empty text. -/
  values : List (OptionName × String)
  operand : Option String
  /-- The option whose value is the next argument. -/
  awaiting : Option OptionName
  /-- An option with a value that is not looked at yet. -/
  unchecked : Option (OptionName × String)

namespace Given

/-- Nothing yet. -/
def start : Given := ⟨[], none, none, none⟩

/-- An option with its value, which is looked at. -/
def record (g : Given) (name : OptionName) (value : String) : Except Refusal Given :=
  if (g.values.lookup name).isSome || !name.accepts value then .error .usage
  else .ok { g with values := (name, value) :: g.values }

/-- No value is left to be looked at. -/
def settle (g : Given) : Except Refusal Given :=
  match g.unchecked with
  | some (name, value) => { g with unchecked := none }.record name value
  | none => .ok g

/-- An option at a place, with a value if one is attached. -/
def meet (place : Option CommandName) (g : Given) (name : OptionName) (attached : Option String) :
    Except Refusal Given := do
  let g ← g.settle
  match name, attached with
  | .help, none => throw (.help (.ofPlace place))
  | .version, none => throw .version
  | name, none => if name.hasValue then return { g with awaiting := name } else g.record name ""
  | name, some value => if name.hasValue then g.record name value else throw .usage

/-- Letters after one dash. -/
def meetLetters (place : Option CommandName) (g : Given) : List Char → Except Refusal Given
  | [] => .ok g
  | c :: cs =>
    match (OptionName.available place).find? (·.short? = some c) with
    | none => .error .usage
    | some name =>
      if name.hasValue then
        match cs with
        | [] => g.meet place name none
        | '=' :: cs => g.meet place name (some (.ofList cs))
        | cs => g.meet place name (some (.ofList cs))
      else do meetLetters place (← g.meet place name none) cs

/-- A name after two dashes, with what is attached to it. -/
def meetLong (place : Option CommandName) (g : Given) (cs : List Char) : Except Refusal Given :=
  let (name, rest) := cs.span (· ≠ '=')
  match (OptionName.available place).find? (·.long = .ofList name) with
  | none => .error .usage
  | some name => g.meet place name (if rest.isEmpty then none else some (.ofList rest.tail))

/-- An operand of a command. -/
def meetOperand (command : CommandName) (g : Given) (operand : String) : Except Refusal Given := do
  let g ← g.settle
  if !command.hasOperand || g.operand.isSome || operand.isEmpty then throw .usage
  return { g with operand := operand }

/-- All options are complete. -/
def close (g : Given) : Except Refusal Given :=
  if g.awaiting.isSome then .error .usage else g.settle

end Given

/-- The kinds of arguments where no value is awaited. -/
inductive Argument where
  | separator
  | long (cs : List Char)
  | letters (cs : List Char)
  | word (text : String)

/-- The kind of an argument. A dash alone is a word. -/
def Argument.ofText (text : String) : Argument :=
  match text.toList with
  | ['-', '-'] => separator
  | '-' :: '-' :: cs => long cs
  | '-' :: c :: cs => letters (c :: cs)
  | _ => word text

/-- A value that is an argument of its own. -/
def Given.meetValue (g : Given) (name : OptionName) (argument : String) : Except Refusal Given :=
  match Argument.ofText argument with
  | .word text => .ok { g with awaiting := none, unchecked := some (name, text) }
  | _ => .error .usage

/-- The arguments after a command. -/
def afterCommand (command : CommandName) : Given → List String → Except Refusal Given
  | g, [] => g.close
  | g, argument :: rest =>
    match g.awaiting, Argument.ofText argument with
    | some name, _ => do afterCommand command (← g.meetValue name argument) rest
    | none, .separator => do (← rest.foldlM (Given.meetOperand command) g).close
    | none, .long cs => do afterCommand command (← g.meetLong (some command) cs) rest
    | none, .letters cs => do afterCommand command (← g.meetLetters (some command) cs) rest
    | none, .word text => do afterCommand command (← g.meetOperand command text) rest

/-- A request for help by names: on a command, on the request itself, or on the program. -/
def helpOn : List String → Refusal
  | [] => .help .program
  | ["help"] => .help .help
  | [name] =>
    match CommandName.ofText? name with
    | some command => .help (.command command)
    | none => .usage
  | _ => .usage

/-- All arguments: what is before the command, the command, and what is after it. -/
def beforeCommand : Given → List String → Except Refusal (Given × CommandName × Given)
  | _, [] => .error .usage
  | g, argument :: rest =>
    match g.awaiting, Argument.ofText argument with
    | some name, _ => do beforeCommand (← g.meetValue name argument) rest
    | none, .separator => .error .usage
    | none, .long cs => do beforeCommand (← g.meetLong none cs) rest
    | none, .letters cs => do beforeCommand (← g.meetLetters none cs) rest
    | none, .word text =>
      if text = "help" then .error (helpOn rest)
      else
        match CommandName.ofText? text with
        | none => .error .usage
        | some command => do
          let after ← afterCommand command .start rest
          return (← g.close, command, after)

/-- A command with the choices that concern it alone. -/
inductive Command where
  | managed (file : String) (output className : Option String) (debugInfo : Bool)
  | native (file : String) (output : Option String) (platform : Option Native.Platform)
  | run (file : String)
  | version
  deriving DecidableEq

/-- What is asked for. -/
structure Invocation where
  command : Command
  settingsFile : Option String
  verbose : Bool
  deriving DecidableEq

/-- The command of what is given after its name. -/
def commandOf (name : CommandName) (g : Given) : Except Refusal Command :=
  match name, g.operand with
  | .version, _ => .ok .version
  | _, none => .error .usage
  | .managed, some file =>
    .ok (.managed file (g.values.lookup .output) (g.values.lookup .className)
      (g.values.lookup .noDebugInfo).isNone)
  | .native, some file =>
    let platform := (g.values.lookup .platform).bind fun text =>
      (Native.Platform.ofText? text).toOption
    .ok (.native file (g.values.lookup .output) platform)
  | .run, some file => .ok (.run file)

/-- What arguments ask for. -/
def Invocation.ofArguments (arguments : List String) : Except Refusal Invocation := do
  let (before, name, after) ← beforeCommand .start arguments
  return {
    command := ← commandOf name after
    settingsFile := after.values.lookup .settings <|> before.values.lookup .settings
    verbose := (after.values.lookup .verbose <|> before.values.lookup .verbose).isSome }

end StackCodegen.CommandLine
