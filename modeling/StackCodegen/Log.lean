/-!
# Log records

What a run reports besides its results. A record has a level and a message; a reader asks for the
records from some level up. On a line, the level stands right-aligned in five columns before the
message, whose terminal control characters are spelled out.
-/

set_option autoImplicit false

namespace StackCodegen

/-- Levels of importance, the least one first. -/
inductive LogLevel where
  | trace | debug | info | warn | error
  deriving DecidableEq

namespace LogLevel

/-- The level shown unless another one is asked for. -/
def standard : LogLevel := warn

/-- Position in the order of importance. -/
def rank : LogLevel → Nat
  | trace => 0
  | debug => 1
  | info => 2
  | warn => 3
  | error => 4

/-- The displayed name. -/
def text : LogLevel → String
  | trace => "trace"
  | debug => "debug"
  | info => "info"
  | warn => "warn"
  | error => "error"

/-- The level of a displayed name. -/
def ofName? : String → Option LogLevel
  | "trace" => some trace
  | "debug" => some debug
  | "info" => some info
  | "warn" => some warn
  | "error" => some error
  | _ => none

theorem ofName?_text (level : LogLevel) : ofName? level.text = some level := by
  cases level <;> rfl

/-- A text that names no level, in lower case. -/
structure Unknown where
  text : String
  deriving DecidableEq

/-- The text of the refusal. -/
def Unknown.message (e : Unknown) : String := s!"unknown log level `{e.text}`"

/-- The level of a name in any case; `warning` is another name of `warn`. -/
def ofText? (text : String) : Except Unknown LogLevel :=
  match ofName? text.toLower with
  | some level => .ok level
  | none => if text.toLower = "warning" then .ok warn else .error ⟨text.toLower⟩

/-- The tag of a level on a line. -/
def tag : LogLevel → String
  | trace => "TRACE"
  | debug => "DEBUG"
  | info => " INFO"
  | warn => " WARN"
  | error => "ERROR"

end LogLevel

/-- One report. -/
structure LogRecord where
  level : LogLevel
  message : String
  deriving DecidableEq

namespace LogRecord

/-- Recogniser for records at or above a level. -/
def isShown (threshold : LogLevel) (r : LogRecord) : Bool := threshold.rank ≤ r.level.rank

/-- A character of a message: terminal control characters are spelled out. -/
def spell (c : Char) : List Char :=
  if c = '\x1b' then "\\x1b".toList
  else if c = '\x07' then "\\x07".toList
  else if c = '\x08' then "\\x08".toList
  else if c = '\x0c' then "\\x0c".toList
  else if c = '\x7f' then "\\x7f".toList
  else if 0x80 ≤ c.toNat ∧ c.toNat ≤ 0x9f then
    "\\u\x7b".toList ++ Nat.toDigits 16 c.toNat ++ ['\x7d']
  else [c]

/-- The line of a record, without its end. -/
def line (r : LogRecord) : String :=
  r.level.tag ++ " " ++ String.ofList (r.message.toList.flatMap spell)

end LogRecord

end StackCodegen
