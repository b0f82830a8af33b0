import StackCodegen.Settings.Basic
import StackCodegen.Toml.Document
import StackCodegen.Toml.Quoted.Writer

/-!
# Settings as configuration documents

The written form of settings: a section for native code, one for managed code and one for the log.

A reader takes what is missing from the standard settings and skips what it does not know. A section
may also be the list of its values in the order in which they are written, and a name among fixed
ones may also be the only key of a table, with nothing below it.
-/

set_option autoImplicit false

namespace StackCodegen

namespace Settings

open Toml

/-! ## Writing -/

/-- The lines of the written form. -/
def lines (s : Settings) : List String :=
  ["[native]",
   "platform = " ++ Quoted.write s.platform.settingsName,
   "",
   "[managed]",
   "class_name = " ++ Quoted.write s.className,
   "debug_info = " ++ (if s.debugInfo then "true" else "false"),
   "",
   "[log]",
   "level = " ++ Quoted.write s.level.text]

/-- The written form. -/
def render (s : Settings) : String := .join (s.lines.map (· ++ "\n"))

/-! ## Reading -/

/-- The values of a section for its keys, `none` where one is missing. A date counts as a section
that has other keys only. -/
def sectionValues? (keys : List String) : Value → Option (List (Option Value))
  | .table _ fields => some (keys.map fun key => fields.lookup key)
  | .array items | .tables items => some ((List.range keys.length).map fun i => items[i]?)
  | .dateTime => some (keys.map fun _ => none)
  | _ => none

/-- The values of a section of a document, which may be missing altogether. -/
def valuesAt? (fields : Fields) (name : String) (keys : List String) :
    Option (List (Option Value)) :=
  match fields.lookup name with
  | none => some (keys.map fun _ => none)
  | some v => sectionValues? keys v

/-- A name among fixed ones. -/
def choice? {α : Type} (ofName? : String → Option α) : Value → Option α
  | .string name => ofName? name
  | .table _ [(name, .table _ [])] => ofName? name
  | .table _ [(name, .array [])] => ofName? name
  | _ => none

/-- A text. -/
def text? : Value → Option String
  | .string text => some text
  | _ => none

/-- A truth value. -/
def boolean? : Value → Option Bool
  | .boolean value => some value
  | _ => none

/-- What is read from a value, or the standard one where none is given. -/
def orStandard {α : Type} (read : Value → Option α) (standard : α) : Option Value → Option α
  | none => some standard
  | some v => read v

/-- The settings of the entries of a document. -/
def ofFields? (fields : Fields) : Option Settings :=
  match valuesAt? fields "native" ["platform"],
    valuesAt? fields "managed" ["class_name", "debug_info"], valuesAt? fields "log" ["level"] with
  | some [platform], some [className, debugInfo], some [level] => do
    let platform ← orStandard (choice? Native.Platform.ofSettingsName?) standard.platform platform
    let className ← orStandard text? standard.className className
    let debugInfo ← orStandard boolean? standard.debugInfo debugInfo
    let level ← orStandard (choice? LogLevel.ofName?) standard.level level
    return ⟨platform, className, debugInfo, level⟩
  | _, _, _ => none

/-- The settings that a document holds. -/
def parse? (text : String) : Option Settings := (Toml.parse? text).bind ofFields?

end Settings

end StackCodegen
