import StackCodegen.Text.Decimal

/-!
# JSON values

Values keep what a reader may ask about: numbers as they are spelled, the fields of an object in
order with repetitions. A string literal may hold escapes that denote no text, namely a surrogate
without its partner; such a literal is a value too, and it is `none` where a text is wanted.

A value is written as the texts of its tokens, without blanks.
-/

set_option autoImplicit false

namespace StackCodegen

/-- A JSON value. -/
inductive Json where
  | null
  | bool (value : Bool)
  | number (text : String)
  | string (text? : Option String)
  | array (items : List Json)
  | object (fields : List (Option String × Json))

namespace Json

/-- The tokens that values are written with. -/
inductive Token where
  | openArray | closeArray | openObject | closeObject | comma | colon
  | null
  | bool (value : Bool)
  | number (text : String)
  | string (text? : Option String)
  deriving DecidableEq

/-! ## Writing -/

/-- A character inside a string literal: quote, backslash and control characters are escaped. -/
def escape (c : Char) : List Char :=
  if c = '\x22' then ['\x5c', '\x22']
  else if c = '\x5c' then ['\x5c', '\x5c']
  else if c = '\x08' then ['\x5c', 'b']
  else if c = '\x0c' then ['\x5c', 'f']
  else if c = '\n' then ['\x5c', 'n']
  else if c = '\x0d' then ['\x5c', 'r']
  else if c = '\t' then ['\x5c', 't']
  else if c.toNat < 0x20 then
    ['\x5c', 'u', '0', '0', Nat.digitChar (c.toNat / 16), Nat.digitChar (c.toNat % 16)]
  else [c]

/-- The characters of a string literal. -/
def literal (text : String) : List Char :=
  '\x22' :: text.toList.flatMap escape ++ ['\x22']

/-- The text of a token. A literal that denotes no text is written as a lone surrogate. -/
def Token.text : Token → String
  | openArray => "["
  | closeArray => "]"
  | openObject => "\x7b"
  | closeObject => "\x7d"
  | comma => ","
  | colon => ":"
  | null => "null"
  | bool true => "true"
  | bool false => "false"
  | number text => text
  | string (some text) => String.ofList (literal text)
  | string none => "\x22\x5cud800\x22"

mutual

/-- Tokens followed by those of a value. -/
def pushTokens (tokens : Array Token) : Json → Array Token
  | .null => tokens.push .null
  | .bool value => tokens.push (.bool value)
  | .number text => tokens.push (.number text)
  | .string text? => tokens.push (.string text?)
  | .array items => (pushItems (tokens.push .openArray) items).push .closeArray
  | .object fields => (pushFields (tokens.push .openObject) fields).push .closeObject

/-- Tokens followed by those of items with commas between them. -/
def pushItems (tokens : Array Token) : List Json → Array Token
  | [] => tokens
  | [item] => pushTokens tokens item
  | item :: items => pushItems ((pushTokens tokens item).push .comma) items

/-- Tokens followed by those of fields with commas between them. -/
def pushFields (tokens : Array Token) : List (Option String × Json) → Array Token
  | [] => tokens
  | [(key, value)] => pushTokens ((tokens.push (.string key)).push .colon) value
  | (key, value) :: fields =>
    pushFields ((pushTokens ((tokens.push (.string key)).push .colon) value).push .comma) fields

end

/-- The tokens of a value. -/
def tokens (value : Json) : List Token := (pushTokens #[] value).toList

/-- The text of a value. -/
def render (value : Json) : String :=
  value.tokens.foldl (fun text token => text ++ token.text) ""

end Json

end StackCodegen
