import StackCodegen.Json.Lexer

/-!
# Reading JSON values

A reader takes one token after the other and keeps the containers that are still open. Its stages
say which tokens may come next, and the value is whole in the stage `done`. What follows a value is
left to the caller, who may ask for blanks only.
-/

set_option autoImplicit false

namespace StackCodegen.Json

/-- A container whose end has not been met: the items of an array so far, or the fields of an object
so far and the key whose value is being read. The latest stand first. -/
inductive Open where
  | array (items : List Json)
  | object (fields : List (Option String × Json)) (key : Option String)

/-- The stages of a reader. `opened` lists the open containers, the innermost first. -/
inductive Reader where
  | value (opened : List Open)
  | firstItem (opened : List Open)
  | afterItem (items : List Json) (opened : List Open)
  | firstKey (opened : List Open)
  | key (fields : List (Option String × Json)) (opened : List Open)
  | colon (fields : List (Option String × Json)) (key : Option String) (opened : List Open)
  | afterField (fields : List (Option String × Json)) (opened : List Open)
  | done (value : Json)

namespace Reader

/-- The stage after a whole value inside the given containers. -/
def supply (v : Json) : List Open → Reader
  | [] => done v
  | .array items :: opened => afterItem (v :: items) opened
  | .object fields k :: opened => afterField ((k, v) :: fields) opened

/-- The stage after the first token of a value. -/
def start (opened : List Open) : Token → Option Reader
  | .null => some (supply .null opened)
  | .bool b => some (supply (.bool b) opened)
  | .number text => some (supply (.number text) opened)
  | .string text? => some (supply (.string text?) opened)
  | .openArray => some (firstItem opened)
  | .openObject => some (firstKey opened)
  | .closeArray | .closeObject | .comma | .colon => none

/-- The stage after one more token. -/
def step : Reader → Token → Option Reader
  | value opened, token => start opened token
  | firstItem opened, .closeArray => some (supply (.array []) opened)
  | firstItem opened, token => start (.array [] :: opened) token
  | afterItem items opened, .comma => some (value (.array items :: opened))
  | afterItem items opened, .closeArray => some (supply (.array items.reverse) opened)
  | afterItem .., _ => none
  | firstKey opened, .closeObject => some (supply (.object []) opened)
  | firstKey opened, .string text? => some (colon [] text? opened)
  | firstKey _, _ => none
  | key fields opened, .string text? => some (colon fields text? opened)
  | key .., _ => none
  | colon fields k opened, .colon => some (value (.object fields k :: opened))
  | colon .., _ => none
  | afterField fields opened, .comma => some (key fields opened)
  | afterField fields opened, .closeObject => some (supply (.object fields.reverse) opened)
  | afterField .., _ => none
  | done _, _ => none

end Reader

/-- The value that a reader comes to on a text, and what follows the value. Blanks may stand before
each token. -/
def Reader.run (reader : Reader) (cs : List Char) : Option (Json × List Char) :=
  match reader with
  | .done v => some (v, cs)
  | reader =>
    match _h : next? (cs.dropWhile isBlank) with
    | none => none
    | some (token, rest) =>
      match reader.step token with
      | none => none
      | some reader => run reader rest
termination_by cs.length
decreasing_by
  exact Nat.lt_of_lt_of_le (length_of_next? ‹_›) (List.dropWhile_sublist isBlank).length_le

/-- The value at the front of a text, and what follows it. -/
def read? (text : String) : Option (Json × List Char) := (Reader.value []).run text.toList

/-- Recogniser for texts without any token. -/
def isBlankText (cs : List Char) : Bool := cs.all isBlank

end StackCodegen.Json
