import StackCodegen.Toml.Number
import StackCodegen.Toml.Quoted.Reader
import StackCodegen.Toml.Value

/-!
# Configuration documents

The notation of configuration documents (TOML 1.0): lines that are blank, bind a key, or open a
section by a header. The reader keeps the entries read so far and the path of the section that is
open; each line changes the entries by one of the rules of `Fields`. Values are nested at most
`maxDepth` deep, and a key has at most `maxDepth` parts.
-/

set_option autoImplicit false

namespace StackCodegen.Toml

open StackCodegen.Text Quoted

/-- Bound on the nesting of values and on the parts of a key. -/
def maxDepth : Nat := 79

/-- Blanks inside a line. -/
def blanks : Scan Unit := discard (Scan.takeWhile isSpacing)

/-- A comment, up to the end of its line. -/
def comment : Scan Unit := do
  Scan.char '#'
  discard (Scan.takeWhile isLineChar)

/-- Blanks, comments and line ends between the items of a list. -/
def spacing : Scan Unit :=
  Scan.iterate (fun _ => do
    blanks
    if ← Scan.succeeds (do discard (Scan.optional comment); lineEnd) then return .inl ()
    else return .inr ()) ()

/-- What may follow on a line: blanks and a comment, up to its end or that of the document. -/
def restOfLine : Scan Unit := do
  blanks
  let _ ← Scan.optional comment
  lineEnd <|> Scan.done

/-! ## Keys -/

/-- Recogniser for the characters of a key without quotes. -/
def isKeyChar (c : Char) : Bool :=
  isDigit c || ('a' ≤ c && c ≤ 'z') || ('A' ≤ c && c ≤ 'Z') || c = '_' || c = '-'

/-- A part of a key. -/
def part : Scan String := Quoted.key <|> do
  let first ← Scan.nextIf isKeyChar
  return .ofList (first :: (← Scan.takeWhile isKeyChar))

/-- A key: the parts before the last one, and the last one. -/
def dottedKey : Scan (List String × String) := do
  let (path, key) ← Scan.iterate (fun (path : List String) => do
    blanks
    let key ← part
    blanks
    if ← Scan.succeeds (Scan.char '.') then return .inl (key :: path)
    else return .inr (path.reverse, key)) []
  if path.length < maxDepth then return (path, key) else Scan.refuse

/-! ## Values -/

/-- A key with its value, which is bound in a table. -/
def binding (value : Scan Value) (fields : Fields) : Scan Fields := do
  let (path, key) ← dottedKey
  Scan.char '='
  blanks
  let v ← value
  Scan.require (fields.put? path key v)

/-- The items of a list after its opening bracket. -/
def items (value : Scan Value) : Scan (List Value) :=
  Scan.iterate (fun (seen : List Value) => do
    spacing
    if ← Scan.succeeds (Scan.char ']') then return .inr seen.reverse
    let seen := (← value) :: seen
    spacing
    if ← Scan.succeeds (Scan.char ',') then return .inl seen
    Scan.char ']'
    return .inr seen.reverse) []

/-- The entries of a table after its opening brace. -/
def entries (value : Scan Value) : Scan Fields := do
  blanks
  if ← Scan.succeeds (Scan.char '\x7d') then return []
  Scan.iterate (fun fields => do
    let fields ← binding value fields
    blanks
    if ← Scan.succeeds (Scan.char ',') then return .inl fields
    Scan.char '\x7d'
    return .inr fields) []

/-- A value that holds no other ones. -/
def scalar : Scan Value := do
  match ← Scan.peek? with
  | some '\x22' | some '\'' => Value.string <$> Quoted.text
  | some 't' => Scan.word "true".toList *> return .boolean true
  | some 'f' => Scan.word "false".toList *> return .boolean false
  | _ =>
    (Number.dateTime *> return .dateTime) <|>
      ((Number.based 'x' 16 <|> Number.based 'o' 8 <|> Number.based 'b' 2 <|> Number.decimal) *>
        return .number)

/-- A value in which at most `depth` lists and tables are nested. -/
def value : Nat → Scan Value
  | 0 => scalar
  | depth + 1 => do
    match ← Scan.peek? with
    | some '[' =>
      Scan.char '['
      Value.array <$> items (value depth)
    | some '\x7b' =>
      Scan.char '\x7b'
      Value.table .inline <$> entries (value depth)
    | _ => scalar

/-! ## Lines -/

/-- What is read so far: all entries, and the path of the open section. -/
structure Draft where
  root : Fields
  opened : List String

/-- A header and the rest of its line. -/
def header (draft : Draft) : Scan Draft := do
  Scan.char '['
  let isElement ← Scan.succeeds (Scan.char '[')
  let (path, key) ← dottedKey
  Scan.char ']'
  if isElement then Scan.char ']'
  restOfLine
  let root := if isElement then draft.root.openElement? path key
    else draft.root.openTable? path key
  return ⟨← Scan.require root, path ++ [key]⟩

/-- A key with its value in the open section, and the rest of the line. -/
def bindingLine (draft : Draft) : Scan Draft := do
  let (path, key) ← dottedKey
  Scan.char '='
  blanks
  let v ← value maxDepth
  restOfLine
  let root := draft.root.changeAt? (Fields.put? path key v) draft.opened
  return ⟨← Scan.require root, draft.opened⟩

/-- A document, whose first character may be a byte order mark. -/
def document : Scan Fields := do
  let _ ← Scan.optional (Scan.char '\uFEFF')
  Scan.iterate (fun draft => do
    blanks
    match ← Scan.peek? with
    | none => return .inr draft.root
    | some '[' => .inl <$> header draft
    | some '#' | some '\n' | some '\r' =>
      restOfLine
      return .inl draft
    | some _ => .inl <$> bindingLine draft) ⟨[], []⟩

/-- The entries of a document. -/
def parse? (text : String) : Option Fields := Scan.all? document text.toList

end StackCodegen.Toml
