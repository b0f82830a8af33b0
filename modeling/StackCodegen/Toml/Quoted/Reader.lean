import StackCodegen.Text.Decimal
import StackCodegen.Text.Scan

/-!
# Reading quoted texts

Quoted texts of configuration documents. Double quotes interpret escapes and single quotes hold all
characters as they are; either may be tripled, and the text then spans lines. A tripled quote drops
a line end that follows the opening one, and may hold runs of one or two quotes, at its end too.
-/

set_option autoImplicit false

namespace StackCodegen.Toml.Quoted

open StackCodegen.Text

/-- Recogniser for the characters of one line: the tab, the printable ones of ASCII, and all others
outside ASCII. -/
def isLineChar (c : Char) : Bool := c = '\t' || (' ' ≤ c && c ≤ '~') || '\x80' ≤ c

/-- Recogniser for the blanks inside a line. -/
def isSpacing (c : Char) : Bool := c = ' ' || c = '\t'

/-- The end of a line. -/
def lineEnd : Scan Unit := Scan.char '\n' <|> Scan.word ['\r', '\n']

/-- The character of a number, unless the number is that of half a pair. -/
def charOfNat? (n : Nat) : Option Char := if n.isValidChar then some (.ofNat n) else none

/-- A character given by hexadecimal digits. -/
def numbered (digits : Nat) : Scan Char := do
  let run ← Scan.exactly (fun c => (hexValue? c).isSome) digits
  Scan.require ((hexValues? run).bind charOfNat?)

/-- What stands after the backslash of an escape. -/
def escape : Scan Char := do
  match ← Scan.next with
  | 'b' => return '\x08'
  | 't' => return '\t'
  | 'n' => return '\n'
  | 'f' => return '\x0c'
  | 'r' => return '\r'
  | '\x22' => return '\x22'
  | '\x5c' => return '\x5c'
  | 'u' => numbered 4
  | 'U' => numbered 8
  | _ => Scan.refuse

/-- A line end after a backslash, with the blanks and line ends around it. -/
def foldedLine : Scan Unit := do
  let _ ← Scan.takeWhile isSpacing
  lineEnd
  Scan.iterate (fun _ => do
    let _ ← Scan.takeWhile isSpacing
    if ← Scan.succeeds lineEnd then return .inl () else return .inr ()) ()

/-- Recogniser for the characters that stand for themselves between quotes. -/
def isPlain (quote : Char) (escapes : Bool) (c : Char) : Bool :=
  isLineChar c && c != quote && !(escapes && c = '\x5c')

/-- The text up to a closing quote. -/
def singleLine (quote : Char) (escapes : Bool) : Scan String :=
  Scan.iterate (fun seen => do
    let seen := (← Scan.takeWhile (isPlain quote escapes)).reverseAux seen
    let c ← Scan.next
    if c = quote then return .inr (.ofList seen.reverse)
    else if c = '\x5c' then return .inl ((← escape) :: seen)
    else Scan.refuse) []

/-- The text up to a closing triple of quotes. Up to two quotes before it belong to the text. -/
def multiLine (quote : Char) (escapes : Bool) : Scan String := do
  let _ ← Scan.optional lineEnd
  Scan.iterate (fun seen => do
    let seen := (← Scan.takeWhile (isPlain quote escapes)).reverseAux seen
    if ← Scan.succeeds lineEnd then return .inl ('\n' :: seen)
    let c ← Scan.next
    if c = quote then
      let more ← Scan.takeWhile (· == quote)
      if more.length < 2 then return .inl (c :: more.reverseAux seen)
      else if more.length < 5 then return .inr (.ofList ((more.drop 2).reverseAux seen).reverse)
      else Scan.refuse
    else if c = '\x5c' then
      if ← Scan.succeeds foldedLine then return .inl seen
      else return .inl ((← escape) :: seen)
    else Scan.refuse) []

/-- A quoted text of one line. -/
def key : Scan String :=
  (do Scan.char '\x22'; singleLine '\x22' true) <|> (do Scan.char '\''; singleLine '\'' false)

/-- A quoted text of one or several lines. -/
def text : Scan String := do
  if ← Scan.succeeds (Scan.word (List.replicate 3 '\x22')) then multiLine '\x22' true
  else if ← Scan.succeeds (Scan.word (List.replicate 3 '\'')) then multiLine '\'' false
  else key

end StackCodegen.Toml.Quoted
