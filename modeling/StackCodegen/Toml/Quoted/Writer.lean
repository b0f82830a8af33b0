import StackCodegen.Text.Decimal

/-!
# Writing quoted texts

Of the four kinds of quotes, the first one that needs no escape is used, in the order double,
single, triple double, triple single; a tab alone does not count as one that needs an escape. A text
that needs escapes in any of them stands between double quotes, tripled if it has several lines.
-/

set_option autoImplicit false

namespace StackCodegen.Toml.Quoted

/-- Kinds of quotes. -/
inductive Style where
  | double
  | single
  | tripleDouble
  | tripleSingle
  deriving DecidableEq

namespace Style

/-- The opening and the closing quotes. -/
def quotes : Style → List Char
  | double => ['\x22']
  | single => ['\'']
  | tripleDouble => List.replicate 3 '\x22'
  | tripleSingle => List.replicate 3 '\''

/-- Recogniser for the kinds that may span lines. -/
def isTriple : Style → Bool
  | double | single => false
  | tripleDouble | tripleSingle => true

/-- Recogniser for the kinds that interpret escapes. -/
def hasEscapes : Style → Bool
  | double | tripleDouble => true
  | single | tripleSingle => false

/-- All kinds, in the order of preference. -/
def all : List Style := [double, single, tripleDouble, tripleSingle]

end Style

/-- Recogniser for the characters that can only be written as escapes. -/
def isControl (c : Char) : Bool := (c < ' ' && c ≠ '\t' && c ≠ '\n') || c = '\x7f'

/-- Tells whether a character stands more than `bound` times in a row after `seen` times of it. -/
def runExceeds (c : Char) (bound : Nat) : Nat → List Char → Bool
  | _, [] => false
  | seen, d :: text =>
    if d = c then decide (bound < seen + 1) || runExceeds c bound (seen + 1) text
    else runExceeds c bound 0 text

/-- Tells whether quotes of a kind can hold a text without escapes. -/
def Style.holds (text : List Char) : Style → Bool
  | double => !text.any isControl && !text.contains '\x5c' && !text.contains '\x22' &&
      !text.contains '\n'
  | single => !text.any isControl && !text.contains '\'' && !text.contains '\n'
  | tripleDouble => !text.any isControl && !text.contains '\x5c' && !runExceeds '\x22' 2 0 text
  | tripleSingle => !text.any isControl && !runExceeds '\'' 2 0 text

/-- The kind of quotes of a text. -/
def styleOf (text : List Char) : Style :=
  match Style.all.find? (·.holds text) with
  | some style => style
  | none => if text.contains '\n' then .tripleDouble else .double

/-- Four hexadecimal digits, letters in upper case. -/
def fourDigits (n : Nat) : List Char :=
  let digits := (Nat.toDigits 16 n).map Char.toUpper
  List.replicate (4 - digits.length) '0' ++ digits

/-- A character other than a quote where escapes are interpreted. -/
def spell (lines : Bool) (c : Char) : List Char :=
  match c with
  | '\x08' => ['\x5c', 'b']
  | '\t' => ['\x5c', 't']
  | '\n' => if lines then ['\n'] else ['\x5c', 'n']
  | '\x0c' => ['\x5c', 'f']
  | '\r' => ['\x5c', 'r']
  | '\x5c' => ['\x5c', '\x5c']
  | c => if c < ' ' || c = '\x7f' then '\x5c' :: 'u' :: fourDigits c.toNat else [c]

/-- A text where escapes are interpreted, after `seen` double quotes in a row. Only as many of them
stand for themselves as cannot be taken for the closing quotes. -/
def spellAll (lines : Bool) : Nat → List Char → List Char
  | _, [] => []
  | seen, c :: text =>
    if c = '\x22' then
      if lines && decide (seen < 2) then c :: spellAll lines (seen + 1) text
      else '\x5c' :: c :: spellAll lines 0 text
    else spell lines c ++ spellAll lines 0 text

/-- The text between quotes of a kind. -/
def writeIn (style : Style) (text : List Char) : List Char :=
  let opening := if style.isTriple && text.contains '\n' then ['\n'] else []
  let inner := if style.hasEscapes then spellAll style.isTriple 0 text else text
  style.quotes ++ opening ++ inner ++ style.quotes

/-- The written form of a text. -/
def write (text : String) : String :=
  .ofList (writeIn (styleOf text.toList) text.toList)

end StackCodegen.Toml.Quoted
