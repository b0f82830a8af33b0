import StackCodegen.Text.Blank
import StackCodegen.Text.Decimal

/-!
# The input of a run as a text

One integer on each line. Blanks around an integer do not count, lines of blanks are passed over,
and an integer may have either sign. The digits are looked at from the left, and the first one that
is none, or that leads out of the range of 32 bits, refuses the line.
-/

set_option autoImplicit false

namespace StackCodegen.InputText

open StackCodegen.Text

/-- Why a text is not an integer of 32 bits. -/
inductive NumeralError where
  | invalidDigit
  | tooLarge
  | tooSmall
  deriving DecidableEq

/-- The text of the reason. -/
def NumeralError.message : NumeralError → String
  | invalidDigit => "invalid digit found in string"
  | tooLarge => "number too large to fit in target type"
  | tooSmall => "number too small to fit in target type"

/-- The number of digits after `n`, as long as it does not exceed a bound. -/
def boundedFrom (bound : Nat) (excess : NumeralError) : Nat → List Char → Except NumeralError Nat
  | n, [] => .ok n
  | n, c :: cs =>
    if !isDigit c then .error .invalidDigit
    else if bound < 10 * n + digitValue c then .error excess
    else boundedFrom bound excess (10 * n + digitValue c) cs

/-- The integer that a text stands for. A sign alone is no integer. -/
def numeral (cs : List Char) : Except NumeralError Int32 :=
  match cs with
  | '-' :: c :: cs => (fun n => .ofInt (-n)) <$> boundedFrom 2147483648 .tooSmall 0 (c :: cs)
  | '+' :: c :: cs => (fun n => .ofNat n) <$> boundedFrom 2147483647 .tooLarge 0 (c :: cs)
  | cs => (fun n => .ofNat n) <$> boundedFrom 2147483647 .tooLarge 0 cs

/-- A line that is not an integer, its number counted from 1. -/
structure LineError where
  line : Nat
  text : String
  cause : NumeralError
  deriving DecidableEq

/-- The text of the refusal. -/
def LineError.message (e : LineError) : String := s!"line {e.line}: `{e.text}` is not an integer"

/-- Put an element in front of the first of some pieces, or, if it separates pieces, an empty piece
in front of them all. -/
def addBefore {α : Type} [DecidableEq α] (separator a : α) : List (List α) → List (List α)
  | [] => [[a]]
  | piece :: pieces => if a = separator then [] :: piece :: pieces else (a :: piece) :: pieces

/-- The pieces of a list between separators. -/
def pieces {α : Type} [DecidableEq α] (separator : α) (as : List α) : List (List α) :=
  as.foldr (addBefore separator) [[]]

/-- The lines of a text. -/
def lines (cs : List Char) : List (List Char) := pieces '\n' cs

/-- The integer of a line with its number. -/
def ofLine (line : List Char × Nat) : Except LineError Int32 :=
  match numeral line.1 with
  | .ok n => .ok n
  | .error cause => .error ⟨line.2, .ofList line.1, cause⟩

/-- The integers of a text. -/
def parse (text : String) : Except LineError (List Int32) :=
  (((lines text.toList).map trim).zipIdx 1 |>.filter fun line => !line.1.isEmpty).mapM ofLine

/-- The lines of some bytes before the first line that is not a text. -/
def textBefore (bytes : ByteArray) : String :=
  let decoded := (pieces 10 bytes.toList).map fun line => String.fromUTF8? (.mk line.toArray)
  "\n".intercalate ((decoded.takeWhile Option.isSome).map (·.getD ""))

end StackCodegen.InputText
