import StackCodegen.Text.Decimal
import StackCodegen.Text.Scan

/-!
# Numbers and dates

The notations of numbers, dates and times in configuration documents. Their values are not kept;
what is checked is that they are in range: an integer has 64 bits with a sign, a fraction or a power
of ten must not round to infinity, and a date must be one of the calendar.
-/

set_option autoImplicit false

namespace StackCodegen.Toml.Number

open StackCodegen.Text

/-! ## Numbers -/

/-- Digits in groups, without the single underscores that stand between the groups. -/
def grouped (isDigit : Char → Bool) : Scan (List Char) := do
  let first ← Scan.nextIf isDigit
  Scan.iterate (fun seen => do
    let seen := (← Scan.takeWhile isDigit).reverseAux seen
    if ← Scan.succeeds (Scan.char '_') then return .inl ((← Scan.nextIf isDigit) :: seen)
    else return .inr seen.reverse) [first]

/-- A sign, which may be missing; tells whether it is the minus. -/
def minus : Scan Bool := do
  if ← Scan.succeeds (Scan.char '-') then return true
  let _ ← Scan.optional (Scan.char '+')
  return false

/-- Digits of which the first one is zero only if it is the only one. -/
def whole : Scan (List Char) := do
  let digits ← grouped isDigit
  if digits.head? = some '0' ∧ digits.length > 1 then Scan.refuse else return digits

/-- The least number that is nearer to the power `2 ^ 1024` than to any number with a 53-bit
mantissa below it, or as near. -/
def roundsToInfinity : Nat := Nat.pow 2 1024 - Nat.pow 2 970

/-- Recogniser for the numbers `digits · 10 ^ exponent` that round to infinity. The count of digits
before the point settles it for all but numbers near the bound. -/
def isInfinite (digits : List Char) (exponent : Int) : Bool :=
  let digits := digits.dropWhile (· == '0')
  let places := digits.length + exponent
  if digits.isEmpty || places < 300 then false
  else if places > 320 then true
  else if 0 ≤ exponent then roundsToInfinity ≤ value digits * Nat.pow 10 exponent.toNat
  else roundsToInfinity * Nat.pow 10 (-exponent).toNat ≤ value digits

/-- Recogniser for the integers of 64 bits. -/
def isWord (n : Int) : Bool := -9223372036854775808 ≤ n && n ≤ 9223372036854775807

/-- Digits after a point. -/
def fraction : Scan (Option (List Char)) := do
  if ← Scan.succeeds (Scan.char '.') then some <$> grouped isDigit else return none

/-- A power of ten. -/
def exponent : Scan (Option Int) := do
  if ← Scan.succeeds (Scan.nextIf fun c => c = 'e' || c = 'E') then
    let negative ← minus
    let size := value (← grouped isDigit)
    return some (if negative then -size else size)
  else return none

/-- A number in digits to base ten, or one of the words for infinity and the lack of a number. -/
def decimal : Scan Unit := do
  let negative ← minus
  if ← Scan.succeeds (Scan.word ['i', 'n', 'f'] <|> Scan.word ['n', 'a', 'n']) then return
  let digits ← whole
  match ← fraction, ← exponent with
  | none, none =>
    let size : Int := value digits
    if isWord (if negative then -size else size) then return else Scan.refuse
  | places, power =>
    let places := places.getD []
    if !negative && isInfinite (digits ++ places) (power.getD 0 - places.length) then Scan.refuse
    else return

/-- Digits to another base after the letter that names the base, without a sign. -/
def based (letter : Char) (base : Nat) : Scan Unit := do
  Scan.word ['0', letter]
  let digits ← grouped fun c => (hexValue? c).any (· < base)
  let size := digits.foldl (fun n c => base * n + (hexValue? c).getD 0) 0
  if isWord size then return else Scan.refuse

/-! ## Dates and times -/

/-- Two digits whose value is in a range. -/
def pair (least greatest : Nat) : Scan Nat := do
  let n := value (← Scan.exactly isDigit 2)
  if least ≤ n ∧ n ≤ greatest then return n else Scan.refuse

/-- The number of days of a month. -/
def daysOf (year month : Nat) : Nat :=
  match month with
  | 2 => if year % 4 = 0 ∧ (year % 100 ≠ 0 ∨ year % 400 = 0) then 29 else 28
  | 4 | 6 | 9 | 11 => 30
  | _ => 31

/-- A day of the calendar. -/
def date : Scan Unit := do
  let year := value (← Scan.exactly isDigit 4)
  Scan.char '-'
  let month ← pair 1 12
  Scan.char '-'
  discard (pair 1 (daysOf year month))

/-- Digits of a second after a point. -/
def secondFraction : Scan Unit := do
  Scan.char '.'
  let _ ← Scan.nextIf isDigit
  discard (Scan.takeWhile isDigit)

/-- A time of day; a minute may have a leap second. -/
def time : Scan Unit := do
  let _ ← pair 0 23
  Scan.char ':'
  let _ ← pair 0 59
  Scan.char ':'
  let _ ← pair 0 60
  discard (Scan.optional secondFraction)

/-- The distance of a time from the time of the zero meridian. -/
def offset : Scan Unit := do
  if ← Scan.succeeds (Scan.nextIf fun c => c = 'Z' || c = 'z') then return
  let _ ← Scan.nextIf fun c => c = '+' || c = '-'
  let _ ← pair 0 23
  Scan.char ':'
  discard (pair 0 59)

/-- A time of day after a date. -/
def timeOfDate : Scan Unit := do
  let _ ← Scan.nextIf fun c => c = 'T' || c = 't' || c = ' '
  time
  discard (Scan.optional offset)

/-- A date, a date with a time, or a time. -/
def dateTime : Scan Unit :=
  (do date; discard (Scan.optional timeOfDate)) <|> time

end StackCodegen.Toml.Number
