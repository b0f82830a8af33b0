/-!
# Scanning

Readers of a prefix of a text. A scan takes characters from the front of what is left and answers
with a value, or refuses; a refusal takes nothing, so the alternative of two scans (`<|>`) starts
the second one where the first one started. Repetition (`iterate`) goes on as long as rounds are
asked for; as every round has to take a character, no more rounds than characters are needed.
-/

set_option autoImplicit false

namespace StackCodegen.Text

/-- A reader of a prefix of the characters that are left. -/
abbrev Scan := StateT (List Char) Option

namespace Scan

variable {α σ : Type}

/-- The refusal. -/
def refuse : Scan α := fun _ => none

/-- The value of an option, whose absence refuses. -/
def require (a : Option α) : Scan α := fun cs => a.map (·, cs)

/-- The next character, which is left in place; `none` at the end. -/
def peek? : Scan (Option Char) := fun cs => some (cs.head?, cs)

/-- The next character. -/
def next : Scan Char
  | [] => none
  | c :: cs => some (c, cs)

/-- The next character, which has to satisfy a condition. -/
def nextIf (p : Char → Bool) : Scan Char
  | [] => none
  | c :: cs => if p c then some (c, cs) else none

/-- A given character. -/
def char (c : Char) : Scan Unit := discard (nextIf (· == c))

/-- Given characters, one after the other. -/
def word : List Char → Scan Unit
  | [] => pure ()
  | c :: cs => do
    char c
    word cs

/-- The longest run of characters that satisfy a condition. -/
def takeWhile (p : Char → Bool) : Scan (List Char) := fun cs => some (cs.span p)

/-- A run of a given number of characters that satisfy a condition. -/
def exactly (p : Char → Bool) : Nat → Scan (List Char)
  | 0 => pure []
  | n + 1 => do
    let c ← nextIf p
    return c :: (← exactly p n)

/-- What a scan answers, or `none` where it refuses. -/
def optional (s : Scan α) : Scan (Option α) := fun cs =>
  match s cs with
  | some (a, rest) => some (some a, rest)
  | none => some (none, cs)

/-- Tells whether a scan succeeds, and takes what it takes. -/
def succeeds (s : Scan α) : Scan Bool := Option.isSome <$> optional s

/-- The end of the text. -/
def done : Scan Unit
  | [] => some ((), [])
  | _ :: _ => none

/-- Rounds of a step, at most one more than `bound` is long. -/
def iterateWithin (step : σ → Scan (σ ⊕ α)) (bound : List Char) (s : σ) : Scan α := do
  match ← step s, bound with
  | .inr a, _ => return a
  | .inl s', _ :: bound => iterateWithin step bound s'
  | .inl _, [] => refuse

/-- Rounds of a step from a starting state until one answers. Every round but the last has to take
a character. -/
def iterate (step : σ → Scan (σ ⊕ α)) (s : σ) : Scan α := fun cs => iterateWithin step cs s cs

/-- What a scan answers about a whole text. -/
def all? (s : Scan α) (text : List Char) : Option α := (s <* done).run' text

end Scan

end StackCodegen.Text
