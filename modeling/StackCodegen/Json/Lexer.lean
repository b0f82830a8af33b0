import StackCodegen.Json.Basic

/-!
# JSON tokens of a text

The token at the front of a text (`next?`). Literals follow the grammar to the letter: a number has
no leading zero and no sign but `-`, a string has no raw control character and no escape but those
of the format. A token takes at least one character (`length_of_next?`), so a text is used up by
finitely many of them.
-/

set_option autoImplicit false

namespace StackCodegen.Json

open Text (isDigit hexValues?)

/-! ## String literals -/

/-- A character of a literal, or a UTF-16 unit given by its number. -/
inductive Piece where
  | char (c : Char)
  | unit (u : Nat)
  deriving DecidableEq

/-- The character of a one-letter escape. -/
def unescape? (c : Char) : Option Char :=
  if c = '\x22' ∨ c = '\x5c' ∨ c = '/' then some c
  else if c = 'b' then some '\x08'
  else if c = 'f' then some '\x0c'
  else if c = 'n' then some '\n'
  else if c = 'r' then some '\x0d'
  else if c = 't' then some '\t'
  else none

/-- The pieces up to the closing quote, after `pieces` in reverse; and what follows the quote. -/
def scanPieces (pieces : List Piece) : List Char → Option (List Piece × List Char)
  | [] => none
  | '\x22' :: rest => some (pieces.reverse, rest)
  | '\x5c' :: 'u' :: a :: b :: c :: d :: rest =>
    match hexValues? [a, b, c, d] with
    | some u => scanPieces (.unit u :: pieces) rest
    | none => none
  | '\x5c' :: c :: rest =>
    match unescape? c with
    | some c => scanPieces (.char c :: pieces) rest
    | none => none
  | c :: rest =>
    if c = '\x5c' ∨ c.toNat < 0x20 then none else scanPieces (.char c :: pieces) rest

/-- The text that pieces denote, after `chars` in reverse. A high surrogate must be followed by a
low one, and a low one must follow a high one. -/
def joinPieces (chars : List Char) : List Piece → Option String
  | [] => some (String.ofList chars.reverse)
  | .char c :: rest => joinPieces (c :: chars) rest
  | .unit high :: .unit low :: rest =>
    if 0xd800 ≤ high ∧ high < 0xdc00 ∧ 0xdc00 ≤ low ∧ low < 0xe000 then
      joinPieces (Char.ofNat (0x10000 + (high - 0xd800) * 0x400 + (low - 0xdc00)) :: chars) rest
    else if 0xd800 ≤ high ∧ high < 0xe000 then
      none
    else
      joinPieces (Char.ofNat high :: chars) (.unit low :: rest)
  | .unit u :: rest =>
    if 0xd800 ≤ u ∧ u < 0xe000 then none else joinPieces (Char.ofNat u :: chars) rest

/-! ## Numbers -/

/-- The digits at the start of a text, if there are any, and what follows them. -/
def scanDigits (cs : List Char) : Option (List Char × List Char) :=
  match cs.takeWhile isDigit with
  | [] => none
  | digits => some (digits, cs.dropWhile isDigit)

/-- The digits before the point: a single 0, or no leading 0. -/
def scanWhole (cs : List Char) : Option (List Char × List Char) :=
  match cs with
  | '0' :: rest => some (['0'], rest)
  | _ => scanDigits cs

/-- A point and digits, where there is a point. -/
def scanFraction (cs : List Char) : Option (List Char × List Char) :=
  match cs with
  | '.' :: rest => (scanDigits rest).map fun (digits, rest) => ('.' :: digits, rest)
  | _ => some ([], cs)

/-- An exponent with its mark, where there is a mark. -/
def scanExponent (cs : List Char) : Option (List Char × List Char) :=
  match cs with
  | mark :: rest =>
    if mark = 'e' ∨ mark = 'E' then
      match rest with
      | sign :: digits =>
        if sign = '+' ∨ sign = '-' then
          (scanDigits digits).map fun (digits, rest) => (mark :: sign :: digits, rest)
        else
          (scanDigits rest).map fun (digits, rest) => (mark :: digits, rest)
      | [] => none
    else
      some ([], cs)
  | [] => some ([], cs)

/-- A number without its sign, and what follows it. -/
def scanUnsigned (cs : List Char) : Option (List Char × List Char) := do
  let (whole, cs) ← scanWhole cs
  let (fraction, cs) ← scanFraction cs
  let (exponent, cs) ← scanExponent cs
  return (whole ++ fraction ++ exponent, cs)

/-- A number and what follows it. -/
def scanNumber (cs : List Char) : Option (List Char × List Char) :=
  match cs with
  | '-' :: rest => (scanUnsigned rest).map fun (text, rest) => ('-' :: text, rest)
  | _ => scanUnsigned cs

/-! ## Tokens -/

/-- Recogniser for the characters that may stand between tokens. -/
def isBlank (c : Char) : Bool := c == ' ' || c == '\t' || c == '\n' || c == '\x0d'

/-- The token at the start of a text, and what follows it. -/
def next? : List Char → Option (Token × List Char)
  | '[' :: rest => some (.openArray, rest)
  | ']' :: rest => some (.closeArray, rest)
  | '\x7b' :: rest => some (.openObject, rest)
  | '\x7d' :: rest => some (.closeObject, rest)
  | ',' :: rest => some (.comma, rest)
  | ':' :: rest => some (.colon, rest)
  | '\x22' :: rest =>
    (scanPieces [] rest).map fun (pieces, rest) => (.string (joinPieces [] pieces), rest)
  | 'n' :: 'u' :: 'l' :: 'l' :: rest => some (.null, rest)
  | 't' :: 'r' :: 'u' :: 'e' :: rest => some (.bool true, rest)
  | 'f' :: 'a' :: 'l' :: 's' :: 'e' :: rest => some (.bool false, rest)
  | cs => (scanNumber cs).map fun (text, rest) => (.number (String.ofList text), rest)

theorem length_of_scanPieces {pieces result : List Piece} {cs rest : List Char}
    (h : scanPieces pieces cs = some (result, rest)) : rest.length < cs.length := by
  fun_induction scanPieces pieces cs <;> simp_all <;> omega

theorem length_of_scanDigits {cs digits rest : List Char}
    (h : scanDigits cs = some (digits, rest)) : rest.length < cs.length := by
  unfold scanDigits at h
  split at h
  · cases h
  next hne =>
    cases h
    cases cs with
    | nil => exact absurd rfl hne
    | cons c cs =>
      by_cases hc : isDigit c = true
      · rw [List.dropWhile_cons_of_pos hc]
        exact Nat.lt_succ_of_le (List.dropWhile_sublist _).length_le
      · rw [List.takeWhile_cons_of_neg hc] at hne
        exact absurd rfl hne

theorem length_of_scanWhole {cs digits rest : List Char}
    (h : scanWhole cs = some (digits, rest)) : rest.length < cs.length := by
  unfold scanWhole at h
  split at h
  · cases h
    exact Nat.lt_succ_self _
  · exact length_of_scanDigits h

theorem length_of_scanFraction {cs digits rest : List Char}
    (h : scanFraction cs = some (digits, rest)) : rest.length ≤ cs.length := by
  unfold scanFraction at h
  split at h
  · obtain ⟨⟨ds, r⟩, hd, he⟩ := Option.map_eq_some_iff.1 h
    cases he
    have := length_of_scanDigits hd
    simp only [List.length_cons]
    omega
  · cases h
    exact Nat.le_refl _

theorem length_of_scanExponent {cs digits rest : List Char}
    (h : scanExponent cs = some (digits, rest)) : rest.length ≤ cs.length := by
  unfold scanExponent at h
  repeat' split at h
  all_goals first
    | cases h; done
    | cases h; exact Nat.le_refl _
    | obtain ⟨⟨ds, r⟩, hd, he⟩ := Option.map_eq_some_iff.1 h
      cases he
      have := length_of_scanDigits hd
      simp only [List.length_cons] at *
      omega

theorem length_of_scanUnsigned {cs digits rest : List Char}
    (h : scanUnsigned cs = some (digits, rest)) : rest.length < cs.length := by
  unfold scanUnsigned at h
  cases hw : scanWhole cs with
  | none => simp [hw] at h
  | some w =>
    cases hf : scanFraction w.2 with
    | none => simp [hw, hf] at h
    | some f =>
      cases he : scanExponent f.2 with
      | none => simp [hw, hf, he] at h
      | some e =>
        simp [hw, hf, he] at h
        have h1 := length_of_scanWhole hw
        have h2 := length_of_scanFraction hf
        have h3 := length_of_scanExponent he
        rw [← h.2]
        omega

theorem length_of_scanNumber {cs digits rest : List Char}
    (h : scanNumber cs = some (digits, rest)) : rest.length < cs.length := by
  unfold scanNumber at h
  split at h
  · obtain ⟨⟨ds, r⟩, hd, he⟩ := Option.map_eq_some_iff.1 h
    cases he
    exact Nat.lt_succ_of_lt (length_of_scanUnsigned hd)
  · exact length_of_scanUnsigned h

/-- A token takes at least one character. -/
theorem length_of_next? {cs rest : List Char} {token : Token}
    (h : next? cs = some (token, rest)) : rest.length < cs.length := by
  unfold next? at h
  split at h
  case h_7 =>
    obtain ⟨⟨ps, r⟩, hp, he⟩ := Option.map_eq_some_iff.1 h
    cases he
    exact Nat.lt_succ_of_lt (length_of_scanPieces hp)
  case h_11 =>
    obtain ⟨⟨ds, r⟩, hd, he⟩ := Option.map_eq_some_iff.1 h
    cases he
    exact length_of_scanNumber hd
  all_goals
    cases h
    simp only [List.length_cons]
    omega

end StackCodegen.Json
