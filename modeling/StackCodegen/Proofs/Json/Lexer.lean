import StackCodegen.Json.Lexer
import StackCodegen.Proofs.Text.Decimal
import StackCodegen.Proofs.Text.Words

/-!
# Tokens read back

The text of a token is read back as the token, whatever follows it (`next?_text`). Of numbers only
the numerals of integers are considered, and what follows one of them must not go on with it: no
digit, point or mark of an exponent (`Ends`).

A literal is read as pieces, one for each character of the text, and the pieces are joined to the
text again (`exists_pieces`).
-/

set_option autoImplicit false

namespace StackCodegen.Json

open Text (isDigit)

/-! ## String literals -/

/-- A piece stands for a character: the character itself, or its number where that is no
surrogate. -/
def Piece.Spells (piece : Piece) (c : Char) : Prop :=
  piece = .char c ∨ piece = .unit c.toNat ∧ c.toNat < 0xd800

/-- Pieces are joined to the characters that they stand for. -/
theorem joinPieces_cons {piece : Piece} {c : Char} (h : piece.Spells c) (chars : List Char)
    (pieces : List Piece) :
    joinPieces chars (piece :: pieces) = joinPieces (c :: chars) pieces := by
  rcases h with rfl | ⟨rfl, hlow⟩
  · simp only [joinPieces]
  · have hplain : ¬ (0xd800 ≤ c.toNat ∧ c.toNat < 0xe000) := by omega
    have hhigh : ∀ low, ¬ (0xd800 ≤ c.toNat ∧ c.toNat < 0xdc00 ∧ 0xdc00 ≤ low ∧ low < 0xe000) := by
      omega
    -- a number is joined by itself, unless one more number follows it
    match pieces with
    | [] => simp only [joinPieces, if_neg hplain, Char.ofNat_toNat]
    | .char _ :: _ => simp only [joinPieces, if_neg hplain, Char.ofNat_toNat]
    | .unit low :: _ => rw [joinPieces, if_neg (hhigh low), if_neg hplain, Char.ofNat_toNat]

/-- The digits of an escaped control character stand for its number. -/
theorem hexValues?_control : ∀ n < 0x20,
    Text.hexValues? ['0', '0', Nat.digitChar (n / 16), Nat.digitChar (n % 16)] = some n := by
  decide

/-- A character is escaped by a letter, by its number, or not at all. -/
theorem escape_cases (c : Char) :
    (∃ letter, unescape? letter = some c ∧ escape c = ['\x5c', letter]) ∨
      c.toNat < 0x20 ∧ escape c =
        ['\x5c', 'u', '0', '0', Nat.digitChar (c.toNat / 16), Nat.digitChar (c.toNat % 16)] ∨
      c ≠ '\x22' ∧ c ≠ '\x5c' ∧ 0x20 ≤ c.toNat ∧ escape c = [c] := by
  by_cases hletter : c ∈ ['\x22', '\x5c', '\x08', '\x0c', '\n', '\x0d', '\t']
  · left
    simp only [List.mem_cons, List.not_mem_nil, or_false] at hletter
    obtain rfl | rfl | rfl | rfl | rfl | rfl | rfl := hletter <;> exact ⟨_, by decide, rfl⟩
  · right
    simp only [List.mem_cons, List.not_mem_nil, or_false, not_or] at hletter
    obtain ⟨hquote, hbackslash, hb, hf, hn, hr, ht⟩ := hletter
    simp only [escape, if_neg hquote, if_neg hbackslash, if_neg hb, if_neg hf, if_neg hn,
      if_neg hr, if_neg ht]
    by_cases hcontrol : c.toNat < 0x20
    · exact .inl ⟨hcontrol, if_pos hcontrol⟩
    · exact .inr ⟨hquote, hbackslash, Nat.le_of_not_lt hcontrol, if_neg hcontrol⟩

/-- An escaped character is read as a piece that stands for it. -/
theorem exists_piece (c : Char) : ∃ piece : Piece, piece.Spells c ∧ ∀ pieces rest,
    scanPieces pieces (escape c ++ rest) = scanPieces (piece :: pieces) rest := by
  obtain ⟨letter, hletter, heq⟩ | ⟨hcontrol, heq⟩ | ⟨hquote, hbackslash, hplain, heq⟩ :=
    escape_cases c
  · refine ⟨.char c, .inl rfl, fun pieces rest => ?_⟩
    rw [heq, List.cons_append, List.singleton_append, scanPieces, hletter]
    -- a `u` is the mark of a number
    rintro _ _ _ _ _ rfl
    cases hletter
  · refine ⟨.unit c.toNat, .inr ⟨rfl, by omega⟩, fun pieces rest => ?_⟩
    simp only [heq, List.cons_append, List.nil_append, scanPieces,
      hexValues?_control c.toNat hcontrol]
  · refine ⟨.char c, .inl rfl, fun pieces rest => ?_⟩
    rw [heq, List.singleton_append, scanPieces, if_neg (by simp [hbackslash, hplain])]
    · exact hquote
    · exact fun _ _ _ _ _ h => absurd h hbackslash
    · exact fun _ _ h => absurd h hbackslash

/-- The characters of a text inside a literal are read as pieces that are joined to the text. -/
theorem exists_pieces (cs : List Char) (read : List Piece) (rest : List Char) :
    ∃ pieces, scanPieces read (cs.flatMap escape ++ '\x22' :: rest)
        = some (read.reverse ++ pieces, rest) ∧
      ∀ chars, joinPieces chars pieces = some (String.ofList (chars.reverse ++ cs)) := by
  induction cs generalizing read with
  | nil => exact ⟨[], by simp [scanPieces], fun chars => by simp [joinPieces]⟩
  | cons c cs ih =>
      obtain ⟨piece, hspells, hscan⟩ := exists_piece c
      obtain ⟨pieces, hpieces, hjoin⟩ := ih (piece :: read)
      refine ⟨piece :: pieces, ?_, fun chars => ?_⟩
      · rw [List.flatMap_cons, List.append_assoc, hscan, hpieces, List.reverse_cons,
          List.append_assoc, List.singleton_append]
      · rw [joinPieces_cons hspells, hjoin, List.reverse_cons, List.append_assoc,
          List.singleton_append]

/-- A literal is read back as the text. -/
theorem next?_literal (text : String) (rest : List Char) :
    next? (literal text ++ rest) = some (.string (some text), rest) := by
  obtain ⟨pieces, hscan, hjoin⟩ := exists_pieces text.toList [] rest
  have htext : next? ('\x22' :: (text.toList.flatMap escape ++ '\x22' :: rest))
      = some (.string (joinPieces [] pieces), rest) := by
    simp only [next?, hscan, List.reverse_nil, List.nil_append, Option.map_some]
  rw [hjoin, List.reverse_nil, List.nil_append, String.ofList_toList] at htext
  rw [literal, List.append_assoc, List.cons_append, List.singleton_append]
  exact htext

/-! ## Numerals -/

/-- Characters that do not go on with a numeral. -/
def Ends (rest : List Char) : Prop :=
  ∀ c ∈ rest.head?, isDigit c = false ∧ c ≠ '.' ∧ c ≠ 'e' ∧ c ≠ 'E'

theorem scanDigits_append {digits rest : List Char} (hne : digits ≠ [])
    (hdigits : ∀ c ∈ digits, isDigit c = true) (hrest : Ends rest) :
    scanDigits (digits ++ rest) = some (digits, rest) := by
  have hstop : ∀ c ∈ rest.head?, isDigit c = false := fun c hc => (hrest c hc).1
  simp only [scanDigits, Text.takeWhile_of_stop hdigits hstop, Text.dropWhile_of_stop hdigits hstop]

/-- The numeral of a number is read to its end: only that of 0 starts with the digit 0. -/
theorem scanWhole_toDigits (n : Nat) {rest : List Char} (hrest : Ends rest) :
    scanWhole (Nat.toDigits 10 n ++ rest) = some (Nat.toDigits 10 n, rest) := by
  by_cases hzero : n = 0
  · subst hzero
    rfl
  · have hscan : scanDigits (Nat.toDigits 10 n ++ rest) = some (Nat.toDigits 10 n, rest) :=
      scanDigits_append Nat.toDigits_ne_nil (fun _ => Text.isDigit_of_mem_toDigits) hrest
    obtain ⟨c, digits, hdigits, -⟩ := Text.exists_toDigits n
    have hc : c ≠ '0' := fun h => hzero (Text.eq_zero_of_toDigits (hdigits.trans (by rw [h])))
    rw [hdigits] at hscan
    rw [hdigits, ← hscan, List.cons_append, scanWhole]
    exact fun _ h => hc (List.cons.inj h).1

theorem scanFraction_of_ends {rest : List Char} (hrest : Ends rest) :
    scanFraction rest = some ([], rest) := by
  unfold scanFraction
  split
  next => exact absurd rfl (hrest '.' rfl).2.1
  next => rfl

theorem scanExponent_of_ends {rest : List Char} (hrest : Ends rest) :
    scanExponent rest = some ([], rest) := by
  unfold scanExponent
  cases rest with
  | nil => rfl
  | cons c rest =>
      obtain ⟨-, -, he, hE⟩ := hrest c rfl
      simp only [he, hE, or_self, if_false]

theorem scanUnsigned_toDigits (n : Nat) {rest : List Char} (hrest : Ends rest) :
    scanUnsigned (Nat.toDigits 10 n ++ rest) = some (Nat.toDigits 10 n, rest) := by
  simp [scanUnsigned, scanWhole_toDigits n hrest, scanFraction_of_ends hrest,
    scanExponent_of_ends hrest]

/-- The numeral of an integer is read to its end. -/
theorem scanNumber_toString (i : Int) {rest : List Char} (hrest : Ends rest) :
    scanNumber ((toString i).toList ++ rest) = some ((toString i).toList, rest) := by
  have hunsigned := scanUnsigned_toDigits i.natAbs hrest
  rw [Text.toList_toString]
  split
  · simp only [List.cons_append, scanNumber, hunsigned, Option.map_some]
  · obtain ⟨c, digits, hdigits, -⟩ := Text.exists_toDigits i.natAbs
    rw [← hunsigned, hdigits, List.cons_append, scanNumber]
    rintro _ h
    have hsign : '-' ∈ Nat.toDigits 10 i.natAbs := by
      rw [hdigits, (List.cons.inj h).1]
      exact List.mem_cons_self
    exact Text.sign_notMem_toDigits _ hsign

/-- A token that starts with a sign or a digit is a number. -/
theorem next?_cons {c : Char} (hc : c = '-' ∨ isDigit c = true) (cs : List Char) :
    next? (c :: cs)
      = (scanNumber (c :: cs)).map fun (text, rest) => (.number (String.ofList text), rest) := by
  rw [next?]
  all_goals
    rintro _ h
    obtain rfl := (List.cons.inj h).1
    revert hc
    decide

/-- The numeral of an integer is read back as a number. -/
theorem next?_toString (i : Int) {rest : List Char} (hrest : Ends rest) :
    next? ((toString i).toList ++ rest) = some (.number (toString i), rest) := by
  have hhead : ∃ c cs, (toString i).toList = c :: cs ∧ (c = '-' ∨ isDigit c = true) := by
    obtain ⟨c, digits, hdigits, hc⟩ := Text.exists_toDigits i.natAbs
    rw [Text.toList_toString]
    split
    · exact ⟨_, _, rfl, .inl rfl⟩
    · exact ⟨c, digits, hdigits, .inr hc⟩
  obtain ⟨c, cs, htext, hc⟩ := hhead
  have hscan := scanNumber_toString i hrest
  rw [htext, List.cons_append] at hscan
  rw [htext, List.cons_append, next?_cons hc, hscan, ← htext]
  simp only [Option.map_some, String.ofList_toList]

/-! ## Tokens -/

/-- A token that can be read back before the given text: its number is the numeral of an integer,
and the text does not go on with it. -/
def Token.Legible (rest : List Char) : Token → Prop
  | .number text => (∃ i : Int, text = toString i) ∧ Ends rest
  | _ => True

/-- The text of a token is read back as the token. -/
theorem next?_text {token : Token} {rest : List Char} (h : token.Legible rest) :
    next? (token.text.toList ++ rest) = some (token, rest) := by
  cases token with
  | number text =>
      obtain ⟨⟨i, rfl⟩, hrest⟩ := h
      exact next?_toString i hrest
  | string text? =>
      cases text? with
      | none => rfl
      | some text =>
          rw [Token.text, String.toList_ofList]
          exact next?_literal text rest
  | bool value => cases value <;> rfl
  | openArray | closeArray | openObject | closeObject | comma | colon | null => rfl

/-- Where a token stands, there is no blank to skip. -/
theorem dropWhile_isBlank {cs rest : List Char} {token : Token}
    (h : next? cs = some (token, rest)) : cs.dropWhile isBlank = cs := by
  cases cs with
  | nil => rfl
  | cons c cs =>
      refine List.dropWhile_cons_of_neg fun hblank => ?_
      have hc : c = ' ' ∨ c = '\t' ∨ c = '\n' ∨ c = '\x0d' := by
        simpa [isBlank, or_assoc] using hblank
      obtain rfl | rfl | rfl | rfl := hc <;> cases h

end StackCodegen.Json
