import StackCodegen.Machine.InputText
import StackCodegen.Proofs.Except
import StackCodegen.Proofs.Text.Trimming

/-!
# One text, two ways to read its lines

A run is given the integers of its input text at once: a line ends at a line feed only, blanks
around an integer do not count, and lines of blanks are passed over (`Reads`). A console reader
hands out the lines of the same text one by one: a line also ends at a carriage return, and nothing
is taken away from it but its end (`readerLines`). Such a line has to be an integer as it stands
(`integer?`).

Up to the first line that is empty or has blanks at an end, the lines of the reader are the integers
of the run (`Offers`). A carriage return inside a line of the text leads to such a line at once:
where the text has integers, only blanks are found on one side of it.

Main statement: the lines of a text offer its integers (`offers_of_parse`).
-/

set_option autoImplicit false

namespace StackCodegen.InputText

open StackCodegen.Text

/-! ## Lines of a reader -/

/-- Put a text in front of the first of some lines. -/
def prepend (front : List Char) : List (List Char) → List (List Char)
  | [] => if front = [] then [] else [front]
  | line :: lines => (front ++ line) :: lines

/-- The lines of a text without their ends: a line feed, a carriage return, or both in this order.
What follows the last end is a line if it is not empty. -/
def readerLines : List Char → List (List Char)
  | [] => []
  | '\n' :: cs => [] :: readerLines cs
  | '\r' :: '\n' :: cs => [] :: readerLines cs
  | '\r' :: cs => [] :: readerLines cs
  | c :: cs => prepend [c] (readerLines cs)

/-- The number that a text of digits stands for, unless it exceeds a bound. -/
def unsigned? (bound : Nat) (digits : List Char) : Option Nat :=
  if digits ≠ [] ∧ digits.all isDigit = true ∧ value digits ≤ bound then
    some (value digits)
  else none

/-- The integer of 32 bits that a line is: an optional sign and digits, and nothing else. -/
def integer? : List Char → Option Int32
  | '-' :: digits => (unsigned? 2147483648 digits).map fun n : Nat => .ofInt (-(n : Int))
  | '+' :: digits => (unsigned? 2147483647 digits).map fun n => .ofNat n
  | digits => (unsigned? 2147483647 digits).map fun n => .ofNat n

/-- The integers of some lines up to the first line that is none. -/
def frontIntegers : List (List Char) → List Int32
  | [] => []
  | line :: lines =>
    match integer? line with
    | some value => value :: frontIntegers lines
    | none => []

theorem head?_frontIntegers (lines : List (List Char)) :
    (frontIntegers lines).head? = lines.head?.bind integer? := by
  cases lines with
  | nil => rfl
  | cons line lines =>
      rw [frontIntegers, List.head?_cons, Option.bind_some]
      cases integer? line <;> rfl

/-- A line that is empty or has blanks at an end. -/
def Padded (line : List Char) : Prop := line = [] ∨ trim line ≠ line

instance (line : List Char) : Decidable (Padded line) :=
  inferInstanceAs (Decidable (line = [] ∨ trim line ≠ line))

/-! ## What the lines hold -/

/-- Lines hold these integers if blanks around an integer and lines of blanks do not count. -/
inductive Reads : List (List Char) → List Int32 → Prop where
  | nil : Reads [] []
  | blank {line lines values} (h : trim line = []) (rest : Reads lines values) :
      Reads (line :: lines) values
  | integer {line lines value values} (hne : trim line ≠ []) (h : numeral (trim line) = .ok value)
      (rest : Reads lines values) : Reads (line :: lines) (value :: values)

/-- Lines are these integers, up to the first line that is empty or has blanks at an end. -/
inductive Offers : List (List Char) → List Int32 → Prop where
  | nil : Offers [] []
  | padded {line lines values} (h : Padded line) : Offers (line :: lines) values
  | integer {line lines value values} (h : integer? line = some value)
      (rest : Offers lines values) : Offers (line :: lines) (value :: values)

/-! ## Numerals -/

theorem le_valueFrom (n : Nat) (digits : List Char) : n ≤ valueFrom n digits := by
  induction digits generalizing n with
  | nil => exact le_refl n
  | cons c digits ih =>
      rw [valueFrom_cons]
      have hnext := ih (10 * n + digitValue c)
      omega

/-- Digits are read from the left and stand for their value, if that does not exceed the bound. -/
theorem boundedFrom_eq_ok {bound n k : Nat} {excess : NumeralError} {digits : List Char}
    (hn : n ≤ bound) : boundedFrom bound excess n digits = .ok k ↔
      (∀ c ∈ digits, isDigit c = true) ∧ valueFrom n digits ≤ bound ∧ valueFrom n digits = k := by
  induction digits generalizing n with
  | nil =>
      have hvalue : valueFrom n [] = n := rfl
      simp [boundedFrom, hvalue, hn]
  | cons c digits ih =>
      rw [boundedFrom, valueFrom_cons, List.forall_mem_cons]
      split
      next hdigit =>
          rw [Bool.not_eq_true'] at hdigit
          simp [hdigit]
      next hdigit =>
          rw [Bool.not_eq_true, Bool.not_eq_false'] at hdigit
          split
          next hexcess =>
              have hle := le_valueFrom (10 * n + digitValue c) digits
              constructor
              · intro h
                cases h
              · rintro ⟨-, hbound, -⟩
                omega
          next hbound => rw [ih (Nat.not_lt.1 hbound), hdigit, eq_self, true_and]

theorem unsigned?_eq_some_iff {bound k : Nat} {excess : NumeralError} {digits : List Char}
    (hne : digits ≠ []) :
    unsigned? bound digits = some k ↔ boundedFrom bound excess 0 digits = .ok k := by
  rw [boundedFrom_eq_ok (Nat.zero_le _), unsigned?, ← value, Option.ite_none_right_eq_some,
    Option.some.injEq, List.all_eq_true]
  simp only [ne_eq, hne, not_false_eq_true, true_and, and_assoc]

/-- A sign alone is no numeral. -/
theorem numeral_sign (v : Int32) : numeral ['-'] ≠ .ok v ∧ numeral ['+'] ≠ .ok v := by
  constructor
  · intro h
    cases h
  · intro h
    cases h

/-- A console line and a line of a run are integers alike, where the line of the run is not empty
and taken as it stands. -/
theorem integer?_eq_some_iff {line : List Char} {v : Int32} (hne : line ≠ []) :
    integer? line = some v ↔ numeral line = .ok v := by
  unfold integer?
  split
  next digits =>
      rcases digits with _ | ⟨c, cs⟩
      · exact iff_of_false (by simp [unsigned?]) (numeral_sign v).1
      · rw [numeral, Option.map_eq_some_iff, map_eq_ok]
        constructor
        · rintro ⟨n, hn, hv⟩
          exact ⟨n, bind_eq_ok.2 ⟨n, (unsigned?_eq_some_iff (List.cons_ne_nil c cs)).1 hn, rfl⟩, hv⟩
        · rintro ⟨n, hn, hv⟩
          obtain ⟨k, hk, hcast⟩ := bind_eq_ok.1 hn
          cases hcast
          exact ⟨k, (unsigned?_eq_some_iff (List.cons_ne_nil c cs)).2 hk, hv⟩
  next digits =>
      rcases digits with _ | ⟨c, cs⟩
      · exact iff_of_false (by simp [unsigned?]) (numeral_sign v).2
      · rw [numeral, Option.map_eq_some_iff, map_eq_ok]
        exact exists_congr fun n => and_congr_left' (unsigned?_eq_some_iff (List.cons_ne_nil c cs))
  next hminus hplus =>
      rw [numeral, Option.map_eq_some_iff, map_eq_ok]
      · exact exists_congr fun n => and_congr_left' (unsigned?_eq_some_iff hne)
      · exact fun c cs h => hminus _ h
      · exact fun c cs h => hplus _ h

/-- The digits are visible. -/
theorem isBlank_of_isDigit {c : Char} (h : isDigit c = true) : isBlank c = false := by
  have hrange := Bool.and_eq_true_iff.1 h
  have hge := UInt32.le_iff_toNat_le.1 (of_decide_eq_true hrange.1)
  have hle := UInt32.le_iff_toNat_le.1 (of_decide_eq_true hrange.2)
  exact isBlank_of_ascii ⟨Nat.lt_of_lt_of_le (by decide) hge, Nat.lt_of_le_of_lt hle (by decide)⟩

/-- The characters of a console integer are its sign and its digits, none of them blank. -/
theorem visible_of_integer? {line : List Char} {v : Int32} (h : integer? line = some v) :
    line ≠ [] ∧ ∀ c ∈ line, isBlank c = false := by
  have hdigits : ∀ {bound k : Nat} {digits : List Char}, unsigned? bound digits = some k →
      digits ≠ [] ∧ ∀ c ∈ digits, isBlank c = false := by
    intro bound k digits hk
    obtain ⟨⟨hne, hdigits, -⟩, -⟩ := Option.ite_none_right_eq_some.1 hk
    exact ⟨hne, fun c hc => isBlank_of_isDigit (List.all_eq_true.1 hdigits c hc)⟩
  unfold integer? at h
  split at h <;> obtain ⟨n, hn, -⟩ := Option.map_eq_some_iff.1 h
  · exact ⟨List.cons_ne_nil _ _, List.forall_mem_cons.2 ⟨by decide, (hdigits hn).2⟩⟩
  · exact ⟨List.cons_ne_nil _ _, List.forall_mem_cons.2 ⟨by decide, (hdigits hn).2⟩⟩
  · exact hdigits hn

/-! ## Single lines -/

/-- A line of blanks is padded. -/
theorem padded_of_blank {line : List Char} (h : ∀ c ∈ line, isBlank c = true) : Padded line := by
  rcases line with _ | ⟨c, cs⟩
  · exact .inl rfl
  · refine .inr fun htrim => ?_
    rw [trim_of_blank h] at htrim
    cases htrim

/-- A line that is an integer has no blanks at its ends. -/
theorem trim_of_integer? {line : List Char} {v : Int32} (h : integer? line = some v) :
    trim line = line := by
  obtain ⟨hne, hvisible⟩ := visible_of_integer? h
  have htrim : trim (line ++ []) = line := trim_append_of_visible hne hvisible (by simp)
  rwa [List.append_nil] at htrim

/-- A padded line is no integer. -/
theorem integer?_of_padded {line : List Char} (h : Padded line) : integer? line = none := by
  rw [Option.eq_none_iff_forall_ne_some]
  intro v hv
  rcases h with rfl | hpadded
  · exact (visible_of_integer? hv).1 rfl
  · exact hpadded (trim_of_integer? hv)

/-- A line that holds an integer of a run is that integer, unless it is padded. -/
theorem integer?_of_numeral {line : List Char} {v : Int32} (h : numeral (trim line) = .ok v)
    (hpadded : ¬ Padded line) : integer? line = some v := by
  rw [Padded, not_or, not_not] at hpadded
  rw [hpadded.2] at h
  exact (integer?_eq_some_iff hpadded.1).2 h

/-- The characters of a numeral are visible. -/
theorem visible_of_numeral {line : List Char} {v : Int32} (h : numeral line = .ok v) :
    ∀ c ∈ line, isBlank c = false := by
  rcases line with _ | ⟨c, cs⟩
  · exact fun c hc => absurd hc List.not_mem_nil
  · exact (visible_of_integer? ((integer?_eq_some_iff (List.cons_ne_nil c cs)).2 h)).2

/-! ## Lines -/

theorem prepend_nil (lines : List (List Char)) : prepend [] lines = lines := by
  cases lines <;> rfl

theorem prepend_prepend (front : List Char) (c : Char) (lines : List (List Char)) :
    prepend front (prepend [c] lines) = prepend (front ++ [c]) lines := by
  cases lines with
  | nil => simp [prepend]
  | cons line lines => simp [prepend]

/-- A text has a first line. -/
theorem exists_lines (cs : List Char) : ∃ line rest, lines cs = line :: rest := by
  cases cs with
  | nil => exact ⟨_, _, rfl⟩
  | cons c cs =>
      change ∃ line rest, addBefore '\n' c (lines cs) = line :: rest
      unfold addBefore
      split
      · exact ⟨_, _, rfl⟩
      · split
        · exact ⟨_, _, rfl⟩
        · exact ⟨_, _, rfl⟩

/-- A line feed ends a line. -/
theorem lines_lineFeed (cs : List Char) : lines ('\n' :: cs) = [] :: lines cs := by
  change addBefore '\n' '\n' (lines cs) = [] :: lines cs
  obtain ⟨line, rest, hlines⟩ := exists_lines cs
  rw [hlines]
  rfl

/-- Any other character is part of the first line. -/
theorem lines_cons {c : Char} (hc : c ≠ '\n') (cs : List Char) :
    lines (c :: cs) = prepend [c] (lines cs) := by
  change addBefore '\n' c (lines cs) = prepend [c] (lines cs)
  obtain ⟨line, rest, hlines⟩ := exists_lines cs
  rw [hlines, addBefore, if_neg hc]
  rfl

/-- The first line of a reader is the front of the first line of the text, and a text without lines
of a reader has no second line. -/
theorem readerLines_head {cs piece : List Char} {pieces : List (List Char)}
    (h : lines cs = piece :: pieces) :
    readerLines cs = [] ∧ pieces = [] ∨
      ∃ line rest, readerLines cs = line :: rest ∧ line <+: piece := by
  fun_induction readerLines cs generalizing piece with
  | case1 =>
      cases h
      exact .inl ⟨rfl, rfl⟩
  | case2 cs | case3 cs | case4 cs => exact .inr ⟨_, _, rfl, List.nil_prefix⟩
  | case5 c cs hfeed _ _ ih =>
      obtain ⟨piece', pieces', hlines⟩ := exists_lines cs
      rw [lines_cons hfeed, hlines] at h
      cases h
      rcases ih hlines with ⟨hnone, -⟩ | ⟨line, rest, hsome, hbegins⟩
      · rw [hnone]
        exact .inr ⟨_, _, rfl, List.prefix_append [c] piece'⟩
      · rw [hsome]
        exact .inr ⟨_, _, rfl, (List.prefix_append_right_inj [c]).2 hbegins⟩

/-! ## Offers -/

section Offers

variable {front piece rest : List Char} {pieces lines : List (List Char)} {values : List Int32}

/-- A line of the reader that ends where the line of the text does, but for blanks. -/
theorem offers_cons (htrim : trim piece = trim front) (h : Reads (piece :: pieces) values)
    (hrest : ∀ values, Reads pieces values → Offers lines values) :
    Offers (front :: lines) values := by
  by_cases hpadded : Padded front
  · exact .padded hpadded
  · cases h with
    | blank hblank _ =>
        rw [htrim] at hblank
        exact absurd (padded_of_blank (blank_of_trim hblank)) hpadded
    | integer _ hvalue hpieces =>
        rw [htrim] at hvalue
        exact .integer (integer?_of_numeral hvalue hpadded) (hrest _ hpieces)

/-- Behind an integer and a carriage return the line of the text holds only blanks. -/
theorem blank_of_numeral {value : Int32} (hpadded : ¬ Padded front)
    (h : numeral (trim (front ++ '\r' :: rest)) = .ok value) : ∀ c ∈ rest, isBlank c = true := by
  by_contra hvisible
  push Not at hvisible
  simp only [Bool.not_eq_true] at hvisible
  rw [Padded, not_or, not_not] at hpadded
  obtain ⟨hne, htrim⟩ := hpadded
  obtain ⟨-, -, -, -, -, hends⟩ := exists_trim front
  rw [htrim] at hends
  obtain ⟨⟨first, hfirst, hfirstVisible⟩, -⟩ := hends hne
  obtain ⟨before, last, behind, rfl, hlast, hbehind⟩ := exists_last_visible hvisible
  -- the carriage return stands between two visible characters, so trimming leaves it
  have hkept : trim ([] ++ (front ++ '\r' :: (before ++ [last])) ++ behind) =
      front ++ '\r' :: (before ++ [last]) := by
    refine trim_of_visible ⟨first, ?_, hfirstVisible⟩ ⟨last, ?_, hlast⟩ (by simp) hbehind
    · rw [List.head?_append_of_ne_nil _ hne]
      exact hfirst
    · rw [← List.cons_append, ← List.append_assoc]
      exact List.getLast?_concat
  have hwhole : front ++ '\r' :: (before ++ last :: behind) =
      [] ++ (front ++ '\r' :: (before ++ [last])) ++ behind := by
    simp
  rw [hwhole, hkept] at h
  have hreturn := visible_of_numeral h '\r' (by simp)
  exact absurd hreturn (by decide)

/-- Where a carriage return ends a line of the reader inside a line of the text, a padded line is
next, if there is one. -/
theorem offers_inside (h : Reads ((front ++ '\r' :: rest) :: pieces) values)
    (hrest : lines = [] ∧ pieces = [] ∨ ∃ line later, lines = line :: later ∧ line <+: rest) :
    Offers (front :: lines) values := by
  by_cases hpadded : Padded front
  · exact .padded hpadded
  · cases h with
    | blank hblank _ =>
        have hfront : ∀ c ∈ front, isBlank c = true := fun c hc =>
          blank_of_trim hblank c (List.mem_append_left _ hc)
        exact absurd (padded_of_blank hfront) hpadded
    | integer _ hvalue hpieces =>
        have hblank := blank_of_numeral hpadded hvalue
        have hback : ∀ c ∈ '\r' :: rest, isBlank c = true :=
          List.forall_mem_cons.2 ⟨by decide, hblank⟩
        rw [trim_append_blank hback] at hvalue
        refine .integer (integer?_of_numeral hvalue hpadded) ?_
        rcases hrest with ⟨rfl, rfl⟩ | ⟨line, later, rfl, hbegins⟩
        · cases hpieces
          exact .nil
        · exact .padded (padded_of_blank fun c hc => hblank c (hbegins.subset hc))

end Offers

/-- The lines of a reader offer what the lines of the text hold. -/
theorem offers_of_reads (cs front : List Char) (values : List Int32)
    (h : Reads (prepend front (lines cs)) values) :
    Offers (prepend front (readerLines cs)) values := by
  -- `front` is what the reader has seen of the line that it is in
  fun_induction readerLines cs generalizing front values with
  | case1 =>
      -- the end of the text ends a line that holds anything
      rcases front with _ | ⟨c, front⟩
      · cases h with
        | blank _ hrest =>
            cases hrest
            exact .nil
        | integer hne _ _ => exact absurd rfl hne
      · have hline : prepend (c :: front) (lines []) = [c :: front] := by
          simp [prepend, lines, pieces]
        rw [hline] at h
        refine offers_cons rfl h fun values hnone => ?_
        cases hnone
        exact .nil
  | case2 cs ih =>
      -- a line feed ends the line for both
      rw [lines_lineFeed] at h
      simp only [prepend, List.append_nil] at h ⊢
      refine offers_cons rfl h fun values hrest => ?_
      have hoffers := ih [] values
      rw [prepend_nil, prepend_nil] at hoffers
      exact hoffers hrest
  | case3 cs ih =>
      -- the carriage return in front of a line feed is a blank of the line of the text
      rw [lines_cons (by decide), lines_lineFeed] at h
      simp only [prepend, List.append_nil] at h ⊢
      have hreturn : ∀ c ∈ ['\r'], isBlank c = true := List.forall_mem_singleton.2 (by decide)
      refine offers_cons (trim_append_blank hreturn) h fun values hrest => ?_
      have hoffers := ih [] values
      rw [prepend_nil, prepend_nil] at hoffers
      exact hoffers hrest
  | case4 cs _ _ =>
      -- a lone carriage return ends the line for the reader alone
      obtain ⟨piece, pieces, hlines⟩ := exists_lines cs
      rw [lines_cons (by decide), hlines] at h
      simp only [prepend, List.append_nil] at h ⊢
      exact offers_inside h (readerLines_head hlines)
  | case5 c cs hfeed _ _ ih =>
      rw [lines_cons hfeed, prepend_prepend] at h
      rw [prepend_prepend]
      exact ih _ _ h

namespace Offers

variable {lines : List (List Char)} {values : List Int32}

theorem isPrefix_frontIntegers (h : Offers lines values) : frontIntegers lines <+: values := by
  induction h with
  | nil => exact List.nil_prefix
  | padded hpadded =>
      rw [frontIntegers, integer?_of_padded hpadded]
      exact List.nil_prefix
  | integer hvalue _ ih =>
      rw [frontIntegers, hvalue]
      exact (List.prefix_cons_inj _).2 ih

/-- Lines that are not padded are all offered. -/
theorem le_length_frontIntegers (h : Offers lines values) {n : Nat} (hn : n ≤ values.length)
    (hplain : ∀ line ∈ lines.take n, ¬ Padded line) : n ≤ (frontIntegers lines).length := by
  induction h generalizing n with
  | nil => exact hn
  | padded hpadded =>
      cases n with
      | zero => exact Nat.zero_le _
      | succ n => exact absurd hpadded (hplain _ (by simp))
  | integer hvalue _ ih =>
      cases n with
      | zero => exact Nat.zero_le _
      | succ n =>
          rw [List.take_succ_cons, List.forall_mem_cons] at hplain
          rw [frontIntegers, hvalue]
          exact Nat.succ_le_succ (ih (Nat.le_of_succ_le_succ hn) hplain.2)

/-- What is offered ends at the first padded line. -/
theorem frontIntegers_eq {front rest : List (List Char)} {line : List Char}
    (h : Offers (front ++ line :: rest) values) (hplain : ∀ line ∈ front, ¬ Padded line)
    (hpadded : Padded line) :
    frontIntegers (front ++ line :: rest) = values.take front.length ∧
      (frontIntegers (front ++ line :: rest)).length = front.length := by
  induction front generalizing values with
  | nil =>
      rw [List.nil_append, frontIntegers, integer?_of_padded hpadded]
      exact ⟨rfl, rfl⟩
  | cons first front ih =>
      rw [List.forall_mem_cons] at hplain
      cases h with
      | padded hfirst => exact absurd hfirst hplain.1
      | integer hvalue hrest =>
          obtain ⟨htake, hlength⟩ := ih hrest hplain.2
          rw [List.cons_append, frontIntegers, hvalue]
          exact ⟨congrArg _ htake, congrArg Nat.succ hlength⟩

end Offers

/-- What a text is parsed to is what its lines hold. -/
theorem reads_of_mapM {pieces : List (List Char)} {number : Nat} {values : List Int32}
    (h : (((pieces.map trim).zipIdx number).filter fun line => !line.1.isEmpty).mapM ofLine =
      .ok values) : Reads pieces values := by
  induction pieces generalizing number values with
  | nil =>
      cases h
      exact .nil
  | cons piece pieces ih =>
      rw [List.map_cons, List.zipIdx_cons, List.filter_cons] at h
      split at h
      next hne =>
          rw [List.mapM_cons] at h
          obtain ⟨value, hvalue, h⟩ := bind_eq_ok.1 h
          obtain ⟨rest, hrest, h⟩ := bind_eq_ok.1 h
          cases h
          refine .integer (by simpa using hne) ?_ (ih hrest)
          unfold ofLine at hvalue
          split at hvalue
          next n hn =>
              cases hvalue
              exact hn
          next => cases hvalue
      next hblank => exact .blank (by simpa using hblank) (ih h)

/-- The lines that a console reader hands out are the integers that a run of the same text is
given, up to the first line that is empty or has blanks at an end. -/
theorem offers_of_parse {text : String} {values : List Int32} (h : parse text = .ok values) :
    Offers (readerLines text.toList) values := by
  have hoffers := offers_of_reads text.toList [] values
  rw [prepend_nil, prepend_nil] at hoffers
  exact hoffers (reads_of_mapM h)

end StackCodegen.InputText
