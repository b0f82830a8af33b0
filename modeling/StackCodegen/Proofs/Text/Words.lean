import Mathlib.Data.List.TakeDrop
import Mathlib.Data.List.TakeWhile

/-!
# Words at the front of a text

A word ends where a character comes that is none of its own, or with the text. What is taken by its
characters is then the word, and what follows it is left (`span_of_stop`).
-/

set_option autoImplicit false

namespace StackCodegen.Text

variable {p : Char → Bool} {word rest : List Char} (hword : ∀ c ∈ word, p c = true)
  (hrest : ∀ c ∈ rest.head?, p c = false)
include hword hrest

theorem takeWhile_of_stop : (word ++ rest).takeWhile p = word := by
  rw [List.takeWhile_append_of_pos hword]
  cases rest with
  | nil => simp
  | cons c rest =>
      rw [List.takeWhile_cons_of_neg (by simpa using hrest c rfl), List.append_nil]

theorem dropWhile_of_stop : (word ++ rest).dropWhile p = rest := by
  rw [List.dropWhile_append_of_pos hword]
  cases rest with
  | nil => rfl
  | cons c rest => rw [List.dropWhile_cons_of_neg (by simpa using hrest c rfl)]

theorem span_of_stop : (word ++ rest).span p = (word, rest) := by
  rw [List.span_eq_takeWhile_dropWhile, takeWhile_of_stop hword hrest,
    dropWhile_of_stop hword hrest]

end StackCodegen.Text
