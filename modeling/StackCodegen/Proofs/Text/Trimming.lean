import StackCodegen.Text.Blank
import Mathlib.Data.List.Basic
import Mathlib.Data.List.TakeWhile

/-!
# Trimmed texts

Trimming takes away the blanks in front of the first visible character and behind the last one, and
nothing else (`trim_of_visible`), so a text is its trimmed text between blanks (`exists_trim`).
-/

set_option autoImplicit false

namespace StackCodegen.Text

variable {front cs back : List Char}

/-- The characters of ASCII that print are visible. -/
theorem isBlank_of_ascii {c : Char} (h : 0x20 < c.toNat ∧ c.toNat < 0x7F) : isBlank c = false := by
  simp only [isBlank, blankRanges, List.any_cons, List.any_nil, Bool.or_false,
    Bool.or_eq_false_iff, Bool.and_eq_false_iff, decide_eq_false_iff_not]
  omega

theorem dropWhile_isBlank_append (h : ∃ c ∈ cs.head?, isBlank c = false) (rest : List Char) :
    (cs ++ rest).dropWhile isBlank = cs ++ rest := by
  obtain ⟨c, hc, hvisible⟩ := h
  cases cs with
  | nil => cases hc
  | cons c' cs =>
      cases hc
      exact List.dropWhile_cons_of_neg (by rw [hvisible]; exact Bool.false_ne_true)

/-- Trimming takes away the blanks around a text that starts and ends with a visible
character. -/
theorem trim_of_visible (hhead : ∃ c ∈ cs.head?, isBlank c = false)
    (hlast : ∃ c ∈ cs.getLast?, isBlank c = false) (hfront : ∀ c ∈ front, isBlank c = true)
    (hback : ∀ c ∈ back, isBlank c = true) : trim (front ++ cs ++ back) = cs := by
  have hreverse : ∃ c ∈ cs.reverse.head?, isBlank c = false := by
    rw [List.head?_reverse]
    exact hlast
  have hend : cs.reverse.dropWhile isBlank = cs.reverse := by
    have hdrop := dropWhile_isBlank_append hreverse []
    rwa [List.append_nil] at hdrop
  rw [trim, List.append_assoc, List.dropWhile_append_of_pos hfront,
    dropWhile_isBlank_append hhead, List.reverse_append,
    List.dropWhile_append_of_pos fun c hc => hback c (List.mem_reverse.1 hc), hend,
    List.reverse_reverse]

/-- A text of visible characters is left as it is, whatever blanks follow. -/
theorem trim_append_of_visible (hne : cs ≠ []) (hcs : ∀ c ∈ cs, isBlank c = false)
    (hback : ∀ c ∈ back, isBlank c = true) : trim (cs ++ back) = cs := by
  have hhead : ∃ c ∈ cs.head?, isBlank c = false :=
    ⟨cs.head hne, List.head?_eq_some_head hne, hcs _ (List.head_mem hne)⟩
  have hlast : ∃ c ∈ cs.getLast?, isBlank c = false :=
    ⟨cs.getLast hne, List.getLast?_eq_some_getLast hne, hcs _ (List.getLast_mem hne)⟩
  have htrim : trim ([] ++ cs ++ back) = cs := trim_of_visible hhead hlast (by simp) hback
  rwa [List.nil_append] at htrim

/-- A text that is not blank has a last visible character. -/
theorem exists_last_visible (h : ∃ c ∈ cs, isBlank c = false) :
    ∃ front c back, cs = front ++ c :: back ∧ isBlank c = false ∧
      ∀ b ∈ back, isBlank b = true := by
  induction cs with
  | nil =>
      obtain ⟨c, hc, -⟩ := h
      cases hc
  | cons first cs ih =>
      by_cases hlater : ∃ c ∈ cs, isBlank c = false
      · obtain ⟨front, c, back, rfl, hvisible, hback⟩ := ih hlater
        exact ⟨first :: front, c, back, rfl, hvisible, hback⟩
      · have hblank : ∀ b ∈ cs, isBlank b = true := by
          intro b hb
          by_contra hne
          exact hlater ⟨b, hb, Bool.not_eq_true _ ▸ hne⟩
        obtain ⟨c, hc, hvisible⟩ := h
        rcases List.mem_cons.1 hc with rfl | hc
        · exact ⟨[], c, cs, rfl, hvisible, hblank⟩
        · exact absurd ⟨c, hc, hvisible⟩ hlater

/-- A text of blanks leaves nothing. -/
theorem trim_of_blank (h : ∀ c ∈ cs, isBlank c = true) : trim cs = [] := by
  rw [trim, List.dropWhile_eq_nil_iff.2 h]
  rfl

/-- A text that is not blank starts and ends with a visible character, but for blanks. -/
theorem exists_visible_ends (h : ∃ c ∈ cs, isBlank c = false) :
    ∃ front mid back, cs = front ++ mid ++ back ∧ (∀ c ∈ front, isBlank c = true) ∧
      (∀ c ∈ back, isBlank c = true) ∧ (∃ c ∈ mid.head?, isBlank c = false) ∧
      ∃ c ∈ mid.getLast?, isBlank c = false := by
  obtain ⟨before, last, back, rfl, hlast, hback⟩ := exists_last_visible h
  have hsplit := List.takeWhile_append_dropWhile (p := isBlank) (l := before ++ [last])
  have hne : (before ++ [last]).dropWhile isBlank ≠ [] := by
    intro hnil
    have hblank := List.dropWhile_eq_nil_iff.1 hnil last (by simp)
    rw [hlast] at hblank
    cases hblank
  have hend : (before ++ [last]).getLast? = some last := by simp
  rw [← hsplit, List.getLast?_append_of_ne_nil _ hne] at hend
  have hfront : ∀ c ∈ (before ++ [last]).takeWhile isBlank, isBlank c = true := fun _ =>
    List.mem_takeWhile_imp
  refine ⟨_, (before ++ [last]).dropWhile isBlank, back, ?_, hfront, hback,
    ⟨_, List.head?_eq_some_head hne, ?_⟩, last, hend, hlast⟩
  · rw [hsplit, List.append_assoc]
    rfl
  · simpa using List.head_dropWhile_not isBlank hne

/-- A text is its trimmed text between blanks. -/
theorem exists_trim (cs : List Char) : ∃ front back, cs = front ++ trim cs ++ back ∧
    (∀ c ∈ front, isBlank c = true) ∧ (∀ c ∈ back, isBlank c = true) ∧
    (trim cs ≠ [] → (∃ c ∈ (trim cs).head?, isBlank c = false) ∧
      ∃ c ∈ (trim cs).getLast?, isBlank c = false) := by
  by_cases hvisible : ∃ c ∈ cs, isBlank c = false
  · obtain ⟨front, mid, back, hcs, hfront, hback, hhead, hlast⟩ := exists_visible_ends hvisible
    have htrim : trim cs = mid := by
      rw [hcs]
      exact trim_of_visible hhead hlast hfront hback
    rw [htrim]
    exact ⟨front, back, hcs, hfront, hback, fun _ => ⟨hhead, hlast⟩⟩
  · have hblank : ∀ c ∈ cs, isBlank c = true := by
      intro c hc
      by_contra hne
      exact hvisible ⟨c, hc, Bool.not_eq_true _ ▸ hne⟩
    rw [trim_of_blank hblank]
    exact ⟨cs, [], by simp, hblank, by simp, fun hne => absurd rfl hne⟩

theorem blank_of_trim (h : trim cs = []) : ∀ c ∈ cs, isBlank c = true := by
  obtain ⟨front, back, hcs, hfront, hback, -⟩ := exists_trim cs
  rw [h, List.append_nil] at hcs
  rw [hcs]
  exact List.forall_mem_append.2 ⟨hfront, hback⟩

/-- Blanks at the end do not count. -/
theorem trim_append_blank (hback : ∀ c ∈ back, isBlank c = true) :
    trim (cs ++ back) = trim cs := by
  by_cases hnil : trim cs = []
  · rw [hnil]
    exact trim_of_blank (List.forall_mem_append.2 ⟨blank_of_trim hnil, hback⟩)
  · obtain ⟨front, behind, hcs, hfront, hbehind, hends⟩ := exists_trim cs
    have htrim : trim (front ++ trim cs ++ (behind ++ back)) = trim cs :=
      trim_of_visible (hends hnil).1 (hends hnil).2 hfront
        (List.forall_mem_append.2 ⟨hbehind, hback⟩)
    rwa [← List.append_assoc, ← hcs] at htrim

end StackCodegen.Text
