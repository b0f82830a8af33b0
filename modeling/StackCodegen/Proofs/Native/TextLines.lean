import StackCodegen.Proofs.Native.Reader
import Mathlib.Data.List.Perm.Basic

/-!
# Lines of assembly text

A text consists of lines, whatever the lines of the listing were: a comment that holds a line feed
ends there, and what is behind the line feed is a line of its own (`Line.spill`). An assembler reads
such a line as any other, so it may find an element of code in it (`Item.spilled`).

Main statements: a text is read as the code that it was written from, each element without its
comment and with what the comment spills behind it (`read?_text_eq_some_iff`), so exactly as that
code where no comment holds a line feed (`read?_text`); its labels are those of the code and those
that are spilled (`textLabels_perm`).
-/

set_option autoImplicit false

namespace StackCodegen.Native

/-! ## Lines -/

/-- A text is split into its first line and those behind it; what stands in front of the text, on
the same line, goes to the first. -/
theorem splitOn_append {front : List Char} (h : '\n' ∉ front) (back : List Char) :
    ∃ first, (front ++ back).splitOn '\n' = (front ++ first) :: (back.splitOn '\n').tail ∧
      (back = [] → first = []) := by
  by_cases hmem : '\n' ∈ back
  · -- the first line feed ends the line, whatever stands in front
    obtain ⟨first, rest, rfl, hfirst⟩ := List.eq_append_cons_of_mem hmem
    refine ⟨first, ?_, fun hnil => by simp at hnil⟩
    have hwhole : '\n' ∉ front ++ first := by
      rw [List.mem_append, not_or]
      exact ⟨h, hfirst⟩
    rw [← List.append_assoc, List.splitOn_append_cons_self, List.splitOn_append_cons_self,
      List.splitOn_eq_singleton hwhole, List.splitOn_eq_singleton hfirst]
    rfl
  · refine ⟨back, ?_, id⟩
    have hwhole : '\n' ∉ front ++ back := by
      rw [List.mem_append, not_or]
      exact ⟨h, hmem⟩
    rw [List.splitOn_eq_singleton hwhole, List.splitOn_eq_singleton hmem]
    rfl

/-- There is one line more than there are ends of lines. -/
theorem length_splitOn (cs : List Char) : (cs.splitOn '\n').length = cs.count '\n' + 1 := by
  induction cs with
  | nil => rfl
  | cons c cs ih =>
      rw [List.splitOn_cons_eq_if_modifyHead, List.count_cons]
      split
      · rw [List.length_cons, ih]
      · rw [List.length_modifyHead, ih, Nat.add_zero]

theorem toList_text (lines : Listing) :
    lines.text.toList = lines.flatMap fun line => line.text.toList ++ ['\n'] := by
  have hfold : ∀ (lines : Listing) (before : String),
      (lines.foldl (fun acc line => acc ++ line.text ++ "\n") before).toList =
        before.toList ++ lines.flatMap fun line => line.text.toList ++ ['\n'] := by
    intro lines
    induction lines with
    | nil => intro before; simp
    | cons line lines ih =>
        intro before
        rw [List.foldl_cons, ih, String.toList_append, String.toList_append, List.flatMap_cons]
        simp
  rw [Listing.text, hfold]
  rfl

/-- The lines of a text are those of the lines that it was written from, and an empty one. -/
theorem splitOn_text (lines : Listing) :
    lines.text.toList.splitOn '\n' =
      (lines.flatMap fun line => line.text.toList.splitOn '\n') ++ [[]] := by
  rw [toList_text]
  induction lines with
  | nil => rfl
  | cons line lines ih =>
      rw [List.flatMap_cons, List.append_assoc, List.singleton_append,
        List.splitOn_append_cons_self, ih, List.flatMap_cons, List.append_assoc]

/-- The comment of a line. -/
def Line.comment : Line → String
  | commentedLabel _ comment => comment
  | _ => ""

/-- What the comment of a line leaves on further lines. -/
def Line.spill (line : Line) : List (List Char) := (line.comment.toList.splitOn '\n').tail

theorem length_spill (line : Line) : line.spill.length = line.comment.toList.count '\n' := by
  rw [Line.spill, List.length_tail, length_splitOn, Nat.add_sub_cancel]

/-! ## Elements of code -/

/-- What the comment of an element spills, as it is read; lines that are refused are left out. -/
def Item.spilled (item : Item) : List Item := (item.line.spill.filterMap readLine?).flatten

/-- An element without its comment, and what the comment spills. -/
def Item.spelled (item : Item) : List Item := item.bare :: item.spilled

/-- A comment without line feeds spills nothing. -/
theorem spill_of_readable {item : Item} (h : item.Readable) : item.line.spill = [] := by
  rw [← List.length_eq_zero_iff, length_spill, List.count_eq_zero]
  cases item with
  | directive text => exact List.not_mem_nil
  | code insn => cases insn <;> exact List.not_mem_nil
  | label name comment =>
      cases comment with
      | none => exact List.not_mem_nil
      | some text => exact h.2 text rfl

/-- The lines of an element are read as the element, and as what its comment spills. -/
theorem map_readLine?_text {item : Item} (h : item.bare.Readable) :
    (item.line.text.toList.splitOn '\n').map readLine? =
      some [item.bare] :: item.line.spill.map readLine? := by
  have hended : item.Readable → (item.line.text.toList.splitOn '\n').map readLine? =
      some [item.bare] :: item.line.spill.map readLine? := by
    intro hreadable
    rw [List.splitOn_eq_singleton (newline_notMem_line hreadable), List.map_singleton,
      readLine?_line hreadable, spill_of_readable hreadable, List.map_nil]
  cases item with
  | directive text | code insn => exact hended h
  | label name comment =>
      cases comment with
      | none => exact hended h
      | some text =>
          have hline : (Item.label name (some text)).line.text.toList =
              (name.toList ++ [':', ' ', '#', ' ']) ++ text.toList := by
            rw [Item.line, Line.text, String.toList_append, String.toList_append]
            rfl
          have hfront : '\n' ∉ name.toList ++ [':', ' ', '#', ' '] := by
            rw [List.mem_append, not_or]
            exact ⟨fun hmem => (by cases ((plain_of_symbol h.1).2 _ hmem).1), by decide⟩
          obtain ⟨first, hsplit, -⟩ := splitOn_append hfront text.toList
          rw [hline, hsplit, List.map_cons]
          congr 1
          refine readLine?_label [' '] ('#' :: ' ' :: first) h.1 ?_ (by simp) (by simp)
          simp

/-! ## Texts are read back -/

/-- A list is mapped if every element of it is. -/
theorem mapM_eq_some_iff {α β : Type} {f : α → Option β} {as : List α} {bs : List β} :
    as.mapM f = some bs ↔
      (∀ b ∈ as.map f, b.isSome = true) ∧ bs = (as.map f).filterMap id := by
  induction as generalizing bs with
  | nil =>
      rw [List.mapM_nil]
      exact ⟨fun heq => ⟨fun b hb => absurd hb List.not_mem_nil, (Option.some.inj heq).symm⟩,
        fun heq => congrArg some heq.2.symm⟩
  | cons a as ih =>
      rw [List.mapM_cons, List.map_cons, List.forall_mem_cons]
      cases ha : f a with
      | none => simp
      | some b =>
          rw [List.filterMap_cons_some (f := id) rfl]
          cases has : as.mapM f with
          | none =>
              have hnot : ¬ ∀ b ∈ as.map f, b.isSome = true := fun hall => by
                cases has.symm.trans (ih.2 ⟨hall, rfl⟩)
              simp only [Option.pure_def, Option.bind_eq_bind, Option.bind_some, Option.bind_none,
                reduceCtorEq, hnot, and_false, false_and]
          | some bs' =>
              obtain ⟨hall, rfl⟩ := ih.1 has
              simp only [Option.pure_def, Option.bind_eq_bind, Option.bind_some, Option.some.injEq]
              exact ⟨fun heq => ⟨⟨rfl, hall⟩, heq.symm⟩, fun heq => heq.2.symm⟩

/-- What the elements and their comments are read as, put together. -/
theorem flatten_readings (items : List Item) :
    (((items.flatMap fun item : Item => some [item.bare] :: item.line.spill.map readLine?) ++
        [some []]).filterMap id).flatten = items.flatMap Item.spelled := by
  induction items with
  | nil => rfl
  | cons item items ih =>
      have hspilled : (item.line.spill.map readLine?).filterMap id =
          item.line.spill.filterMap readLine? := by
        rw [List.filterMap_map]
        rfl
      rw [List.flatMap_cons, List.append_assoc, List.filterMap_append, List.flatten_append, ih,
        List.filterMap_cons_some (f := id) rfl, hspilled, List.flatMap_cons]
      rfl

section Texts

variable {items : List Item} (h : ∀ item ∈ items, item.bare.Readable)

include h

/-- What the lines of a text are read as, each on its own. -/
theorem map_readLine?_lines :
    ((Listing.text (items.map Item.line)).toList.splitOn '\n').map readLine? =
      (items.flatMap fun item => some [item.bare] :: item.line.spill.map readLine?) ++
        [some []] := by
  rw [splitOn_text, List.map_append, List.flatMap_map, List.map_flatMap]
  congr 1
  exact List.flatMap_congr fun item hitem => map_readLine?_text (h item hitem)

/-- A text is read as its code with what the comments spill, if all that they spill is read. -/
theorem read?_text_eq_some_iff {code : List Item} :
    read? (Listing.text (items.map Item.line)) = some code ↔
      (∀ item ∈ items, ∀ line ∈ item.line.spill, (readLine? line).isSome = true) ∧
        code = items.flatMap Item.spelled := by
  rw [read?, Option.map_eq_some_iff]
  simp only [mapM_eq_some_iff, map_readLine?_lines h]
  constructor
  · rintro ⟨_, ⟨hall, rfl⟩, rfl⟩
    refine ⟨fun item hitem line hline => hall _ ?_, flatten_readings items⟩
    refine List.mem_append_left _ (List.mem_flatMap.2 ⟨item, hitem, List.mem_cons_of_mem _ ?_⟩)
    exact List.mem_map.2 ⟨line, hline, rfl⟩
  · rintro ⟨hall, rfl⟩
    refine ⟨_, ⟨fun row hrow => ?_, rfl⟩, flatten_readings items⟩
    rcases List.mem_append.1 hrow with hrow | hrow
    · obtain ⟨item, hitem, hrow⟩ := List.mem_flatMap.1 hrow
      rcases List.mem_cons.1 hrow with rfl | hrow
      · rfl
      · obtain ⟨line, hline, rfl⟩ := List.mem_map.1 hrow
        exact hall item hitem line hline
    · rw [List.mem_singleton.1 hrow]
      rfl

end Texts

/-- Where no comment spills, elements are read as they are. -/
theorem spelled_of_readable {item : Item} (h : item.Readable) : item.spelled = [item.bare] := by
  rw [Item.spelled, Item.spilled, spill_of_readable h]
  rfl

theorem Item.Readable.bare {item : Item} (h : item.Readable) : item.bare.Readable := by
  cases item with
  | directive text | code insn => exact h
  | label name comment => exact ⟨h.1, fun text htext => absurd htext (Option.not_mem_none text)⟩

/-- The text of code whose comments end with their lines is read back, without the comments. -/
theorem read?_text {items : List Item} (h : ∀ item ∈ items, item.Readable) :
    read? (Listing.text (items.map Item.line)) = some (items.map Item.bare) := by
  refine (read?_text_eq_some_iff fun item hitem => (h item hitem).bare).2 ⟨?_, ?_⟩
  · intro item hitem line hline
    rw [spill_of_readable (h item hitem)] at hline
    cases hline
  · rw [List.map_eq_flatMap]
    exact (List.flatMap_congr fun item hitem => spelled_of_readable (h item hitem)).symm

/-! ## Labels -/

/-- The labels of a text: those of its lines, each read on its own. -/
def textLabels (text : String) : List String :=
  labelNames ((text.toList.splitOn '\n').filterMap readLine?).flatten

/-- The labels of a text that is read are those of its code. -/
theorem textLabels_of_read? {text : String} {code : List Item} (h : read? text = some code) :
    textLabels text = labelNames code := by
  obtain ⟨rows, hrows, rfl⟩ := Option.map_eq_some_iff.1 h
  obtain ⟨-, rfl⟩ := mapM_eq_some_iff.1 hrows
  rw [textLabels, List.filterMap_map]
  rfl

/-- A text has the labels of its code, and those that its comments spill. -/
theorem textLabels_perm {items : List Item} (h : ∀ item ∈ items, item.bare.Readable) :
    (textLabels (Listing.text (items.map Item.line))).Perm
      (labelNames items ++ labelNames (items.flatMap Item.spilled)) := by
  have hlines := congrArg (List.filterMap id) (map_readLine?_lines h)
  rw [List.filterMap_map, Function.id_comp] at hlines
  rw [textLabels, hlines, flatten_readings, ← labelNames_bare items, ← labelNames_append]
  exact (List.map_append_flatMap_perm items Item.bare Item.spilled).symm.filterMap _

end StackCodegen.Native
