import StackCodegen.Json.Reader
import StackCodegen.Proofs.Json.Lexer

/-!
# Values read back

The text of a value whose numbers are numerals of integers is read back as the value, with nothing
left over (`read?_render`).

A reader takes the tokens of a text one by one (`run_cons`), and the induction is on the value: a
reader that awaits a value comes to the stage after it (`run_tokens`), whatever containers are open.
An array or an object is left by its own closing token, with the items or fields in their order.
-/

set_option autoImplicit false

namespace StackCodegen.Json

/-! ## Tokens of a value -/

/-- The tokens of items with commas between them. -/
def itemTokens : List Json → List Token
  | [] => []
  | [item] => item.tokens
  | item :: items => item.tokens ++ .comma :: itemTokens items

/-- The tokens of fields with commas between them. -/
def fieldTokens : List (Option String × Json) → List Token
  | [] => []
  | [(key, value)] => .string key :: .colon :: value.tokens
  | (key, value) :: fields =>
      .string key :: .colon :: (value.tokens ++ .comma :: fieldTokens fields)

mutual

theorem toList_pushTokens (tokens : Array Token) :
    ∀ value : Json, (pushTokens tokens value).toList = tokens.toList ++ value.tokens
  | .null | .bool _ | .number _ | .string _ => by simp [pushTokens, Json.tokens]
  | .array items => by
      simp [pushTokens, Json.tokens, toList_pushItems _ items]
  | .object fields => by
      simp [pushTokens, Json.tokens, toList_pushFields _ fields]

theorem toList_pushItems (tokens : Array Token) :
    ∀ items : List Json, (pushItems tokens items).toList = tokens.toList ++ itemTokens items
  | [] => by simp [pushItems, itemTokens]
  | [item] => by simp [pushItems, itemTokens, toList_pushTokens _ item]
  | item :: next :: items => by
      simp [pushItems, itemTokens, toList_pushTokens _ item, toList_pushItems _ (next :: items)]

theorem toList_pushFields (tokens : Array Token) :
    ∀ fields : List (Option String × Json),
      (pushFields tokens fields).toList = tokens.toList ++ fieldTokens fields
  | [] => by simp [pushFields, fieldTokens]
  | [(key, value)] => by simp [pushFields, fieldTokens, toList_pushTokens _ value]
  | (key, value) :: next :: fields => by
      simp [pushFields, fieldTokens, toList_pushTokens _ value,
        toList_pushFields _ (next :: fields)]

end

@[simp] theorem tokens_array (items : List Json) :
    (Json.array items).tokens = .openArray :: (itemTokens items ++ [.closeArray]) := by
  simp [Json.tokens, pushTokens, toList_pushItems]

@[simp] theorem tokens_object (fields : List (Option String × Json)) :
    (Json.object fields).tokens = .openObject :: (fieldTokens fields ++ [.closeObject]) := by
  simp [Json.tokens, pushTokens, toList_pushFields]

/-- The characters of tokens. -/
def spelled (tokens : List Token) : List Char := tokens.flatMap fun token => token.text.toList

@[simp] theorem spelled_cons (token : Token) (tokens : List Token) :
    spelled (token :: tokens) = token.text.toList ++ spelled tokens :=
  List.flatMap_cons

@[simp] theorem spelled_append (front back : List Token) :
    spelled (front ++ back) = spelled front ++ spelled back :=
  List.flatMap_append

/-- A value is written as the texts of its tokens. -/
theorem toList_render (value : Json) : value.render.toList = spelled value.tokens := by
  have hfold : ∀ (tokens : List Token) (text : String),
      (tokens.foldl (fun text token => text ++ token.text) text).toList
        = text.toList ++ spelled tokens := by
    intro tokens
    induction tokens with
    | nil => simp [spelled]
    | cons token tokens ih => simp [ih]
  exact hfold value.tokens ""

/-- Tokens whose numbers are numerals of integers. -/
def Integral (tokens : List Token) : Prop :=
  ∀ text, .number text ∈ tokens → ∃ i : Int, text = toString i

theorem Integral.left {front back : List Token} (h : Integral (front ++ back)) : Integral front :=
  fun text htext => h text (List.mem_append_left back htext)

theorem Integral.right {front back : List Token} (h : Integral (front ++ back)) : Integral back :=
  fun text htext => h text (List.mem_append_right front htext)

theorem Integral.tail {token : Token} {tokens : List Token} (h : Integral (token :: tokens)) :
    Integral tokens :=
  fun text htext => h text (List.mem_cons_of_mem token htext)

theorem integral_string (text? : Option String) : Integral (Json.string text?).tokens := by
  intro text htext
  cases List.mem_singleton.1 htext

theorem integral_toString (i : Int) : Integral (Json.number (toString i)).tokens := by
  intro text htext
  cases List.mem_singleton.1 htext
  exact ⟨i, rfl⟩

theorem number_mem_itemTokens {text : String} (items : List Json) :
    .number text ∈ itemTokens items ↔ ∃ item ∈ items, .number text ∈ item.tokens := by
  fun_induction itemTokens items with
  | case1 => simp
  | case2 item => simp
  | case3 item items _ ih => simp [ih]

theorem number_mem_fieldTokens {text : String} (fields : List (Option String × Json)) :
    .number text ∈ fieldTokens fields ↔ ∃ field ∈ fields, .number text ∈ field.2.tokens := by
  fun_induction fieldTokens fields with
  | case1 => simp
  | case2 key value => simp
  | case3 key value fields _ ih => simp [ih]

theorem integral_array {items : List Json} (h : ∀ item ∈ items, Integral item.tokens) :
    Integral (Json.array items).tokens := by
  intro text htext
  have hitems : .number text ∈ itemTokens items := by simpa using htext
  obtain ⟨item, hitem, hnumber⟩ := (number_mem_itemTokens items).1 hitems
  exact h item hitem text hnumber

theorem integral_object {fields : List (Option String × Json)}
    (h : ∀ field ∈ fields, Integral field.2.tokens) : Integral (Json.object fields).tokens := by
  intro text htext
  have hfields : .number text ∈ fieldTokens fields := by simpa using htext
  obtain ⟨field, hfield, hnumber⟩ := (number_mem_fieldTokens fields).1 hfields
  exact h field hfield text hnumber

/-! ## Reading -/

/-- A reader takes the token in front and goes on behind it. -/
theorem run_cons {reader next : Reader} {token : Token} {tokens : List Token} {cs : List Char}
    (hstep : reader.step token = some next) (hlegible : token.Legible (spelled tokens ++ cs)) :
    reader.run (spelled (token :: tokens) ++ cs) = next.run (spelled tokens ++ cs) := by
  have htoken := next?_text hlegible
  have hfront : next? ((token.text.toList ++ (spelled tokens ++ cs)).dropWhile isBlank)
      = some (token, spelled tokens ++ cs) := by
    rw [dropWhile_isBlank htoken, htoken]
  rw [spelled_cons, List.append_assoc, Reader.run.eq_def]
  -- a reader that is done takes no token
  split
  next => cases hstep
  next =>
      split
      next hnone => cases hfront.symm.trans hnone
      next hsome =>
          cases hfront.symm.trans hsome
          rw [hstep]

/-- A reader that takes the first token of a value inside the given containers. -/
def Reader.Awaits (reader : Reader) (opened : List Open) : Prop :=
  ∀ token, token ≠ .closeArray → reader.step token = Reader.start opened token

theorem awaits_value (opened : List Open) : (Reader.value opened).Awaits opened :=
  fun _ _ => rfl

theorem awaits_firstItem (opened : List Open) :
    (Reader.firstItem opened).Awaits (.array [] :: opened) := by
  intro token hne
  cases token with
  | closeArray => exact absurd rfl hne
  | _ => rfl

/-- A reader that takes a key after the given fields of an object. -/
def Reader.AwaitsKey (reader : Reader) (fields : List (Option String × Json))
    (opened : List Open) : Prop :=
  ∀ text?, reader.step (.string text?) = some (.colon fields text? opened)

theorem awaitsKey_firstKey (opened : List Open) : (Reader.firstKey opened).AwaitsKey [] opened :=
  fun _ => rfl

theorem awaitsKey_key (fields : List (Option String × Json)) (opened : List Open) :
    (Reader.key fields opened).AwaitsKey fields opened :=
  fun _ => rfl

/-- A reader that awaits a key takes the key and the colon, and then awaits the value. -/
theorem run_key {reader : Reader} {fields : List (Option String × Json)} {opened : List Open}
    (hawaits : reader.AwaitsKey fields opened) (key : Option String) (tokens : List Token)
    (cs : List Char) : reader.run (spelled (.string key :: .colon :: tokens) ++ cs)
      = (Reader.value (.object fields key :: opened)).run (spelled tokens ++ cs) := by
  have hcolon : (Reader.colon fields key opened).step .colon
      = some (.value (.object fields key :: opened)) := rfl
  rw [run_cons (hawaits key) trivial, run_cons hcolon trivial]

/-- A comma and the end of a container end a numeral in front of them. -/
theorem ends_spelled {token : Token}
    (htoken : token = .comma ∨ token = .closeArray ∨ token = .closeObject) (tokens : List Token)
    (cs : List Char) : Ends (spelled (token :: tokens) ++ cs) := by
  obtain rfl | rfl | rfl := htoken
  all_goals
    rintro _ ⟨⟩
    decide

mutual

/-- A reader that awaits a value comes to the stage after the value. -/
theorem run_tokens {reader : Reader} {opened : List Open} {cs : List Char}
    (hawaits : reader.Awaits opened) (hends : Ends cs) : ∀ value : Json, Integral value.tokens →
      reader.run (spelled value.tokens ++ cs) = (Reader.supply value opened).run cs
  | .null, _ => run_cons (hawaits .null nofun) trivial
  | .bool b, _ => run_cons (hawaits (.bool b) nofun) trivial
  | .number text, h =>
      run_cons (hawaits (.number text) nofun) ⟨h text (List.mem_singleton.2 rfl), hends⟩
  | .string text?, _ => run_cons (hawaits (.string text?) nofun) trivial
  | .array [], _ => by
      rw [tokens_array, run_cons (hawaits .openArray nofun) trivial]
      exact run_cons rfl trivial
  | .array (item :: items), h => by
      rw [tokens_array] at h
      rw [tokens_array, run_cons (hawaits .openArray nofun) trivial]
      exact run_itemTokens (awaits_firstItem opened) cs (item :: items) nofun h.tail.left
  | .object [], _ => by
      rw [tokens_object, run_cons (hawaits .openObject nofun) trivial]
      exact run_cons rfl trivial
  | .object (field :: fields), h => by
      rw [tokens_object] at h
      rw [tokens_object, run_cons (hawaits .openObject nofun) trivial]
      exact run_fieldTokens (awaitsKey_firstKey opened) cs (field :: fields) nofun h.tail.left

/-- A reader that awaits an item takes all items that are left, and the bracket behind them. -/
theorem run_itemTokens {reader : Reader} {read : List Json} {opened : List Open}
    (hawaits : reader.Awaits (.array read :: opened)) (cs : List Char) :
    ∀ items : List Json, items ≠ [] → Integral (itemTokens items) →
      reader.run (spelled (itemTokens items ++ [.closeArray]) ++ cs)
        = (Reader.supply (.array (read.reverse ++ items)) opened).run cs
  | [], hne, _ => absurd rfl hne
  | [item], _, h => by
      have hclose := ends_spelled (.inr (.inl rfl)) [] cs
      rw [itemTokens, spelled_append, List.append_assoc, run_tokens hawaits hclose item h,
        ← List.reverse_cons]
      exact run_cons rfl trivial
  | item :: next :: items, _, h => by
      have hcomma := fun tokens => ends_spelled (.inl rfl) tokens cs
      -- the item in front joins those that were read, of which the latest stands first
      have hnext := run_itemTokens (awaits_value (.array (item :: read) :: opened)) cs
        (next :: items) nofun h.right.tail
      rw [List.reverse_cons, List.append_assoc, List.singleton_append] at hnext
      rw [itemTokens, List.append_assoc, spelled_append, List.append_assoc, List.cons_append,
        run_tokens hawaits (hcomma _) item h.left, ← hnext]
      · exact run_cons rfl trivial
      · nofun

/-- A reader that awaits a key takes all fields that are left, and the brace behind them. -/
theorem run_fieldTokens {reader : Reader} {read : List (Option String × Json)}
    {opened : List Open} (hawaits : reader.AwaitsKey read opened) (cs : List Char) :
    ∀ fields : List (Option String × Json), fields ≠ [] → Integral (fieldTokens fields) →
      reader.run (spelled (fieldTokens fields ++ [.closeObject]) ++ cs)
        = (Reader.supply (.object (read.reverse ++ fields)) opened).run cs
  | [], hne, _ => absurd rfl hne
  | [(key, value)], _, h => by
      have hclose := ends_spelled (.inr (.inr rfl)) [] cs
      rw [fieldTokens, List.cons_append, List.cons_append, run_key hawaits, spelled_append,
        List.append_assoc, run_tokens (awaits_value _) hclose value h.tail.tail,
        ← List.reverse_cons]
      exact run_cons rfl trivial
  | (key, value) :: next :: fields, _, h => by
      have hcomma := fun tokens => ends_spelled (.inl rfl) tokens cs
      have hnext := run_fieldTokens (awaitsKey_key ((key, value) :: read) opened) cs
        (next :: fields) nofun h.tail.tail.right.tail
      rw [List.reverse_cons, List.append_assoc, List.singleton_append] at hnext
      rw [fieldTokens, List.cons_append, List.cons_append, run_key hawaits, List.append_assoc,
        spelled_append, List.append_assoc, List.cons_append,
        run_tokens (awaits_value _) (hcomma _) value h.tail.tail.left, ← hnext]
      · exact run_cons rfl trivial
      · nofun

end

/-- A value whose numbers are numerals of integers is read back. -/
theorem read?_render {value : Json} (h : Integral value.tokens) :
    read? value.render = some (value, []) := by
  have hends : Ends [] := fun _ => nofun
  have hrun := run_tokens (awaits_value []) hends value h
  rw [List.append_nil, ← toList_render] at hrun
  rw [read?, hrun, Reader.supply, Reader.run]

end StackCodegen.Json
