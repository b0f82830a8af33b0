/-!
# Successful and failing computations

What the parts of a computation did when the whole of it succeeds, and when it fails.
-/

set_option autoImplicit false

namespace StackCodegen

variable {ε α β : Type}

/-- Both parts of a sequence succeed. -/
theorem bind_eq_ok {x : Except ε α} {k : α → Except ε β} {b : β} :
    (x >>= k) = .ok b ↔ ∃ a, x = .ok a ∧ k a = .ok b := by
  cases x with
  | error e =>
      constructor
      · intro h
        cases h
      · rintro ⟨a, h, -⟩
        cases h
  | ok a =>
      constructor
      · intro h
        exact ⟨a, rfl, h⟩
      · rintro ⟨a', h, hk⟩
        cases h
        exact hk

/-- The value behind a mapped one. -/
theorem map_eq_ok {x : Except ε α} {f : α → β} {b : β} :
    f <$> x = .ok b ↔ ∃ a, x = .ok a ∧ f a = b := by
  cases x with
  | error e =>
      constructor
      · intro h
        cases h
      · rintro ⟨a, h, -⟩
        cases h
  | ok a =>
      constructor
      · intro h
        cases h
        exact ⟨a, rfl, rfl⟩
      · rintro ⟨a', h, rfl⟩
        cases h
        rfl

/-- One of the parts of a sequence fails. -/
theorem bind_eq_error {x : Except ε α} {k : α → Except ε β} {e : ε} :
    (x >>= k) = .error e ↔ x = .error e ∨ ∃ a, x = .ok a ∧ k a = .error e := by
  cases x with
  | error e' =>
      constructor
      · intro h
        cases h
        exact .inl rfl
      · rintro (h | ⟨a, h, -⟩)
        · cases h
          rfl
        · cases h
  | ok a =>
      constructor
      · intro h
        exact .inr ⟨a, rfl, h⟩
      · rintro (h | ⟨a', h, hk⟩)
        · cases h
        · cases h
          exact hk

/-- The error behind a mapped one. -/
theorem map_eq_error {x : Except ε α} {f : α → β} {e : ε} :
    f <$> x = .error e ↔ x = .error e := by
  cases x with
  | error e' =>
      constructor
      · intro h
        cases h
        rfl
      · intro h
        cases h
        rfl
  | ok a =>
      constructor
      · intro h
        cases h
      · intro h
        cases h

/-- What a map of a failing function over a list did, element by element. -/
theorem mapM_eq_ok {f : α → Except ε β} {list : List α} {result : List β}
    (h : list.mapM f = .ok result) :
    result.length = list.length ∧
      ∀ (k : Nat) (a : α), list[k]? = some a → ∃ b, f a = .ok b ∧ result[k]? = some b := by
  induction list generalizing result with
  | nil =>
      cases h
      exact ⟨rfl, fun k a ha => by simp at ha⟩
  | cons head list ih =>
      rw [List.mapM_cons] at h
      obtain ⟨b, hb, h⟩ := bind_eq_ok.1 h
      obtain ⟨rest, hrest, h⟩ := bind_eq_ok.1 h
      cases h
      obtain ⟨hlength, hmap⟩ := ih hrest
      refine ⟨by rw [List.length_cons, List.length_cons, hlength], ?_⟩
      intro k a ha
      cases k with
      | zero =>
          cases ha
          exact ⟨b, hb, rfl⟩
      | succ k => exact hmap k a ha

/-- A map over a list fails with the error of the first element that fails. -/
theorem mapM_eq_error {f : α → Except ε β} {list : List α} {e : ε} :
    list.mapM f = .error e ↔ ∃ front a back, list = front ++ a :: back ∧
      (∀ b ∈ front, ∃ c, f b = .ok c) ∧ f a = .error e := by
  induction list with
  | nil =>
      rw [List.mapM_nil]
      constructor
      · intro h
        cases h
      · rintro ⟨front, a, back, hlist, -⟩
        simp at hlist
  | cons head list ih =>
      rw [List.mapM_cons, bind_eq_error]
      constructor
      · rintro (hhead | ⟨c, hhead, hrest⟩)
        · exact ⟨[], head, list, rfl, fun _ h => absurd h List.not_mem_nil, hhead⟩
        · rcases bind_eq_error.1 hrest with hrest | ⟨_, -, hdone⟩
          · obtain ⟨front, a, back, rfl, hfront, ha⟩ := ih.1 hrest
            refine ⟨head :: front, a, back, rfl, fun b hb => ?_, ha⟩
            rcases List.mem_cons.1 hb with rfl | hb
            · exact ⟨c, hhead⟩
            · exact hfront b hb
          · cases hdone
      · rintro ⟨front, a, back, hlist, hfront, ha⟩
        cases front with
        | nil =>
            cases hlist
            exact .inl ha
        | cons b front =>
            cases hlist
            obtain ⟨c, hc⟩ := hfront _ List.mem_cons_self
            refine .inr ⟨c, hc, bind_eq_error.2 (.inl (ih.2 ⟨front, a, back, rfl, ?_, ha⟩))⟩
            exact fun b hb => hfront b (List.mem_cons_of_mem _ hb)

/-- A computation that never fails succeeds. -/
theorem exists_ok_iff {x : Except ε α} : (∃ a, x = .ok a) ↔ ∀ e, x ≠ .error e := by
  cases x with
  | error e =>
      constructor
      · rintro ⟨a, h⟩
        cases h
      · exact fun h => absurd rfl (h e)
  | ok a =>
      constructor
      · intro _ e h
        cases h
      · exact fun _ => ⟨a, rfl⟩

/-- A computation that is seen to succeed has a value. -/
theorem exists_ok_of_toBool {x : Except ε α} (h : x.toBool = true) : ∃ a, x = .ok a := by
  cases x with
  | error e => cases h
  | ok a => exact ⟨a, rfl⟩

end StackCodegen
