import StackCodegen.Program.Variables
import Mathlib.Data.List.Duplicate
import Mathlib.Data.List.Nodup
import Mathlib.Data.List.NodupEquivFin
import Mathlib.Data.Nat.Find
import Std.Data.TreeMap

/-!
# Variables of a body are named once

The first elements of each key have pairwise different keys (`nodup_distinctBy`), every key is among
them (`exists_mem_firstByKey`), and nothing of the same key stands in front of them
(`split_of_mem_distinctBy`). So numbered names keep the number of their first place
(`mem_distinctBy_zipIdx_iff`).

A map made of entries of different names holds those entries (`getElem?_ofList`); where names
repeat, the last entry of a name is the one that is held (`getElem?_ofList_zip`).
-/

set_option autoImplicit false

namespace StackCodegen

/-- The seen keys stay those of the kept elements. -/
theorem seen_push {α : Type} {key : α → String} {seen : Std.TreeSet String} {kept : Array α}
    (hseen : ∀ k, seen.contains k = true ↔ k ∈ kept.toList.map key) (a : α) (k : String) :
    (seen.insert (key a)).contains k = true ↔ k ∈ (kept.push a).toList.map key := by
  rw [Std.TreeSet.contains_insert, Bool.or_eq_true, hseen, Array.toList_push, List.map_append,
    List.mem_append]
  simp only [beq_iff_eq, Std.compare_eq_iff_eq, List.map_cons, List.map_nil, List.mem_singleton]
  rw [or_comm, eq_comm]

/-- Kept elements have pairwise different keys throughout the scan. -/
theorem nodup_firstByKey {α : Type} (key : α → String) (elements : List α)
    (seen : Std.TreeSet String) (kept : Array α)
    (hseen : ∀ k, seen.contains k = true ↔ k ∈ kept.toList.map key)
    (hkept : (kept.toList.map key).Nodup) :
    ((firstByKey key seen kept elements).map key).Nodup := by
  induction elements generalizing seen kept with
  | nil => exact hkept
  | cons a elements ih =>
      rw [firstByKey]
      split
      · exact ih seen kept hseen hkept
      next hnew =>
          have hfresh : key a ∉ kept.toList.map key := fun hmem => hnew ((hseen _).2 hmem)
          refine ih _ _ (seen_push hseen a) ?_
          rw [Array.toList_push, List.map_append, List.nodup_append]
          refine ⟨hkept, by simp, ?_⟩
          rintro k hk k' hk' rfl
          rw [List.map_cons, List.map_nil, List.mem_singleton] at hk'
          exact hfresh (hk' ▸ hk)

theorem nodup_distinctBy {α : Type} (key : α → String) (elements : List α) :
    ((distinctBy key elements).map key).Nodup :=
  nodup_firstByKey key elements ∅ #[] (by simp) (by simp)

/-- A body names each of its variables once. -/
theorem Body.nodup_variableNames (body : Body) : body.variableNames.Nodup := by
  have h := nodup_distinctBy id (body.toList.filterMap Statement.variableName?)
  rwa [List.map_id] at h

/-- An element is kept at the first place of its key, if the key was not seen before. -/
theorem split_of_mem_firstByKey {α : Type} {key : α → String} (elements : List α)
    {seen : Std.TreeSet String} {kept : Array α} {a : α}
    (h : a ∈ firstByKey key seen kept elements) :
    a ∈ kept.toList ∨ seen.contains (key a) = false ∧
      ∃ front back, elements = front ++ a :: back ∧ ∀ b ∈ front, key b ≠ key a := by
  induction elements generalizing seen kept with
  | nil => exact .inl h
  | cons head elements ih =>
      rw [firstByKey] at h
      split at h
      next hold =>
          rcases ih h with hkept | ⟨hnew, front, back, rfl, hfront⟩
          · exact .inl hkept
          · refine .inr ⟨hnew, head :: front, back, rfl, ?_⟩
            intro b hb heq
            rcases List.mem_cons.1 hb with rfl | hb
            · rw [← heq, hold] at hnew
              cases hnew
            · exact hfront b hb heq
      next hfresh =>
          rcases ih h with hkept | ⟨hnew, front, back, rfl, hfront⟩
          · rw [Array.toList_push] at hkept
            rcases List.mem_append.1 hkept with hkept | hhead
            · exact .inl hkept
            · rw [List.mem_singleton.1 hhead]
              exact .inr ⟨Bool.not_eq_true _ ▸ hfresh, [], elements, rfl, by simp⟩
          · rw [Std.TreeSet.contains_insert, Bool.or_eq_false_iff] at hnew
            refine .inr ⟨hnew.2, head :: front, back, rfl, ?_⟩
            intro b hb heq
            rcases List.mem_cons.1 hb with rfl | hb
            · simp [heq] at hnew
            · exact hfront b hb heq

/-- The first element of a key is the one that is kept. -/
theorem split_of_mem_distinctBy {α : Type} {key : α → String} {elements : List α} {a : α}
    (h : a ∈ distinctBy key elements) :
    ∃ front back, elements = front ++ a :: back ∧ ∀ b ∈ front, key b ≠ key a :=
  ((split_of_mem_firstByKey elements h).resolve_left (by simp)).2

/-- Every key is kept throughout the scan. -/
theorem exists_mem_firstByKey {α : Type} (key : α → String) (elements : List α)
    (seen : Std.TreeSet String) (kept : Array α)
    (hseen : ∀ k, seen.contains k = true ↔ k ∈ kept.toList.map key) {a : α}
    (ha : a ∈ kept.toList ∨ a ∈ elements) :
    ∃ b ∈ firstByKey key seen kept elements, key b = key a := by
  induction elements generalizing seen kept a with
  | nil => exact ⟨a, ha.resolve_right List.not_mem_nil, rfl⟩
  | cons head elements ih =>
      rw [firstByKey]
      split
      next hold =>
          rcases ha with ha | ha
          · exact ih seen kept hseen (.inl ha)
          · rcases List.mem_cons.1 ha with rfl | ha
            · obtain ⟨b, hb, hkey⟩ := List.mem_map.1 ((hseen _).1 hold)
              rw [← hkey]
              exact ih seen kept hseen (.inl hb)
            · exact ih seen kept hseen (.inr ha)
      next =>
          refine ih _ _ (seen_push hseen head) ?_
          rcases ha with ha | ha
          · exact .inl (by simp [ha])
          · rcases List.mem_cons.1 ha with rfl | ha
            · exact .inl (by simp)
            · exact .inr ha

/-- A body names the variables of its statements. -/
theorem Body.mem_variableNames {body : Body} {statement : Statement} {name : String}
    (h : statement ∈ body.toList) (hname : statement.variableName? = some name) :
    name ∈ body.variableNames := by
  have hmem : name ∈ body.toList.filterMap Statement.variableName? :=
    List.mem_filterMap.2 ⟨statement, h, hname⟩
  obtain ⟨b, hb, rfl⟩ := exists_mem_firstByKey id (body.toList.filterMap Statement.variableName?)
    ∅ #[] (by simp) (.inr hmem)
  exact hb

/-! ## Places of names -/

/-- The first place of an element in a list. -/
def FirstAt {α : Type} (list : List α) (a : α) (i : Nat) : Prop :=
  list[i]? = some a ∧ ∀ j < i, list[j]? ≠ some a

/-- The last place of an element in a list. -/
def LastAt {α : Type} (list : List α) (a : α) (i : Nat) : Prop :=
  list[i]? = some a ∧ ∀ j, i < j → list[j]? ≠ some a

section Places

variable {α : Type} {list : List α} {a : α} {i j : Nat}

theorem FirstAt.unique (h : FirstAt list a i) (h' : FirstAt list a j) : i = j := by
  rcases Nat.lt_trichotomy i j with hlt | heq | hlt
  · exact absurd h.1 (h'.2 i hlt)
  · exact heq
  · exact absurd h'.1 (h.2 j hlt)

/-- An element that is nowhere else has one place only. -/
theorem eq_of_nodup (hnodup : list.Nodup) (h : list[i]? = some a) (h' : list[j]? = some a) :
    i = j := by
  obtain ⟨hi, -⟩ := List.getElem?_eq_some_iff.1 h
  exact (List.getElem?_inj hi hnodup).1 (h.trans h'.symm)

theorem firstAt_of_nodup (hnodup : list.Nodup) (h : list[i]? = some a) : FirstAt list a i :=
  ⟨h, fun _ hlt h' => Nat.ne_of_lt hlt (eq_of_nodup hnodup h' h)⟩

theorem exists_firstAt (h : a ∈ list) : ∃ i, FirstAt list a i := by
  classical
  have hplace : ∃ i, list[i]? = some a := List.getElem?_of_mem h
  exact ⟨Nat.find hplace, Nat.find_spec hplace, fun j hj => Nat.find_min hplace hj⟩

theorem exists_lastAt (h : a ∈ list) : ∃ i, LastAt list a i := by
  -- a place in the tail comes behind the head, so the head counts only where the tail has none
  induction list with
  | nil => cases h
  | cons head tail ih =>
      by_cases htail : a ∈ tail
      · obtain ⟨i, hi, hlast⟩ := ih htail
        refine ⟨i + 1, by rwa [List.getElem?_cons_succ], ?_⟩
        intro j hj
        obtain ⟨j, rfl⟩ := Nat.exists_eq_add_one_of_ne_zero (Nat.ne_of_gt (Nat.zero_lt_of_lt hj))
        rw [List.getElem?_cons_succ]
        exact hlast j (Nat.lt_of_succ_lt_succ hj)
      · have hhead : head = a := ((List.mem_cons.1 h).resolve_right htail).symm
        refine ⟨0, by rw [hhead]; rfl, ?_⟩
        intro j hj
        obtain ⟨j, rfl⟩ := Nat.exists_eq_add_one_of_ne_zero (Nat.ne_of_gt hj)
        rw [List.getElem?_cons_succ]
        exact fun hget => htail (List.mem_of_getElem? hget)

/-- The first place of an element is its last one if and only if the element comes once. -/
theorem firstAt_eq_lastAt_iff (hi : FirstAt list a i) (hj : LastAt list a j) :
    i = j ↔ ¬ list.Duplicate a := by
  constructor
  · -- of two places of an element one is not the first, or the other is not the last
    rintro rfl hduplicate
    obtain ⟨n, m, hlt, hn, hm⟩ := List.duplicate_iff_exists_distinct_get.1 hduplicate
    have hfirst : i ≤ n := Nat.le_of_not_lt fun h =>
      hi.2 n h (List.getElem?_eq_some_iff.2 ⟨n.isLt, hn.symm⟩)
    have hlast : (m : Nat) ≤ i := Nat.le_of_not_lt fun h =>
      hj.2 m h (List.getElem?_eq_some_iff.2 ⟨m.isLt, hm.symm⟩)
    have : (n : Nat) < m := hlt
    omega
  · intro honce
    obtain ⟨hlti, hgeti⟩ := List.getElem?_eq_some_iff.1 hi.1
    obtain ⟨hltj, hgetj⟩ := List.getElem?_eq_some_iff.1 hj.1
    have hle : i ≤ j := Nat.le_of_not_lt fun h => hi.2 j h hj.1
    refine Nat.le_antisymm hle (Nat.le_of_not_lt fun hlt => honce ?_)
    exact List.duplicate_iff_exists_distinct_get.2
      ⟨⟨i, hlti⟩, ⟨j, hltj⟩, hlt, hgeti.symm, hgetj.symm⟩

end Places

/-- Of numbered names those are kept that stand at the first place of their name. -/
theorem mem_distinctBy_zipIdx_iff {names : List String} {name : String} {i : Nat} :
    (name, i) ∈ distinctBy Prod.fst names.zipIdx ↔ FirstAt names name i := by
  have hfirst : ∀ {i : Nat}, (name, i) ∈ distinctBy Prod.fst names.zipIdx →
      FirstAt names name i := by
    intro i h
    obtain ⟨front, back, hsplit, hfront⟩ := split_of_mem_distinctBy h
    have hget : ∀ j : Nat, names.zipIdx[j]? = some (name, i) → names[j]? = some name ∧ j = i := by
      intro j hj
      rw [List.getElem?_zipIdx, Option.map_eq_some_iff] at hj
      obtain ⟨name', hname, heq⟩ := hj
      rw [Prod.mk.injEq] at heq
      exact ⟨hname.trans (congrArg some heq.1), by omega⟩
    obtain ⟨hname, hlength⟩ := hget front.length (by
      rw [hsplit, List.getElem?_append_right (Nat.le_refl _), Nat.sub_self]
      rfl)
    rw [hlength] at hname
    refine ⟨hname, ?_⟩
    -- an earlier place of the name would be an element of the same key
    intro j hj hearlier
    have hmem : names.zipIdx[j]? = some (name, j) := by
      rw [List.getElem?_zipIdx, hearlier, Option.map_some, Nat.zero_add]
    rw [hsplit, List.getElem?_append_left (by omega)] at hmem
    exact hfront _ (List.mem_of_getElem? hmem) rfl
  constructor
  · exact hfirst
  · intro h
    have hmem : (name, i) ∈ names.zipIdx := List.mem_zipIdx_iff_getElem?.2 h.1
    obtain ⟨⟨_, j⟩, hkept, rfl⟩ :=
      exists_mem_firstByKey Prod.fst names.zipIdx ∅ #[] (by simp) (.inr hmem)
    rw [h.unique (hfirst hkept)]
    exact hkept

/-! ## Maps made of entries -/

/-- A map made of entries of different names holds those entries. -/
theorem getElem?_ofList {β : Type} {entries : List (String × β)}
    (h : (entries.map Prod.fst).Nodup) {name : String} {b : β} :
    (Std.TreeMap.ofList entries)[name]? = some b ↔ (name, b) ∈ entries := by
  have hpairwise : entries.Pairwise fun a b => ¬ compare a.1 b.1 = .eq := by
    refine (List.pairwise_map.1 h).imp ?_
    intro a b hne
    rw [Std.compare_eq_iff_eq]
    exact hne
  constructor
  · intro hget
    by_cases hmem : ∃ b', (name, b') ∈ entries
    · obtain ⟨b', hb'⟩ := hmem
      rw [Std.TreeMap.getElem?_ofList_of_mem Std.ReflCmp.compare_self hpairwise hb'] at hget
      cases hget
      exact hb'
    · have hnot : (entries.map Prod.fst).contains name = false := by
        rw [List.contains_eq_mem, decide_eq_false_iff_not]
        intro hname
        obtain ⟨⟨_, b'⟩, hentry, rfl⟩ := List.mem_map.1 hname
        exact hmem ⟨b', hentry⟩
      rw [Std.TreeMap.getElem?_ofList_of_contains_eq_false hnot] at hget
      cases hget
  · intro hmem
    exact Std.TreeMap.getElem?_ofList_of_mem Std.ReflCmp.compare_self hpairwise hmem

/-- An entry is held if its name does not come again. -/
theorem getElem?_ofList_append {β : Type} {front back : List (String × β)} {name : String} {b : β}
    (h : name ∉ back.map Prod.fst) :
    (Std.TreeMap.ofList (front ++ (name, b) :: back))[name]? = some b := by
  have hback : (back.map Prod.fst).contains name = false := by
    rw [List.contains_eq_mem, decide_eq_false_iff_not]
    exact h
  have hsplit : front ++ (name, b) :: back = front ++ [(name, b)] ++ back := by simp
  rw [Std.TreeMap.ofList_eq_insertMany_empty, hsplit, Std.TreeMap.insertMany_append,
    Std.TreeMap.getElem?_insertMany_list_of_contains_eq_false hback, Std.TreeMap.insertMany_append,
    Std.TreeMap.insertMany_list_singleton, Std.TreeMap.getElem?_insert_self]

/-- Of several entries of a name the last one is held. -/
theorem getElem?_ofList_zip {β : Type} {names : List String} {values : List β}
    (hlength : values.length = names.length) {name : String} {i : Nat} (h : LastAt names name i) :
    (Std.TreeMap.ofList (names.zip values))[name]? = values[i]? := by
  obtain ⟨hi, hname⟩ := List.getElem?_eq_some_iff.1 h.1
  have hi' : i < values.length := by omega
  -- names and values are cut at the last place of the name
  have hnames : names = names.take i ++ name :: names.drop (i + 1) := by
    rw [← hname, ← List.drop_eq_getElem_cons hi, List.take_append_drop]
  have hvalues : values = values.take i ++ values[i] :: values.drop (i + 1) := by
    rw [← List.drop_eq_getElem_cons hi', List.take_append_drop]
  have hzip : names.zip values = (names.take i).zip (values.take i) ++
      (name, values[i]) :: (names.drop (i + 1)).zip (values.drop (i + 1)) := by
    conv_lhs => rw [hnames, hvalues]
    rw [List.zip_append (by rw [List.length_take, List.length_take, hlength]), List.zip_cons_cons]
  have hlast : name ∉ ((names.drop (i + 1)).zip (values.drop (i + 1))).map Prod.fst := by
    rw [List.map_fst_zip (by rw [List.length_drop, List.length_drop]; omega)]
    intro hmem
    obtain ⟨j, hj⟩ := List.getElem?_of_mem hmem
    rw [List.getElem?_drop] at hj
    exact h.2 _ (by omega) hj
  rw [hzip, getElem?_ofList_append hlast, List.getElem?_eq_getElem hi']

end StackCodegen
