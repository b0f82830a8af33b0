import StackCodegen.Proofs.ClassFile.PoolCalls
import Mathlib.Data.List.Induction

/-!
# Room for calls

A call for a kind of constant adds its parts and then itself, each unless it is there. So the
constants of a pool that was new are the parts of the calls that were made, each once, in the order
in which they were first asked for (`Spells`); a constant is described by the call that asks for it,
with texts in place of indices.

Main statement: there is room for a row of calls in a new pool if and only if no text is too long
and the parts of the calls are no more than a pool holds (`roomFor_empty_iff`).
-/

set_option autoImplicit false

namespace StackCodegen.ClassFile

namespace ConstantPool

/-! ## Parts -/

/-- What a call adds to a pool that holds nothing of it, in order. -/
def Call.parts : Call → List Call
  | add constant => [add constant]
  | utf8 text => [utf8 text]
  | integer value => [integer value]
  | classRef name => [utf8 name, classRef name]
  | nameAndType name descriptor => [utf8 name, utf8 descriptor, nameAndType name descriptor]
  | fieldRef owner name descriptor =>
    [utf8 owner, classRef owner, utf8 name, utf8 descriptor, nameAndType name descriptor,
      fieldRef owner name descriptor]
  | methodRef owner name descriptor =>
    [utf8 owner, classRef owner, utf8 name, utf8 descriptor, nameAndType name descriptor,
      methodRef owner name descriptor]

/-- The constants that a row of calls on a new pool leads to, each once, in order. -/
def distinctParts (calls : List Call) : List Call := (calls.flatMap Call.parts).eraseDups

/-- One more element is put behind the others, if it is new. -/
theorem eraseDups_append_singleton {α : Type} [DecidableEq α] (list : List α) (a : α) :
    (list ++ [a]).eraseDups = if a ∈ list then list.eraseDups else list.eraseDups ++ [a] := by
  rw [List.eraseDups_append]
  split
  next hold => simp [List.removeAll, hold]
  next hnew =>
      simp only [List.removeAll, List.filter_cons, List.elem_eq_mem, hnew, decide_false,
        Bool.not_false, if_true, List.filter_nil]
      rw [List.eraseDups_cons, List.filter_nil, List.eraseDups_nil]

theorem nodup_eraseDups {α : Type} [DecidableEq α] (list : List α) : list.eraseDups.Nodup := by
  induction list using List.reverseRecOn with
  | nil => exact List.nodup_nil
  | append_singleton list a ih =>
      rw [eraseDups_append_singleton]
      split
      next => exact ih
      next hnew =>
          refine List.nodup_append.2 ⟨ih, List.nodup_singleton a, fun b hb b' hb' heq => hnew ?_⟩
          rw [← List.mem_singleton.1 hb', ← heq]
          exact List.mem_eraseDups.1 hb

theorem length_eraseDups_le_append {α : Type} [DecidableEq α] (list more : List α) :
    list.eraseDups.length ≤ (list ++ more).eraseDups.length := by
  rw [List.eraseDups_append, List.length_append]
  exact Nat.le_add_right _ _

/-! ## What a pool says -/

section Found

variable {pool : ConstantPool} {index index' : UInt16}

/-- A constant has one index. -/
theorem index_unique {constant : Constant} (h : pool.get? index = some constant)
    (h' : pool.get? index' = some constant) : index = index' := by
  obtain ⟨i, rfl, hi⟩ := get?_eq_some_iff.1 h
  obtain ⟨j, rfl, hj⟩ := get?_eq_some_iff.1 h'
  rw [position_unique hi hj]

theorem HoldsClass.inj {name name' : String} (h : pool.HoldsClass index name)
    (h' : pool.HoldsClass index name') : name = name' := by
  obtain ⟨text, hindex, hname⟩ := h
  obtain ⟨text', hindex', hname'⟩ := h'
  cases hindex.symm.trans hindex'
  cases hname.symm.trans hname'
  rfl

theorem HoldsMember.inj {name name' descriptor descriptor' : String}
    (h : pool.HoldsMember index name descriptor) (h' : pool.HoldsMember index name' descriptor') :
    name = name' ∧ descriptor = descriptor' := by
  obtain ⟨text, text', hindex, hname, hdescriptor⟩ := h
  obtain ⟨_, _, hindex', hname', hdescriptor'⟩ := h'
  cases hindex.symm.trans hindex'
  cases hname.symm.trans hname'
  cases hdescriptor.symm.trans hdescriptor'
  exact ⟨rfl, rfl⟩

/-- The constant at an index is of the kind that was asked for there. -/
theorem Call.FoundAt.rank {call : Call} (htyped : call.isTyped = true)
    (h : call.FoundAt pool index) : ∃ constant, pool.get? index = some constant ∧
      constant.rank = match call with
        | add constant => constant.rank
        | utf8 _ => 0
        | integer _ => 1
        | classRef _ => 2
        | nameAndType .. => 3
        | fieldRef .. => 4
        | methodRef .. => 5 := by
  cases call with
  | add constant => cases htyped
  | utf8 text | integer value => exact ⟨_, h, rfl⟩
  | classRef name =>
      obtain ⟨text, hindex, -⟩ := h
      exact ⟨_, hindex, rfl⟩
  | nameAndType name descriptor =>
      obtain ⟨text, text', hindex, -⟩ := h
      exact ⟨_, hindex, rfl⟩
  | fieldRef owner name descriptor | methodRef owner name descriptor =>
      obtain ⟨class', member, hindex, -⟩ := h
      exact ⟨_, hindex, rfl⟩

/-- A member of a class has one spelling, whatever constants it is made of. -/
theorem reference_inj {make : UInt16 → UInt16 → Constant}
    (hmake : ∀ a b a' b', make a b = make a' b' → a = a' ∧ b = b')
    {owner name descriptor owner' name' descriptor' : String}
    (h : ∃ class' member, pool.get? index = some (make class' member) ∧
      pool.HoldsClass class' owner ∧ pool.HoldsMember member name descriptor)
    (h' : ∃ class' member, pool.get? index = some (make class' member) ∧
      pool.HoldsClass class' owner' ∧ pool.HoldsMember member name' descriptor') :
    owner = owner' ∧ name = name' ∧ descriptor = descriptor' := by
  obtain ⟨class', member, hindex, howner, hmember⟩ := h
  obtain ⟨_, _, hindex', howner', hmember'⟩ := h'
  obtain ⟨rfl, rfl⟩ := hmake _ _ _ _ (Option.some.inj (hindex.symm.trans hindex'))
  exact ⟨howner.inj howner', hmember.inj hmember'⟩

/-- One index answers one call. -/
theorem Call.FoundAt.inj {call call' : Call} (htyped : call.isTyped = true)
    (htyped' : call'.isTyped = true) (h : call.FoundAt pool index)
    (h' : call'.FoundAt pool index) : call = call' := by
  obtain ⟨constant, hget, hrank⟩ := h.rank htyped
  obtain ⟨constant', hget', hrank'⟩ := h'.rank htyped'
  cases hget.symm.trans hget'
  -- calls of different kinds find constants of different ranks
  have hsame := hrank.symm.trans hrank'
  cases call with
  | add constant => cases htyped
  | utf8 text =>
      cases call' with
      | add constant => cases htyped'
      | utf8 text' =>
          cases (Option.some.inj (h.symm.trans h' : some (Constant.utf8 text) = some (.utf8 text')))
          rfl
      | _ => cases hsame
  | integer value =>
      cases call' with
      | add constant => cases htyped'
      | integer value' =>
          cases (Option.some.inj
            (h.symm.trans h' : some (Constant.integer value) = some (.integer value')))
          rfl
      | _ => cases hsame
  | classRef name =>
      cases call' with
      | add constant => cases htyped'
      | classRef name' => rw [HoldsClass.inj h h']
      | _ => cases hsame
  | nameAndType name descriptor =>
      cases call' with
      | add constant => cases htyped'
      | nameAndType name' descriptor' =>
          obtain ⟨rfl, rfl⟩ := HoldsMember.inj h h'
          rfl
      | _ => cases hsame
  | fieldRef owner name descriptor =>
      cases call' with
      | add constant => cases htyped'
      | fieldRef owner' name' descriptor' =>
          obtain ⟨rfl, rfl, rfl⟩ := reference_inj (by simp) h h'
          rfl
      | _ => cases hsame
  | methodRef owner name descriptor =>
      cases call' with
      | add constant => cases htyped'
      | methodRef owner' name' descriptor' =>
          obtain ⟨rfl, rfl, rfl⟩ := reference_inj (by simp) h h'
          rfl
      | _ => cases hsame

end Found

/-- A pool whose constants are the given parts, each once and in order. -/
structure Spells (pool : ConstantPool) (parts : List Call) : Prop where
  length_eq : parts.eraseDups.length = pool.size
  typed : ∀ part ∈ parts, part.isTyped = true
  found : ∀ (i : Nat) (part : Call), parts.eraseDups[i]? = some part →
    part.FoundAt pool (.ofNat (i + 1))

theorem spells_empty : empty.Spells [] := by
  refine ⟨rfl, fun part h => absurd h List.not_mem_nil, fun i part h => ?_⟩
  rw [List.eraseDups_nil, List.getElem?_nil] at h
  cases h

/-- A part is spelled by a constant, in a pool and in all that start with it. -/
def SpelledBy (part : Call) (constant : Constant) (pool : ConstantPool) : Prop :=
  ∀ later, IsPrefix pool later → ∀ index,
    part.FoundAt later index ↔ later.get? index = some constant

section Spells

variable {pool : ConstantPool} {parts : List Call}

/-- What a pool spells is found in it. -/
theorem Spells.exists_foundAt (h : pool.Spells parts) {part : Call} (hmem : part ∈ parts) :
    ∃ index, part.FoundAt pool index := by
  obtain ⟨i, hi⟩ := List.getElem?_of_mem (List.mem_eraseDups.2 hmem)
  exact ⟨_, h.found i part hi⟩

/-- What is found in a pool is where it is spelled. -/
theorem Spells.getElem?_of_foundAt (h : pool.Spells parts) {part : Call}
    (htyped : part.isTyped = true) {index : UInt16} (hfound : part.FoundAt pool index) :
    parts.eraseDups[index.toNat - 1]? = some part := by
  obtain ⟨constant, hget⟩ := hfound.exists_get?
  obtain ⟨i, rfl, hi⟩ := get?_eq_some_iff.1 hget
  have hlt : i < pool.size := (Array.getElem?_eq_some_iff.1 hi).1
  obtain ⟨other, hspelled⟩ : ∃ other, parts.eraseDups[i]? = some other :=
    ⟨_, List.getElem?_eq_getElem (h.length_eq ▸ hlt)⟩
  have hmem : other ∈ parts := List.mem_eraseDups.1 (List.mem_of_getElem? hspelled)
  have hsame := (h.found i _ hspelled).inj (h.typed _ hmem) htyped hfound
  rw [toNat_index (Nat.lt_of_lt_of_le hlt pool.size_le), Nat.add_sub_cancel, hspelled, hsame]

/-- The index of what is found is its place among the parts, counted from 1. -/
theorem Spells.index_eq (h : pool.Spells parts) {part : Call} (htyped : part.isTyped = true)
    {index : UInt16} (hfound : part.FoundAt pool index) :
    index.toNat = parts.eraseDups.idxOf part + 1 := by
  have hget := h.getElem?_of_foundAt htyped hfound
  obtain ⟨hlt, hpart⟩ := List.getElem?_eq_some_iff.1 hget
  obtain ⟨constant, hconstant⟩ := hfound.exists_get?
  have hplace := (nodup_eraseDups parts).idxOf_getElem _ hlt
  rw [hpart] at hplace
  rw [hplace, Nat.sub_add_cancel (index_bounds hconstant).1]

/-- A part that is added is spelled behind the others, if it is new and there is room. -/
theorem Spells.add (h : pool.Spells parts) {part : Call} {constant : Constant}
    (htyped : part.isTyped = true) (hspelled : SpelledBy part constant pool) :
    (∀ index, ((ConstantPool.add constant).run pool).1 = .ok index →
        ((ConstantPool.add constant).run pool).2.Spells (parts ++ [part])) ∧
      ∀ e, ((ConstantPool.add constant).run pool).1 = .error e →
        65534 < (parts ++ [part]).eraseDups.length := by
  have hall : ∀ p ∈ parts ++ [part], p.isTyped = true := fun p hp =>
    (List.mem_append.1 hp).elim (h.typed p) fun hlast => List.mem_singleton.1 hlast ▸ htyped
  rw [eraseDups_append_singleton]
  by_cases hmem : part ∈ parts
  · -- a part that is spelled is found, and nothing is added
    obtain ⟨index, hfound⟩ := h.exists_foundAt hmem
    rw [add_of_get? ((hspelled pool (IsPrefix.refl _) index).1 hfound), if_pos hmem]
    refine ⟨fun _ _ => ⟨?_, hall, ?_⟩, fun e herror => ?_⟩
    · rw [eraseDups_append_singleton, if_pos hmem]
      exact h.length_eq
    · rw [eraseDups_append_singleton, if_pos hmem]
      exact h.found
    · cases herror
  · rw [if_neg hmem]
    rcases add_cases constant pool with
      ⟨i, hi, -⟩ | ⟨-, ⟨hfull, hrun⟩ | ⟨hroom, pool', hentries, hrun⟩⟩
    · -- a constant that is there would be spelled as this part
      have hget : pool.get? (.ofNat (i + 1)) = some constant := get?_eq_some_iff.2 ⟨i, rfl, hi⟩
      have hfound := (hspelled pool (IsPrefix.refl _) _).2 hget
      have hplaced := List.mem_of_getElem? (h.getElem?_of_foundAt htyped hfound)
      exact absurd (List.mem_eraseDups.1 hplaced) hmem
    · rw [hrun, List.length_append, h.length_eq, hfull]
      refine ⟨fun index hindex => ?_, fun e herror => ?_⟩
      · cases hindex
      · rw [List.length_singleton]
        exact Nat.lt_succ_self _
    · rw [hrun]
      refine ⟨fun _ _ => ⟨?_, hall, ?_⟩, fun e herror => ?_⟩
      · rw [eraseDups_append_singleton, if_neg hmem, List.length_append, h.length_eq, size, size,
          hentries, Array.size_push]
        rfl
      · have hprefix : IsPrefix pool pool' := by
          rw [IsPrefix, hentries, Array.toList_push]
          exact List.prefix_append _ _
        intro i p hp
        rw [eraseDups_append_singleton, if_neg hmem, List.getElem?_append] at hp
        split at hp
        next => exact (h.found i p hp).later hprefix
        next hlast =>
            -- the last part is at the end of the pool
            have hi : i = parts.eraseDups.length := by
              have := (List.getElem?_eq_some_iff.1 hp).1
              rw [List.length_singleton] at this
              omega
            rw [hi, Nat.sub_self] at hp
            cases hp
            refine (hspelled pool' hprefix _).2 (get?_eq_some_iff.2 ⟨i, rfl, ?_⟩)
            rw [hentries, hi, h.length_eq]
            exact Array.getElem?_push_size
      · cases herror

end Spells

/-! ## What calls spell -/

/-- A computation that puts the given parts behind those of a pool where it succeeds; where it fails,
one of its texts is too long, or the parts are too many. -/
structure Writes {α : Type} (P : ConstantPool → Prop) (more : List Call) (texts : List String)
    (x : Interning α) : Prop where
  succeeds : ∀ pool parts, P pool → pool.Spells parts → ∀ a, (x.run pool).1 = .ok a →
    (x.run pool).2.Spells (parts ++ more) ∧
      ∀ text ∈ texts, (ModifiedUtf8.encode text).length ≤ 65535
  fails : ∀ pool parts, P pool → pool.Spells parts → ∀ e, (x.run pool).1 = .error e →
    (∃ text ∈ texts, 65535 < (ModifiedUtf8.encode text).length) ∨
      65534 < (parts ++ more).eraseDups.length

section Writes

variable {α β : Type} {P : ConstantPool → Prop} {Q : α → ConstantPool → Prop}
  {more more' : List Call} {texts texts' : List String}

theorem Writes.bind {x : Interning α} {k : α → Interning β} (hx : Writes P more texts x)
    (hlays : Lays P x Q) (hk : ∀ a, Writes (Q a) more' texts' (k a)) :
    Writes P (more ++ more') (texts ++ texts') (x >>= k) := by
  refine ⟨fun pool parts hpool hspells b hb => ?_, fun pool parts hpool hspells e herror => ?_⟩
  · have hfirst := hx.succeeds pool parts hpool hspells
    have hresult := hlays.result pool hpool
    rw [run_bind] at hb ⊢
    rcases hrun : x.run pool with ⟨e | a, mid⟩
    · rw [hrun] at hb
      cases hb
    · rw [hrun] at hb hfirst hresult
      obtain ⟨hmid, htexts⟩ := hfirst a rfl
      obtain ⟨hlast, htexts'⟩ := (hk a).succeeds mid _ (hresult a rfl) hmid b hb
      rw [List.append_assoc] at hlast
      exact ⟨hlast, fun text htext => (List.mem_append.1 htext).elim (htexts text) (htexts' text)⟩
  · -- parts that are too many at the first computation are so with those of the second
    have hfirst := hx.succeeds pool parts hpool hspells
    have hfails := hx.fails pool parts hpool hspells
    have hresult := hlays.result pool hpool
    rw [run_bind] at herror
    rcases hrun : x.run pool with ⟨e' | a, mid⟩
    · rw [hrun] at herror hfails
      cases herror
      rcases hfails e rfl with ⟨text, htext, hlong⟩ | hmany
      · exact .inl ⟨text, List.mem_append_left _ htext, hlong⟩
      · rw [← List.append_assoc]
        exact .inr (Nat.lt_of_lt_of_le hmany (length_eraseDups_le_append _ _))
    · rw [hrun] at herror hfirst hresult
      obtain ⟨hmid, -⟩ := hfirst a rfl
      rcases (hk a).fails mid _ (hresult a rfl) hmid e herror with ⟨text, htext, hlong⟩ | hmany
      · exact .inl ⟨text, List.mem_append_right _ htext, hlong⟩
      · rw [List.append_assoc] at hmany
        exact .inr hmany

theorem writes_add {part : Call} {constant : Constant} (htyped : part.isTyped = true)
    (h : ∀ pool, P pool → SpelledBy part constant pool) :
    Writes P [part] [] (add constant) := by
  refine ⟨fun pool parts hpool hspells index hindex => ?_, fun pool parts hpool hspells e herror =>
    .inr ((hspells.add htyped (h pool hpool)).2 e herror)⟩
  exact ⟨(hspells.add htyped (h pool hpool)).1 index hindex, fun text htext =>
    absurd htext List.not_mem_nil⟩

theorem writes_utf8 (text : String) : Writes P [.utf8 text] [text] (utf8 text) := by
  have hadd : Writes P [.utf8 text] [] (add (.utf8 text)) :=
    writes_add rfl fun _ _ _ _ _ => Iff.rfl
  unfold utf8
  split
  next hlong =>
      refine ⟨fun pool parts _ _ index hindex => ?_, fun _ _ _ _ _ _ =>
        .inl ⟨text, List.mem_singleton_self _, hlong⟩⟩
      cases hindex
  next hshort =>
      refine ⟨fun pool parts hpool hspells index hindex => ⟨?_, fun text' htext' => ?_⟩,
        fun pool parts hpool hspells e herror => ?_⟩
      · exact (hadd.succeeds pool parts hpool hspells index hindex).1
      · rw [List.mem_singleton.1 htext']
        exact Nat.le_of_not_lt hshort
      · refine (hadd.fails pool parts hpool hspells e herror).imp_left ?_
        rintro ⟨_, htext, -⟩
        exact absurd htext List.not_mem_nil

theorem Writes.of_imp {P' : ConstantPool → Prop} {x : Interning α} (hx : Writes P more texts x)
    (h : ∀ pool, P' pool → P pool) : Writes P' more texts x :=
  ⟨fun pool parts hpool => hx.succeeds pool parts (h pool hpool),
    fun pool parts hpool => hx.fails pool parts (h pool hpool)⟩

/-- The class of a text is spelled by one constant. -/
theorem spelledBy_classRef {pool : ConstantPool} {name : String} {text : UInt16}
    (h : pool.get? text = some (.utf8 name)) :
    SpelledBy (.classRef name) (.classRef text) pool := by
  intro later hlater index
  refine ⟨?_, fun hindex => ⟨text, hindex, hlater.get? h⟩⟩
  rintro ⟨text', hindex, hname⟩
  rw [index_unique (hlater.get? h) hname]
  exact hindex

theorem spelledBy_nameAndType {pool : ConstantPool} {name descriptor : String}
    {text text' : UInt16} (h : pool.get? text = some (.utf8 name))
    (h' : pool.get? text' = some (.utf8 descriptor)) :
    SpelledBy (.nameAndType name descriptor) (.nameAndType text text') pool := by
  intro later hlater index
  refine ⟨?_, fun hindex => ⟨text, text', hindex, hlater.get? h, hlater.get? h'⟩⟩
  rintro ⟨_, _, hindex, hname, hdescriptor⟩
  rw [index_unique (hlater.get? h) hname, index_unique (hlater.get? h') hdescriptor]
  exact hindex

/-- A class has one index. -/
theorem HoldsClass.unique {pool : ConstantPool} {name : String} {index index' : UInt16}
    (h : pool.HoldsClass index name) (h' : pool.HoldsClass index' name) : index = index' := by
  obtain ⟨text, hindex, hname⟩ := h
  exact index_unique hindex ((spelledBy_classRef hname pool (IsPrefix.refl _) index').1 h')

theorem HoldsMember.unique {pool : ConstantPool} {name descriptor : String} {index index' : UInt16}
    (h : pool.HoldsMember index name descriptor) (h' : pool.HoldsMember index' name descriptor) :
    index = index' := by
  obtain ⟨text, text', hindex, hname, hdescriptor⟩ := h
  exact index_unique hindex
    ((spelledBy_nameAndType hname hdescriptor pool (IsPrefix.refl _) index').1 h')

/-- A member of a class is spelled by one constant, of the kind that was asked for. -/
theorem spelledBy_reference {make : UInt16 → UInt16 → Constant} {part : Call}
    {pool : ConstantPool} {owner name descriptor : String} {class' member : UInt16}
    (hpart : ∀ later index, part.FoundAt later index ↔ ∃ class' member,
      later.get? index = some (make class' member) ∧ later.HoldsClass class' owner ∧
        later.HoldsMember member name descriptor)
    (h : pool.HoldsClass class' owner) (h' : pool.HoldsMember member name descriptor) :
    SpelledBy part (make class' member) pool := by
  intro later hlater index
  rw [hpart]
  refine ⟨?_, fun hindex => ⟨class', member, hindex, h.later hlater, h'.later hlater⟩⟩
  rintro ⟨_, _, hindex, howner, hmember⟩
  rw [(h.later hlater).unique howner, (h'.later hlater).unique hmember]
  exact hindex

theorem writes_classRef (name : String) :
    Writes (fun _ => True) (Call.classRef name).parts [name] (classRef name) :=
  (writes_utf8 name).bind (lays_utf8 name) fun _ =>
    writes_add rfl fun _ hname => spelledBy_classRef hname

theorem writes_nameAndType (name descriptor : String) :
    Writes (fun _ => True) (Call.nameAndType name descriptor).parts [name, descriptor]
      (nameAndType name descriptor) := by
  refine (writes_utf8 name).bind (lays_utf8 name) fun text => ?_
  -- the text of the name stays where it is while that of the descriptor is added
  have hsecond := (lays_utf8 descriptor).frame
    (steady_utf8 fun _ => trivial : Steady True _) (lasting_get? text (.utf8 name))
  refine (writes_utf8 descriptor).bind hsecond fun text' => ?_
  exact writes_add rfl fun _ htexts => spelledBy_nameAndType htexts.2 htexts.1

/-- Fields and methods are put behind their class and their name with its descriptor. -/
theorem writes_reference {make : UInt16 → UInt16 → Constant} {part : Call}
    (owner name descriptor : String) (htyped : part.isTyped = true)
    (hpart : ∀ later index, part.FoundAt later index ↔ ∃ class' member,
      later.get? index = some (make class' member) ∧ later.HoldsClass class' owner ∧
        later.HoldsMember member name descriptor) :
    Writes (fun _ => True)
      ((Call.classRef owner).parts ++ ((Call.nameAndType name descriptor).parts ++ [part]))
      [owner, name, descriptor]
      (do
        let class' ← classRef owner
        let member ← nameAndType name descriptor
        add (make class' member)) := by
  refine (writes_classRef owner).bind (lays_classRef owner) fun class' => ?_
  have howner : Lasting fun pool => pool.HoldsClass class' owner := fun _ _ h hle => h.later hle
  have hsecond := (lays_nameAndType name descriptor).frame
    (steady_nameAndType (fun _ => trivial) fun _ => trivial : Steady True _) howner
  refine ((writes_nameAndType name descriptor).of_imp fun _ _ => trivial).bind hsecond
    fun member => ?_
  exact writes_add htyped fun _ h => spelledBy_reference hpart h.2 h.1

/-- A call for a kind of constant puts its parts behind those of the pool. -/
theorem Call.writes {call : Call} (h : call.isTyped = true) :
    Writes (fun _ => True) call.parts call.texts call.run := by
  cases call with
  | add constant => cases h
  | utf8 text => exact writes_utf8 text
  | integer value => exact writes_add rfl fun _ _ _ _ _ => Iff.rfl
  | classRef name => exact writes_classRef name
  | nameAndType name descriptor => exact writes_nameAndType name descriptor
  | fieldRef owner name descriptor =>
      exact writes_reference owner name descriptor rfl fun _ _ => Iff.rfl
  | methodRef owner name descriptor =>
      exact writes_reference owner name descriptor rfl fun _ _ => Iff.rfl

end Writes

/-! ## Room -/

/-- A pool goes on to spell the parts of the calls that are made on it. -/
theorem spells_after {pool : ConstantPool} {parts : List Call} (h : pool.Spells parts)
    {calls : List Call} (htyped : ∀ call ∈ calls, call.isTyped = true)
    (hroom : pool.RoomFor calls) : (pool.after calls).Spells (parts ++ calls.flatMap Call.parts) := by
  induction calls generalizing pool parts with
  | nil =>
      rw [List.flatMap_nil, List.append_nil]
      exact h
  | cons call calls ih =>
      obtain ⟨⟨index, hindex⟩, hrest⟩ := hroom
      have hwrites := Call.writes (htyped call List.mem_cons_self)
      have hcall := hwrites.succeeds pool parts trivial h index hindex
      rw [after_cons, List.flatMap_cons, ← List.append_assoc]
      exact ih hcall.1 (fun c hc => htyped c (List.mem_cons_of_mem _ hc)) hrest

/-- There is room for calls if no text is too long and the parts are not too many. -/
theorem roomFor_iff {pool : ConstantPool} {parts : List Call} (h : pool.Spells parts)
    {calls : List Call} (htyped : ∀ call ∈ calls, call.isTyped = true) :
    pool.RoomFor calls ↔ (∀ call ∈ calls, ¬ call.TooLong) ∧
      (parts ++ calls.flatMap Call.parts).eraseDups.length ≤ 65534 := by
  induction calls generalizing pool parts with
  | nil =>
      rw [List.flatMap_nil, List.append_nil, h.length_eq]
      exact ⟨fun _ => ⟨fun _ hcall => absurd hcall List.not_mem_nil, pool.size_le⟩, fun _ => trivial⟩
  | cons call calls ih =>
      have hwrites := Call.writes (htyped call List.mem_cons_self)
      have hsucceeds := hwrites.succeeds pool parts trivial h
      have hfails := hwrites.fails pool parts trivial h
      rw [RoomFor, List.flatMap_cons, List.forall_mem_cons]
      cases hresult : (call.run.run pool).1 with
      | ok index =>
          obtain ⟨hspells, hshort⟩ := hsucceeds index hresult
          rw [ih hspells fun c hc => htyped c (List.mem_cons_of_mem _ hc), List.append_assoc]
          have hfits : ¬ call.TooLong := by
            rintro ⟨text, htext, hlong⟩
            exact Nat.not_le.2 hlong (hshort text htext)
          exact ⟨fun hroom => ⟨⟨hfits, hroom.2.1⟩, hroom.2.2⟩,
            fun hroom => ⟨⟨index, rfl⟩, hroom.1.2, hroom.2⟩⟩
      | error e =>
          constructor
          · rintro ⟨⟨index, hindex⟩, -⟩
            cases hindex
          · rintro ⟨⟨hfits, -⟩, hfew⟩
            rcases hfails e hresult with hlong | hmany
            · exact absurd hlong hfits
            · -- the calls behind this one do not make the parts fewer
              have hle := length_eraseDups_le_append (parts ++ call.parts)
                (calls.flatMap Call.parts)
              rw [List.append_assoc] at hle
              omega

section Empty

variable {calls : List Call}

/-- There is room for a row of calls in a new pool if and only if every text fits its length field
and the distinct constants that the calls lead to are no more than a pool holds. -/
theorem roomFor_empty_iff (htyped : ∀ call ∈ calls, call.isTyped = true) :
    empty.RoomFor calls ↔
      (∀ call ∈ calls, ¬ call.TooLong) ∧ (distinctParts calls).length ≤ 65534 :=
  roomFor_iff spells_empty htyped

/-- Where there was room, a constant's index is its place among the distinct ones. -/
theorem index_of_foundAt (htyped : ∀ call ∈ calls, call.isTyped = true)
    (hroom : empty.RoomFor calls) {part : Call} (hpart : part.isTyped = true) {index : UInt16}
    (hfound : part.FoundAt (empty.after calls) index) :
    index.toNat = (distinctParts calls).idxOf part + 1 :=
  (spells_after spells_empty htyped hroom).index_eq hpart hfound

end Empty

end ConstantPool

end StackCodegen.ClassFile
