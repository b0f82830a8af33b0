import StackCodegen.Proofs.ClassFile.Decoding
import Mathlib.Algebra.GroupWithZero.Nat

/-!
# Where instructions and labels lie

An assembled body is the concatenation of its encoded instructions. Fitting instructions take the
bytes that are counted for them (`length_encode`), so the byte at which an instruction starts is the
sum of the sizes before it (`codeSize`). Splitting the instruction list splits the code: behind
`codeSize done` bytes lies the code of what follows `done` (`Encodes.drop`), and the decoder reads
the next instruction there with its size, a jump with the distance to the place of its label
(`Encodes.decode?_cons`).

A label's place is that of its last binding (`binding_spec`), and where no label is bound twice
it is the place of its only binding (`binding_of_nodup`).
-/

set_option autoImplicit false

namespace StackCodegen.ClassFile

/-! ## Sizes and offsets -/

/-- Bytes of a row of instructions. -/
def codeSize (code : List Instruction) : Nat := (code.map Instruction.size).sum

@[simp] theorem codeSize_nil : codeSize [] = 0 := rfl

@[simp] theorem codeSize_cons (insn : Instruction) (code : List Instruction) :
    codeSize (insn :: code) = insn.size + codeSize code := by
  simp [codeSize]

@[simp] theorem codeSize_append (front back : List Instruction) :
    codeSize (front ++ back) = codeSize front + codeSize back := by
  simp [codeSize]

/-- Labels bound in a row of instructions. -/
def boundLabels (code : List Instruction) : List Nat :=
  code.filterMap fun
    | .bind label => some label
    | _ => none

@[simp] theorem boundLabels_append (front back : List Instruction) :
    boundLabels (front ++ back) = boundLabels front ++ boundLabels back := by
  simp [boundLabels]

@[simp] theorem boundLabels_bind (label : Label) (code : List Instruction) :
    boundLabels (.bind label :: code) = label :: boundLabels code := rfl

/-- A label bound once is not bound before its binding. -/
theorem not_mem_boundLabels_left {label : Label} {done todo : List Instruction}
    (h : (boundLabels (done ++ .bind label :: todo)).Nodup) : label ∉ boundLabels done := by
  rw [boundLabels_append, boundLabels_bind, List.nodup_append] at h
  intro hmem
  exact h.2.2 label hmem label List.mem_cons_self rfl

/-- A list is split in one way at the first binding of a label. -/
theorem split_unique {label : Label} {done done' todo todo' : List Instruction}
    (h : done ++ .bind label :: todo = done' ++ .bind label :: todo')
    (hleft : label ∉ boundLabels done) (hleft' : label ∉ boundLabels done') : done = done' := by
  have hhead : ∀ code : List Instruction, label ∉ boundLabels (.bind label :: code) → False :=
    fun code hnot => hnot List.mem_cons_self
  have htail : ∀ (head : Instruction) (code : List Instruction),
      label ∉ boundLabels (head :: code) → label ∉ boundLabels code := by
    intro head code hnot hmem
    exact hnot (boundLabels_append [head] code ▸ List.mem_append_right _ hmem)
  induction done generalizing done' with
  | nil =>
      cases done' with
      | nil => rfl
      | cons head done' =>
          rw [List.nil_append, List.cons_append] at h
          injection h with hb _
          exact (hhead _ (hb ▸ hleft')).elim
  | cons head done ih =>
      cases done' with
      | nil =>
          rw [List.nil_append, List.cons_append] at h
          injection h with hb _
          exact (hhead _ (hb ▸ hleft)).elim
      | cons head' done' =>
          rw [List.cons_append, List.cons_append] at h
          injection h with hb hrest
          rw [hb, ih hrest (htail _ _ hleft) (htail _ _ hleft')]

/-- The offsets of a row of instructions that starts at `start`. -/
def offsetsFrom (start : Nat) : List Instruction → List Nat
  | [] => []
  | insn :: code => start :: offsetsFrom (start + insn.size) code

theorem getElem?_offsetsFrom (start : Nat) (done todo : List Instruction) (insn : Instruction) :
    (offsetsFrom start (done ++ insn :: todo))[done.length]? = some (start + codeSize done) := by
  induction done generalizing start with
  | nil => rfl
  | cons head done ih =>
      rw [List.cons_append, offsetsFrom, List.length_cons, List.getElem?_cons_succ, ih,
        codeSize_cons, Nat.add_assoc]

/-! ## The layout -/

namespace Layout

theorem place_offsets (s : Scan) (insn : Instruction) :
    (s.place insn).offsets = s.offsets.push s.size ∧ (s.place insn).size = s.size + insn.size :=
  ⟨rfl, rfl⟩

/-- A scan goes on from where it stands. -/
theorem foldl_place (code : List Instruction) (s : Scan) :
    (code.foldl Scan.place s).offsets.toList = s.offsets.toList ++ offsetsFrom s.size code ∧
      (code.foldl Scan.place s).size = s.size + codeSize code := by
  induction code generalizing s with
  | nil => simp [offsetsFrom]
  | cons insn code ih =>
      obtain ⟨hoffsets, hsize⟩ := ih (s.place insn)
      obtain ⟨hpush, hadd⟩ := place_offsets s insn
      rw [List.foldl_cons, hoffsets, hsize, hpush, hadd, codeSize_cons, offsetsFrom]
      exact ⟨by simp, by omega⟩

/-- The bindings of a scan lie where their labels are bound last. -/
def Scan.Binds (code : List Instruction) (s : Scan) : Prop :=
  ∀ (label : Label) (b : Binding), s.bindings[label]? = some (some b) →
    ∃ done todo, code = done ++ .bind label :: todo ∧ label ∉ boundLabels todo ∧
      b = ⟨done.length, codeSize done⟩

/-- One more instruction keeps the bindings right. -/
theorem binds_place {code : List Instruction} {s : Scan} {insn : Instruction}
    (h : s.Binds code) (hlength : s.offsets.size = code.length) (hsize : s.size = codeSize code) :
    (s.place insn).Binds (code ++ [insn]) := by
  have hold : ∀ (label : Label) (b : Binding), s.bindings[label]? = some (some b) →
      label ∉ boundLabels [insn] → ∃ done todo, code ++ [insn] = done ++ .bind label :: todo ∧
        label ∉ boundLabels todo ∧ b = ⟨done.length, codeSize done⟩ := by
    intro label b hb hnew
    obtain ⟨done, todo, hcode, hlast, hplace⟩ := h label b hb
    refine ⟨done, todo ++ [insn], by rw [hcode]; simp, ?_, hplace⟩
    rw [boundLabels_append, List.mem_append]
    exact fun hmem => hmem.elim hlast hnew
  intro label b hb
  cases insn with
  | bind bound =>
      have hset : (s.bindings.setIfInBounds bound (some ⟨s.offsets.size, s.size⟩))[label]? =
          some (some b) := hb
      rw [Array.getElem?_setIfInBounds] at hset
      by_cases hlabel : bound = label
      · subst hlabel
        rw [if_pos rfl] at hset
        split at hset
        · cases hset
          exact ⟨code, [], rfl, List.not_mem_nil, by rw [hlength, hsize]⟩
        · cases hset
      · rw [if_neg hlabel] at hset
        exact hold label b hset fun hmem => hlabel (List.mem_singleton.1 hmem).symm
  | _ => exact hold label b hb List.not_mem_nil

theorem binds_foldl (code : List Instruction) (done : List Instruction) (s : Scan)
    (h : s.Binds done) (hlength : s.offsets.size = done.length) (hsize : s.size = codeSize done) :
    (code.foldl Scan.place s).Binds (done ++ code) := by
  induction code generalizing done s with
  | nil => simpa using h
  | cons insn code ih =>
      obtain ⟨hpush, hadd⟩ := place_offsets s insn
      have hstep := ih (done ++ [insn]) (s.place insn) (binds_place h hlength hsize)
        (by rw [hpush, Array.size_push, hlength, List.length_append]; rfl)
        (by rw [hadd, hsize, codeSize_append, codeSize_cons, codeSize_nil]; rfl)
      simpa using hstep

theorem size_bindings_foldl (code : List Instruction) (s : Scan) :
    (code.foldl Scan.place s).bindings.size = s.bindings.size := by
  induction code generalizing s with
  | nil => rfl
  | cons insn code ih =>
      rw [List.foldl_cons, ih]
      cases insn <;> simp [Scan.place]

/-- A layout that gives every label its place. Nothing is asked of the size of the code. -/
structure Scanned (layout : Layout) (body : SymbolicCode) : Prop where
  offsets_eq : layout.offsets = (scan body).offsets
  bindings_eq : (scan body).bindings = layout.bindings.map some

/-- A scan that found a binding for every label gives a layout. -/
theorem scanned_of_isSome {body : SymbolicCode}
    (h : ∀ b ∈ (scan body).bindings, b.isSome = true) :
    Scanned ⟨(scan body).offsets, (scan body).bindings.filterMap id⟩ body := by
  have hlist : ∀ bindings : List (Option Binding), (∀ b ∈ bindings, b.isSome = true) →
      bindings = (bindings.filterMap id).map some := by
    intro bindings
    induction bindings with
    | nil => intro _; rfl
    | cons b bindings ih =>
        intro hb
        obtain ⟨binding, rfl⟩ := Option.isSome_iff_exists.1 (hb b List.mem_cons_self)
        have hrest := ih fun c hc => hb c (List.mem_cons_of_mem _ hc)
        simpa using hrest
  refine ⟨rfl, Array.ext' ?_⟩
  simpa using hlist _ fun b hb => h b (Array.mem_toList_iff.1 hb)

/-- What a layout takes from its scan. -/
theorem of_eq_ok {body : SymbolicCode} {layout : Layout} (h : Layout.of body = .ok layout) :
    (scan body).size ≤ maxCodeLength ∧ layout.Scanned body := by
  unfold Layout.of at h
  dsimp only at h
  split at h
  · cases h
  · split at h
    · cases h
    next hsize hnone =>
      cases h
      refine ⟨by omega, scanned_of_isSome fun b hb => ?_⟩
      simpa using Array.findIdx?_eq_none_iff.1 hnone b hb

theorem scanned_of_eq_ok {body : SymbolicCode} {layout : Layout}
    (h : Layout.of body = .ok layout) : layout.Scanned body :=
  (of_eq_ok h).2

namespace Scanned

variable {body : SymbolicCode} {layout : Layout}

theorem toList_offsets (h : layout.Scanned body) :
    layout.offsets.toList = offsetsFrom 0 body.instructions.toList := by
  rw [h.offsets_eq, scan, ← Array.foldl_toList, (foldl_place _ _).1]
  rfl

theorem offset_eq (h : layout.Scanned body) {done todo : List Instruction} {insn : Instruction}
    (hcode : body.instructions.toList = done ++ insn :: todo) :
    layout.offset done.length = codeSize done := by
  have hget := getElem?_offsetsFrom 0 done todo insn
  rw [← hcode, ← h.toList_offsets, Array.getElem?_toList] at hget
  rw [offset, hget, Option.getD_some, Nat.zero_add]

theorem binding_spec (h : layout.Scanned body) {label : Label} {b : Binding}
    (hb : layout.bindings[label]? = some b) :
    ∃ done todo, body.instructions.toList = done ++ .bind label :: todo ∧
      label ∉ boundLabels todo ∧ b = ⟨done.length, codeSize done⟩ := by
  have hstart : (⟨#[], .replicate body.labelCount none, 0⟩ : Scan).Binds [] := by
    intro l c hc
    simp only [Array.getElem?_replicate] at hc
    split at hc <;> cases hc
  have hbinds := binds_foldl body.instructions.toList [] _ hstart rfl rfl
  rw [Array.foldl_toList, List.nil_append] at hbinds
  refine hbinds label b ?_
  change (scan body).bindings[label]? = _
  rw [h.bindings_eq, Array.getElem?_map, hb]
  rfl

theorem size_bindings (h : layout.Scanned body) : layout.bindings.size = body.labelCount := by
  have hsize : (scan body).bindings.size = body.labelCount := by
    rw [scan, ← Array.foldl_toList, size_bindings_foldl, Array.size_replicate]
  rw [h.bindings_eq, Array.size_map] at hsize
  exact hsize

end Scanned

section Facts

variable {body : SymbolicCode} {layout : Layout}

/-- A laid-out body fits a class file. -/
theorem codeSize_le (h : Layout.of body = .ok layout) :
    codeSize body.instructions.toList ≤ maxCodeLength := by
  obtain ⟨hsize, -⟩ := of_eq_ok h
  rw [scan, ← Array.foldl_toList, (foldl_place _ _).2] at hsize
  omega

theorem offsets_eq (h : Layout.of body = .ok layout) :
    layout.offsets.toList = offsetsFrom 0 body.instructions.toList :=
  (scanned_of_eq_ok h).toList_offsets

/-- Offsets are sums of sizes. -/
theorem offset_eq (h : Layout.of body = .ok layout) {done todo : List Instruction}
    {insn : Instruction} (hcode : body.instructions.toList = done ++ insn :: todo) :
    layout.offset done.length = codeSize done :=
  (scanned_of_eq_ok h).offset_eq hcode

/-- Every label lies at the last of its bindings. -/
theorem binding_spec (h : Layout.of body = .ok layout) {label : Label} {b : Binding}
    (hb : layout.bindings[label]? = some b) :
    ∃ done todo, body.instructions.toList = done ++ .bind label :: todo ∧
      label ∉ boundLabels todo ∧ b = ⟨done.length, codeSize done⟩ :=
  (scanned_of_eq_ok h).binding_spec hb

theorem size_bindings (h : Layout.of body = .ok layout) :
    layout.bindings.size = body.labelCount :=
  (scanned_of_eq_ok h).size_bindings

/-- A label that is bound once lies there. -/
theorem binding_of_nodup (h : Layout.of body = .ok layout)
    (hnodup : (boundLabels body.instructions.toList).Nodup) {label : Label}
    (hlabel : label < body.labelCount) {done todo : List Instruction}
    (hcode : body.instructions.toList = done ++ .bind label :: todo) :
    layout.bindings[label]? = some ⟨done.length, codeSize done⟩ := by
  rw [← size_bindings h] at hlabel
  have hget := Array.getElem?_eq_getElem hlabel
  obtain ⟨done', todo', hcode', -, hb⟩ := binding_spec h hget
  have hsame : done' = done := by
    rw [hcode] at hnodup hcode'
    have hleft := not_mem_boundLabels_left hnodup
    rw [hcode'] at hnodup
    exact (split_unique hcode' hleft (not_mem_boundLabels_left hnodup)).symm
  rw [hget, hb, hsame]

end Facts

end Layout

/-! ## The code -/

/-- The bytes of an instruction that lies at `offset`: those of a jump hold its distance. -/
def PlacedBytes (layout : Layout) (offset : Nat) (insn : Instruction) (bytes : Bytes) : Prop :=
  match insn with
  | .jump op target =>
    ∃ b field, layout.bindings[target]? = some b ∧
      branchField? ((b.offset : Int) - offset) = some field ∧ bytes = op.byte :: u2 field
  | insn => bytes = insn.encode

/-- Bytes that are the instructions of a row, one after the other. -/
inductive Encodes (layout : Layout) : Nat → List Instruction → Bytes → Prop where
  | nil {offset : Nat} : Encodes layout offset [] []
  | cons {offset : Nat} {insn : Instruction} {code : List Instruction} {front back : Bytes}
      (head : PlacedBytes layout offset insn front)
      (tail : Encodes layout (offset + insn.size) code back) :
      Encodes layout offset (insn :: code) (front ++ back)

/-- A slot of a one-byte form also has a two-byte form. -/
theorem le_255_of_le_3 {number : UInt16} (h : number ≤ 3) : number ≤ 255 := by
  have h3 : number.toNat ≤ 3 := UInt16.le_iff_toNat_le.1 h
  exact UInt16.le_iff_toNat_le.2 (show number.toNat ≤ 255 by omega)

/-- An access to one of the first four slots by an opcode that has no one-byte forms. -/
def Instruction.undercounted : Instruction → Bool
  | .slot op number => decide (number ≤ 3) && op.shortFormBase?.isNone
  | _ => false

/-- An instruction takes as many bytes as the layout counts, unless it is undercounted, and
then one byte more. -/
theorem length_encode_eq (insn : Instruction) :
    insn.encode.length = insn.size + if insn.undercounted then 1 else 0 := by
  cases insn with
  | slot op number =>
      -- the layout looks at the slot alone, the bytes also at the forms of the opcode
      have hsmall : number ≤ 3 → number ≤ 255 := le_255_of_le_3
      by_cases h3 : number ≤ 3
      · cases hbase : op.shortFormBase? <;>
          simp [Instruction.encode, Instruction.size, Instruction.undercounted, h3, hsmall, hbase]
      · by_cases h255 : number ≤ 255
        · cases hbase : op.shortFormBase? <;>
            simp [Instruction.encode, Instruction.size, Instruction.undercounted, h3, h255, hbase]
        · simp [Instruction.encode, Instruction.size, Instruction.undercounted, h3, h255]
  | _ => rfl

theorem size_of_undercounted {insn : Instruction} (h : insn.undercounted = true) :
    insn.size = 1 := by
  cases insn with
  | slot op number =>
      obtain ⟨h3, -⟩ := Bool.and_eq_true_iff.1 h
      exact if_pos (of_decide_eq_true h3)
  | _ => cases h

/-- The opcode of a fitting access has one-byte forms. -/
theorem undercounted_of_fitting {insn : Instruction} (h : insn.Fitting) :
    insn.undercounted = false := by
  cases insn with
  | slot op number =>
      have hform : op.shortFormBase?.isNone = false := by
        have hkind : op.operandKind = .slot := h
        cases op <;> first | exact absurd hkind (by decide) | rfl
      rw [Instruction.undercounted, hform, Bool.and_false]
  | _ => rfl

/-- An instruction with a fitting operand takes as many bytes as the layout counts. -/
theorem length_encode {insn : Instruction} (h : insn.Fitting) : insn.encode.length = insn.size := by
  rw [length_encode_eq, undercounted_of_fitting h]
  rfl

theorem length_PlacedBytes {layout : Layout} {offset : Nat} {insn : Instruction} {bytes : Bytes}
    (hfit : insn.Fitting) (h : PlacedBytes layout offset insn bytes) :
    bytes.length = insn.size := by
  cases insn with
  | jump op target =>
      obtain ⟨b, field, -, -, rfl⟩ := h
      rfl
  | _ =>
      rw [show bytes = _ from h]
      exact length_encode hfit

namespace Encodes

variable {layout : Layout} {offset : Nat} {bytes : Bytes}

theorem length_eq {code : List Instruction} (h : Encodes layout offset code bytes)
    (hfit : ∀ insn ∈ code, insn.Fitting) : bytes.length = codeSize code := by
  induction h with
  | nil => rfl
  | @cons _ insn code _ _ head _ ih =>
      rw [List.length_append, length_PlacedBytes (hfit insn List.mem_cons_self) head,
        ih fun i hi => hfit i (List.mem_cons_of_mem _ hi), codeSize_cons]

/-- Behind the bytes of some instructions lies the code of the rest. -/
theorem drop {done todo : List Instruction} (h : Encodes layout offset (done ++ todo) bytes)
    (hfit : ∀ insn ∈ done ++ todo, insn.Fitting) :
    Encodes layout (offset + codeSize done) todo (bytes.drop (codeSize done)) := by
  induction done generalizing offset bytes with
  | nil => simpa using h
  | cons insn done ih =>
      cases h with
      | @cons _ _ _ front back head tail =>
          have hsize := length_PlacedBytes (hfit insn List.mem_cons_self) head
          have hrest := ih tail fun i hi => hfit i (List.mem_cons_of_mem _ hi)
          have hdrop : (front ++ back).drop (insn.size + codeSize done) =
              back.drop (codeSize done) := by
            rw [← hsize, List.drop_append]
            simp
          rw [codeSize_cons, hdrop, ← Nat.add_assoc]
          exact hrest

/-- The first instruction is decoded with its size, a jump with the distance to its label. -/
theorem decode?_cons {insn : Instruction} {code : List Instruction}
    (h : Encodes layout offset (insn :: code) bytes) (hreg : insn.Regular)
    (hbind : insn.isBind = false) :
    ∃ distance : Int, decode? bytes = some (insn.operation distance, insn.size) ∧
      ∀ op target, insn = .jump op target →
        ∃ b, layout.bindings[target]? = some b ∧ distance = (b.offset : Int) - offset := by
  cases h with
  | @cons _ _ _ front back head _ =>
      by_cases hjump : ∃ op target, insn = .jump op target
      · obtain ⟨op, target, rfl⟩ := hjump
        obtain ⟨b, field, hb, hfield, rfl⟩ := head
        refine ⟨(b.offset : Int) - offset, ?_, ?_⟩
        · rw [List.cons_append]
          exact decode?_jump hreg hfield
        · rintro op' target' heq
          cases heq
          exact ⟨b, hb, rfl⟩
      · have hnot : ∀ op target, insn ≠ .jump op target :=
          fun op target heq => hjump ⟨op, target, heq⟩
        have hfront : front = insn.encode := by
          cases insn <;> first | exact head | exact absurd rfl (hnot _ _)
        rw [hfront]
        exact ⟨0, decode?_encode hreg hbind hnot 0 back,
          fun op target heq => absurd heq (hnot op target)⟩

end Encodes

/-- Two bytes written over a row of bytes at an offset. -/
def overwrite (code : Bytes) (offset : Nat) (field : UInt16) : Bytes :=
  (code.set offset (field >>> 8).toUInt8).set (offset + 1) field.toUInt8

theorem toList_writeField (code : Array UInt8) (offset : Nat) (field : UInt16) :
    (writeField code offset field).toList = overwrite code.toList offset field := by
  rw [writeField, Array.toList_setIfInBounds, Array.toList_setIfInBounds, overwrite]

/-- What is written behind a row leaves the row. -/
theorem overwrite_append_right (front code : Bytes) (offset : Nat) (field : UInt16) :
    overwrite (front ++ code) (front.length + offset) field =
      front ++ overwrite code offset field := by
  rw [overwrite, overwrite, Nat.add_assoc, List.set_append_right _ _ (Nat.le_add_right _ _),
    List.set_append_right _ _ (Nat.le_add_right _ _), Nat.add_sub_cancel_left,
    Nat.add_sub_cancel_left]

/-- What is written in a row leaves what follows it. -/
theorem overwrite_append_left {code : Bytes} {offset : Nat} (h : offset + 2 ≤ code.length)
    (rest : Bytes) (field : UInt16) :
    overwrite (code ++ rest) offset field = overwrite code offset field ++ rest := by
  rw [overwrite, overwrite, List.set_append_left _ _ (by omega),
    List.set_append_left _ _ (by rw [List.length_set]; omega)]

/-- A jump's field is written over the two bytes behind its opcode. -/
theorem writeField_append (code : Array UInt8) (opcode : UInt8) (field : UInt16) :
    (writeField (code ++ [opcode, 0, 0]) (code.size + 1) field).toList =
      code.toList ++ (opcode :: u2 field) := by
  rw [toList_writeField, Array.toList_appendList, ← Array.length_toList, overwrite_append_right]
  rfl

/-- One more instruction appends its placed bytes. -/
theorem appendInstruction_eq_ok {layout : Layout} {code code' : Array UInt8} {insn : Instruction}
    (h : appendInstruction layout code insn code.size = .ok code') :
    ∃ bytes, PlacedBytes layout code.size insn bytes ∧ code'.toList = code.toList ++ bytes := by
  cases insn with
  | jump op target =>
      simp only [appendInstruction] at h
      split at h
      · cases h
      next b hb =>
        split at h
        · cases h
        next field hfield =>
          cases h
          exact ⟨op.byte :: u2 field, ⟨b, field, hb, hfield, rfl⟩, writeField_append _ _ _⟩
  | _ =>
      simp only [appendInstruction] at h
      cases h
      exact ⟨_, rfl, by simp⟩

theorem foldlM_appendInstruction {layout : Layout} {insns : List Instruction}
    (code : Array UInt8) {code' : Array UInt8} (hfit : ∀ insn ∈ insns, insn.Fitting)
    (h : (insns.zip (offsetsFrom code.size insns)).foldlM
      (fun code (insn, offset) => appendInstruction layout code insn offset) code = .ok code') :
    ∃ bytes, Encodes layout code.size insns bytes ∧ code'.toList = code.toList ++ bytes := by
  induction insns generalizing code with
  | nil =>
      cases h
      exact ⟨[], .nil, by simp⟩
  | cons insn insns ih =>
      rw [offsetsFrom, List.zip_cons_cons, List.foldlM_cons] at h
      cases hstep : appendInstruction layout code insn code.size with
      | error e =>
          simp only [hstep] at h
          cases h
      | ok mid =>
          simp only [hstep] at h
          obtain ⟨front, hfront, hmid⟩ := appendInstruction_eq_ok hstep
          have hsize : mid.size = code.size + insn.size := by
            rw [← Array.length_toList, hmid, List.length_append, Array.length_toList,
              length_PlacedBytes (hfit insn List.mem_cons_self) hfront]
          rw [← hsize] at h
          obtain ⟨back, hback, hcode⟩ := ih mid (fun i hi => hfit i (List.mem_cons_of_mem _ hi)) h
          rw [hsize] at hback
          exact ⟨front ++ back, .cons hfront hback, by rw [hcode, hmid, List.append_assoc]⟩

/-- The code of a laid-out body is its instructions, one after the other. -/
theorem encodes_of_encodeBody {body : SymbolicCode} {layout : Layout} {code : Array UInt8}
    (hlayout : Layout.of body = .ok layout)
    (hfit : ∀ insn ∈ body.instructions.toList, insn.Fitting)
    (h : encodeBody layout body.instructions = .ok code) :
    Encodes layout 0 body.instructions.toList code.toList := by
  rw [encodeBody, ← Array.foldlM_toList, Array.toList_zip, Layout.offsets_eq hlayout] at h
  obtain ⟨bytes, hbytes, hcode⟩ := foldlM_appendInstruction #[] hfit h
  rw [hcode, List.nil_append]
  exact hbytes

/-! ## Assembly -/

/-- What an assembled body is made of. -/
structure Assembly (body : SymbolicCode) (m : MethodCode) (layout : Layout) (flow : Flow) :
    Prop where
  layout_eq : Layout.of body = .ok layout
  encodes : Encodes layout 0 body.instructions.toList m.code
  flow_eq : analyse body.instructions layout = .ok flow
  maxStack_eq : m.maxStack = .ofNat flow.highest
  labelOffsets_eq : m.labelOffsets = layout.bindings.toList.map Binding.offset

/-- The steps of an assembly that succeeds. -/
theorem assemble_eq_ok {body : SymbolicCode} {m : MethodCode} (h : body.assemble = .ok m) :
    ∃ layout code flow, Layout.of body = .ok layout ∧
      encodeBody layout body.instructions = .ok code ∧
      analyse body.instructions layout = .ok flow ∧
      m = ⟨code.toList, .ofNat flow.highest, (layout.bindings.map Binding.offset).toList⟩ := by
  unfold SymbolicCode.assemble maxHeight at h
  cases hlayout : Layout.of body with
  | error e =>
      rw [hlayout] at h
      cases h
  | ok layout =>
      cases hcode : encodeBody layout body.instructions with
      | error e =>
          simp only [hlayout, hcode, bind, Except.bind] at h
          cases h
      | ok code =>
          cases hflow : analyse body.instructions layout with
          | error e =>
              simp only [hlayout, hcode, hflow, bind, Except.bind, Functor.map, Except.map] at h
              cases h
          | ok flow =>
              simp only [hlayout, hcode, hflow, bind, Except.bind, Functor.map, Except.map] at h
              cases h
              exact ⟨layout, code, flow, rfl, hcode, hflow, rfl⟩

/-- A body that assembles has a layout, its code and settled heights. -/
theorem assembly_of_assemble {body : SymbolicCode} {m : MethodCode}
    (hfit : ∀ insn ∈ body.instructions.toList, insn.Fitting) (h : body.assemble = .ok m) :
    ∃ layout flow, Assembly body m layout flow := by
  obtain ⟨layout, code, flow, hlayout, hcode, hflow, rfl⟩ := assemble_eq_ok h
  exact ⟨layout, flow, hlayout, encodes_of_encodeBody hlayout hfit hcode, hflow, rfl, by simp⟩

/-- The place of a label that is bound. -/
theorem getElem?_places {layout : Layout} {target : Label} {b : Binding}
    (hb : layout.bindings[target]? = some b) :
    (layout.bindings.toList.map Binding.offset)[target]? = some b.offset := by
  rw [List.getElem?_map, Array.getElem?_toList, hb]
  rfl

/-- The offset of a label that is bound once is the size of what stands in front of it. -/
theorem Assembly.labelOffset {body : SymbolicCode} {m : MethodCode} {layout : Layout} {flow : Flow}
    (h : Assembly body m layout flow) (hnodup : (boundLabels body.instructions.toList).Nodup)
    {label : Label} (hlabel : label < body.labelCount) {done todo : List Instruction}
    (hcode : body.instructions.toList = done ++ .bind label :: todo) :
    m.labelOffsets[label]? = some (codeSize done) := by
  rw [h.labelOffsets_eq]
  exact getElem?_places (Layout.binding_of_nodup h.layout_eq hnodup hlabel hcode)

end StackCodegen.ClassFile
