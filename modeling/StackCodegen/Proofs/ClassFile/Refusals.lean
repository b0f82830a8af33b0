import StackCodegen.Proofs.Except
import StackCodegen.Proofs.ClassFile.Heights

/-!
# Why a body is refused

What the error of an assembly says of the body. The layout refuses bodies that are too long, and
labels without a binding (`Layout.of_eq_error`); the encoding refuses jumps to labels that the body
does not have, and distances that do not fit their field (`encodeBody_eq_error`); the flow analysis
refuses stack heights (`analyse_eq_error`). An assembly fails with the error of its first failing
step (`assemble_eq_error`).
-/

set_option autoImplicit false

namespace StackCodegen.ClassFile

/-! ## Layout -/

namespace Layout

/-- The size a scan ends with. -/
theorem scan_size (body : SymbolicCode) : (scan body).size = codeSize body.instructions.toList := by
  rw [scan, ← Array.foldl_toList, (foldl_place _ _).2, Nat.zero_add]

/-- One more instruction takes no binding away, and gives one to the label it binds. -/
theorem isSome_place {s : Scan} {insn : Instruction} {label : Label}
    (h : (∃ b, s.bindings[label]? = some (some b)) ∨
      label < s.bindings.size ∧ label ∈ boundLabels [insn]) :
    ∃ b, (s.place insn).bindings[label]? = some (some b) := by
  cases insn with
  | bind bound =>
      change ∃ b, (s.bindings.setIfInBounds bound (some ⟨s.offsets.size, s.size⟩))[label]? =
        some (some b)
      rw [Array.getElem?_setIfInBounds]
      by_cases hlabel : bound = label
      · subst hlabel
        have hlt : bound < s.bindings.size := by
          rcases h with ⟨b, hb⟩ | ⟨hlt, -⟩
          · exact (Array.getElem?_eq_some_iff.1 hb).1
          · exact hlt
        exact ⟨_, by rw [if_pos rfl, if_pos hlt]⟩
      · rw [if_neg hlabel]
        exact h.resolve_right fun hmem => hlabel (List.mem_singleton.1 hmem.2).symm
  | _ => exact h.resolve_right fun hmem => List.not_mem_nil hmem.2

/-- Every label that is bound has a binding. -/
theorem isSome_foldl (code : List Instruction) (s : Scan) {label : Label}
    (h : (∃ b, s.bindings[label]? = some (some b)) ∨
      label < s.bindings.size ∧ label ∈ boundLabels code) :
    ∃ b, (code.foldl Scan.place s).bindings[label]? = some (some b) := by
  induction code generalizing s with
  | nil => exact h.resolve_right fun hmem => List.not_mem_nil hmem.2
  | cons insn code ih =>
      have hsize : (s.place insn).bindings.size = s.bindings.size := size_bindings_foldl [insn] s
      refine ih (s.place insn) ?_
      rcases h with hold | ⟨hlt, hmem⟩
      · exact .inl (isSome_place (.inl hold))
      · rw [← List.singleton_append, boundLabels_append, List.mem_append] at hmem
        rcases hmem with hnow | hlater
        · exact .inl (isSome_place (.inr ⟨hlt, hnow⟩))
        · exact .inr ⟨hsize ▸ hlt, hlater⟩

theorem size_bindings_scan (body : SymbolicCode) :
    (scan body).bindings.size = body.labelCount := by
  rw [scan, ← Array.foldl_toList, size_bindings_foldl, Array.size_replicate]

/-- A label of the body that is bound somewhere has a binding in the end. -/
theorem isSome_scan {body : SymbolicCode} {label : Label} (hlabel : label < body.labelCount)
    (hbound : label ∈ boundLabels body.instructions.toList) :
    ∃ b, (scan body).bindings[label]? = some (some b) := by
  rw [scan, ← Array.foldl_toList]
  exact isSome_foldl _ _ (.inr ⟨by rw [Array.size_replicate]; exact hlabel, hbound⟩)

/-- A body can be given a layout if all its labels are bound, and no other body can. -/
theorem exists_scanned_iff {body : SymbolicCode} :
    (∃ layout : Layout, layout.Scanned body) ↔
      ∀ label < body.labelCount, label ∈ boundLabels body.instructions.toList := by
  constructor
  · rintro ⟨layout, hlayout⟩ label hlabel
    rw [← hlayout.size_bindings] at hlabel
    obtain ⟨done, todo, hcode, -, -⟩ :=
      hlayout.binding_spec (Array.getElem?_eq_getElem hlabel)
    rw [hcode]
    simp
  · refine fun hbound => ⟨_, scanned_of_isSome fun b hb => ?_⟩
    obtain ⟨label, hlt, rfl⟩ := Array.getElem_of_mem hb
    have hlabel := size_bindings_scan body ▸ hlt
    obtain ⟨binding, hbinding⟩ := isSome_scan hlabel (hbound label hlabel)
    rw [Array.getElem?_eq_getElem hlt, Option.some.injEq] at hbinding
    rw [hbinding]
    rfl

/-- The layout refuses a body that is too long, and a label that is nowhere bound. -/
theorem of_eq_error {body : SymbolicCode} {e : CodegenError} (h : Layout.of body = .error e) :
    maxCodeLength < codeSize body.instructions.toList ∧
        e = .codeTooLarge (codeSize body.instructions.toList) ∨
      codeSize body.instructions.toList ≤ maxCodeLength ∧ ∃ label < body.labelCount,
        label ∉ boundLabels body.instructions.toList ∧ e = .unboundLabel label := by
  unfold Layout.of at h
  dsimp only at h
  rw [scan_size] at h
  split at h
  next hsize =>
      cases h
      exact .inl ⟨hsize, rfl⟩
  next hsize =>
      split at h
      next label hlabel =>
          cases h
          obtain ⟨hlt, hnone, -⟩ := Array.findIdx?_eq_some_iff_getElem.1 hlabel
          have hlabel := size_bindings_scan body ▸ hlt
          refine .inr ⟨Nat.le_of_not_lt hsize, label, hlabel, fun hmem => ?_, rfl⟩
          obtain ⟨b, hb⟩ := isSome_scan hlabel hmem
          rw [Array.getElem?_eq_getElem hlt, Option.some.injEq] at hb
          rw [hb] at hnone
          cases hnone
      next => cases h

end Layout

/-! ## Encoding -/

/-- A jump is refused for its label or for its distance. -/
theorem appendInstruction_eq_error {layout : Layout} {code : Array UInt8} {insn : Instruction}
    {offset : Nat} {e : CodegenError}
    (h : appendInstruction layout code insn offset = .error e) :
    ∃ op target, insn = .jump op target ∧
      (layout.bindings[target]? = none ∧ e = .unboundLabel target ∨
        ∃ b, layout.bindings[target]? = some b ∧
          branchField? ((b.offset : Int) - offset) = none ∧
          e = .branchOutOfRange ((b.offset : Int) - offset)) := by
  cases insn with
  | jump op target =>
      refine ⟨op, target, rfl, ?_⟩
      simp only [appendInstruction] at h
      split at h
      next hnone =>
          cases h
          exact .inl ⟨hnone, rfl⟩
      next b hb =>
          split at h
          next hfield =>
              cases h
              exact .inr ⟨b, hb, hfield, rfl⟩
          next => cases h
  | _ => cases h

theorem foldlM_appendInstruction_eq_error {layout : Layout} {e : CodegenError}
    {insns : List Instruction} {start : Nat} {code : Array UInt8}
    (h : (insns.zip (offsetsFrom start insns)).foldlM
      (fun code (insn, offset) => appendInstruction layout code insn offset) code = .error e) :
    ∃ done op target todo, insns = done ++ .jump op target :: todo ∧
      (layout.bindings[target]? = none ∧ e = .unboundLabel target ∨
        ∃ b, layout.bindings[target]? = some b ∧
          branchField? ((b.offset : Int) - (start + codeSize done : Nat)) = none ∧
          e = .branchOutOfRange ((b.offset : Int) - (start + codeSize done : Nat))) := by
  induction insns generalizing start code with
  | nil => cases h
  | cons insn insns ih =>
      rw [offsetsFrom, List.zip_cons_cons, List.foldlM_cons] at h
      cases hstep : appendInstruction layout code insn start with
      | error e' =>
          simp only [hstep] at h
          cases h
          obtain ⟨op, target, rfl, hcause⟩ := appendInstruction_eq_error hstep
          exact ⟨[], op, target, insns, rfl, by simpa using hcause⟩
      | ok mid =>
          simp only [hstep] at h
          obtain ⟨done, op, target, todo, rfl, hcause⟩ := ih h
          refine ⟨insn :: done, op, target, todo, rfl, ?_⟩
          rw [codeSize_cons, ← Nat.add_assoc]
          exact hcause

/-- The encoding refuses a jump that goes to no label of the body, or too far. -/
theorem encodeBody_eq_error {body : SymbolicCode} {layout : Layout} {e : CodegenError}
    (hlayout : Layout.of body = .ok layout)
    (h : encodeBody layout body.instructions = .error e) :
    ∃ done op target todo, body.instructions.toList = done ++ .jump op target :: todo ∧
      (layout.bindings[target]? = none ∧ e = .unboundLabel target ∨
        ∃ b, layout.bindings[target]? = some b ∧
          branchField? ((b.offset : Int) - codeSize done) = none ∧
          e = .branchOutOfRange ((b.offset : Int) - codeSize done)) := by
  rw [encodeBody, ← Array.foldlM_toList, Array.toList_zip, Layout.offsets_eq hlayout] at h
  simpa using foldlM_appendInstruction_eq_error h

/-! ## Flow analysis -/

/-- An error of the flow analysis. -/
inductive HeightError : CodegenError → Prop where
  | underflow (offset : Nat) : HeightError (.stackUnderflow offset)
  | mismatch (offset expected found : Nat) : HeightError (.stackMismatch offset expected found)

namespace Flow

variable {code : Array Instruction} {layout : Layout} {flow : Flow} {e : CodegenError}

/-- A position is refused where another height is known. -/
theorem reach_eq_error {after next : Nat} (h : flow.reach layout after next = .error e) :
    ∃ existing, flow.Known next existing ∧ existing ≠ after ∧
      e = .stackMismatch (layout.offset next) existing after := by
  obtain ⟨heights, pending, highest⟩ := flow
  unfold reach at h
  dsimp only at h
  split at h
  next hlt =>
      split at h
      · cases h
      next existing hsome =>
          split at h
          · cases h
          next hne =>
              cases h
              exact ⟨existing, by rw [Known, Array.getElem?_eq_getElem hlt, hsome], hne, rfl⟩
  · cases h

/-- Of several positions the refused one had its height before the first of them was reached. -/
theorem foldlM_reach_eq_error {after : Nat} {nexts : List Nat}
    (h : nexts.foldlM (reach layout after) flow = .error e) :
    ∃ next ∈ nexts, ∃ existing, flow.Known next existing ∧ existing ≠ after ∧
      e = .stackMismatch (layout.offset next) existing after := by
  induction nexts generalizing flow with
  | nil => cases h
  | cons next nexts ih =>
      rw [List.foldlM_cons] at h
      rcases bind_eq_error.1 h with hnow | ⟨mid, hreach, hlater⟩
      · exact ⟨next, List.mem_cons_self, reach_eq_error hnow⟩
      · obtain ⟨last, hlast, existing, hknown, hne, he⟩ := ih hlater
        obtain ⟨new, -, -, -, hfresh⟩ := (reached_of_reach hreach).fresh
        -- a height that differs from the one carried on is older than the fold
        have hold := (hfresh last existing hknown).resolve_right fun hnew => hne hnew.1
        exact ⟨last, List.mem_cons_of_mem _ hlast, existing, hold, hne, he⟩

/-- A visit refuses an instruction that lacks operands, or a successor with another height. -/
theorem visit_eq_error {position : Nat} {rest : List Nat}
    (h : flow.visit code layout position rest = .error e) :
    ∃ height insn, flow.Known position height ∧ code[position]? = some insn ∧
      (height < insn.stackEffect.1 ∧ e = .stackUnderflow (layout.offset position) ∨
        insn.stackEffect.1 ≤ height ∧ ∃ next ∈ successors layout position insn, ∃ existing,
          flow.Known next existing ∧ existing ≠ insn.heightAfter height ∧
          e = .stackMismatch (layout.offset next) existing (insn.heightAfter height)) := by
  obtain ⟨heights, pending, highest⟩ := flow
  unfold visit at h
  dsimp only at h
  split at h
  next height insn hheight hinsn =>
      refine ⟨height, insn, hheight, hinsn, ?_⟩
      split at h
      next hshort =>
          cases h
          exact .inl ⟨hshort, rfl⟩
      next hpops =>
          have hfold := foldlM_reach_eq_error h
          exact .inr ⟨Nat.le_of_not_lt hpops, hfold⟩
  · cases h

end Flow

/-- The flow analysis refuses heights alone. -/
theorem analyse_eq_error {code : Array Instruction} {layout : Layout} {e : CodegenError}
    (h : analyse code layout = .error e) : HeightError e := by
  obtain ⟨last, position, rest, -, -, hvisit⟩ := Flow.exists_visit_of_settle_error .start h
  obtain ⟨height, insn, -, -, ⟨-, rfl⟩ | ⟨-, next, -, existing, -, -, rfl⟩⟩ :=
    Flow.visit_eq_error hvisit
  · exact .underflow _
  · exact .mismatch _ _ _

/-! ## Assembly -/

/-- An assembly fails with the error of its first failing step. -/
theorem assemble_eq_error {body : SymbolicCode} {e : CodegenError}
    (h : body.assemble = .error e) :
    Layout.of body = .error e ∨ ∃ layout, Layout.of body = .ok layout ∧
      (encodeBody layout body.instructions = .error e ∨
        analyse body.instructions layout = .error e) := by
  unfold SymbolicCode.assemble maxHeight at h
  cases hlayout : Layout.of body with
  | error e' =>
      rw [hlayout] at h
      cases h
      exact .inl rfl
  | ok layout =>
      refine .inr ⟨layout, rfl, ?_⟩
      cases hcode : encodeBody layout body.instructions with
      | error e' =>
          simp only [hlayout, hcode, bind, Except.bind] at h
          cases h
          exact .inl rfl
      | ok code =>
          cases hflow : analyse body.instructions layout with
          | error e' =>
              simp only [hlayout, hcode, hflow, bind, Except.bind, Functor.map, Except.map] at h
              cases h
              exact .inr rfl
          | ok flow =>
              simp only [hlayout, hcode, hflow, bind, Except.bind, Functor.map, Except.map] at h
              cases h

end StackCodegen.ClassFile
