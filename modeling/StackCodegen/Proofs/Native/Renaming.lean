import StackCodegen.Proofs.Native.Preservation
import StackCodegen.Proofs.Program.Renaming

/-!
# Names of variables leave no trace in code

A variable stands in native code as the word of its frame, at an offset that depends on where the
variable comes among the others, not on what it is called. So programs that differ in the names of
variables alone have frames with the same offsets (`table_renamed`), every statement is lowered to
the same instructions (`lowerStatement_renamed`), and the programs have the same code up to the
comments (`compileProgram_renamed`).
-/

set_option autoImplicit false

namespace StackCodegen.Native

/-! ## Maps over partners -/

/-- Maps of failing functions over two lists succeed together, and agree in a view of their results,
if they do so for every pair of partners. -/
theorem exists_mapM_eq_ok {ε α β γ : Type} {R : α → α → Prop} {f f' : α → Except ε β}
    (view : β → γ) {list list' : List α} (hlist : List.Forall₂ R list list')
    (hf : ∀ a a' b, R a a' → f a = .ok b → ∃ b', f' a' = .ok b' ∧ view b' = view b)
    {results : List β} (h : list.mapM f = .ok results) :
    ∃ results', list'.mapM f' = .ok results' ∧ results'.map view = results.map view := by
  induction hlist generalizing results with
  | nil =>
      cases h
      exact ⟨[], rfl, rfl⟩
  | cons head tail ih =>
      rw [List.mapM_cons] at h
      obtain ⟨b, hb, h⟩ := bind_eq_ok.1 h
      obtain ⟨rest, hrest, h⟩ := bind_eq_ok.1 h
      cases h
      obtain ⟨b', hb', hview⟩ := hf _ _ b head hb
      obtain ⟨rest', hrest', hviews⟩ := ih hrest
      refine ⟨b' :: rest', ?_, by rw [List.map_cons, List.map_cons, hview, hviews]⟩
      rw [List.mapM_cons]
      exact bind_eq_ok.2 ⟨b', hb', bind_eq_ok.2 ⟨rest', hrest', rfl⟩⟩

theorem forall₂_zipIdx {α β : Type} {R : α → β → Prop} {list : List α} {list' : List β}
    (h : List.Forall₂ R list list') (n : Nat) :
    List.Forall₂ (fun a b => b.2 = a.2 ∧ R a.1 b.1) (list.zipIdx n) (list'.zipIdx n) := by
  induction h generalizing n with
  | nil => exact .nil
  | cons head tail ih => exact .cons ⟨rfl, head⟩ (ih (n + 1))

/-! ## Frames -/

section Frames

open StackCodegen.Native.Frame

variable {σ : String → String} {f f' : Function}

/-- Names of variables renamed in the entries of a frame. -/
def renameEntry (σ : String → String) (entry : String × Int) : String × Int := (σ entry.1, entry.2)

theorem parameterOffsets_renamed (h : Function.RenamedBy σ f f') :
    parameterOffsets f'.declaration = (parameterOffsets f.declaration).map (renameEntry σ) := by
  have hzip : f'.declaration.parameters.zipIdx =
      f.declaration.parameters.zipIdx.map (Prod.map σ id) := by
    rw [h.parameters_eq, List.zipIdx_map]
  have hmem : ∀ entry ∈ f.declaration.parameters.zipIdx, entry.1 ∈ f.variables := by
    rintro ⟨name, i⟩ hentry
    exact List.mem_append_left _ (List.mem_of_getElem? (List.mem_zipIdx_iff_getElem?.1 hentry))
  rw [parameterOffsets, parameterOffsets, hzip, distinctBy_map Prod.fst Prod.fst,
    List.map_map, List.map_map]
  · rfl
  · intro entry hentry entry' hentry'
    exact h.inj_iff (hmem entry hentry) (hmem entry' hentry')

theorem localNames_renamed (h : Function.RenamedBy σ f f') :
    localNames f'.declaration f'.body = (localNames f.declaration f.body).map σ := by
  rw [localNames, h.variableNames_eq, List.filter_map, localNames]
  congr 1
  refine List.filter_congr fun name hname => ?_
  -- a name is a parameter if its new name is one
  rw [Function.comp_apply, Std.TreeSet.contains_ofList, Std.TreeSet.contains_ofList,
    List.contains_eq_mem, List.contains_eq_mem, h.parameters_eq]
  congr 1
  rw [decide_eq_decide, List.mem_map]
  constructor
  · rintro ⟨name', hname', heq⟩
    rwa [← h.injective (List.mem_append_left _ hname') (List.mem_append_right _ hname) heq]
  · intro hparameter
    exact ⟨name, hparameter, rfl⟩

theorem localOffsets_renamed (h : Function.RenamedBy σ f f') :
    localOffsets f'.declaration f'.body =
      (localOffsets f.declaration f.body).map (renameEntry σ) := by
  rw [localOffsets_eq, localNames_renamed h, List.zipIdx_map, localOffsets_eq, List.map_map,
    List.map_map]
  rfl

/-- A frame depends on the names of variables only to tell them apart. -/
theorem layout_renamed (h : Function.RenamedBy σ f f') :
    Frame.layout f'.declaration f'.body =
      ⟨(Frame.layout f.declaration f.body).locals.map (renameEntry σ),
        (Frame.layout f.declaration f.body).parameters.map (renameEntry σ)⟩ := by
  rw [layout, localOffsets_renamed h, parameterOffsets_renamed h]
  rfl

theorem mem_variables_of_entry {entry : String × Int}
    (h : entry ∈ parameterOffsets f.declaration ++ localOffsets f.declaration f.body) :
    entry.1 ∈ f.variables := by
  rcases List.mem_append.1 h with hparameter | hlocal
  · exact List.mem_append_left _ (mem_parameters_of_offset (List.mem_map_of_mem hparameter))
  · have hname := List.mem_map_of_mem (f := Prod.fst) hlocal
    rw [map_fst_localOffsets] at hname
    exact List.mem_append_right _ (mem_localNames.1 hname).1

/-- A renamed variable has the same offset. -/
theorem table_renamed (h : Function.RenamedBy σ f f') {name : String} (hname : name ∈ f.variables) :
    (Frame.layout f'.declaration f'.body).table[σ name]? =
      (Frame.layout f.declaration f.body).table[name]? := by
  refine Option.ext fun offset => ?_
  have hold : (Frame.layout f.declaration f.body).table[name]? = some offset ↔ _ :=
    Function.mem_of_offset?
  have hnew : (Frame.layout f'.declaration f'.body).table[σ name]? = some offset ↔ _ :=
    Function.mem_of_offset?
  rw [hold, hnew, parameterOffsets_renamed h, localOffsets_renamed h, ← List.map_append,
    List.mem_map]
  constructor
  · rintro ⟨⟨name', offset'⟩, hentry, heq⟩
    have hsame := h.injective (mem_variables_of_entry hentry) hname (congrArg Prod.fst heq)
    cases congrArg Prod.snd heq
    cases hsame
    exact hentry
  · intro hentry
    exact ⟨_, hentry, rfl⟩

theorem prologue_renamed (h : Function.RenamedBy σ f f') :
    prologue (Frame.layout f'.declaration f'.body) =
      prologue (Frame.layout f.declaration f.body) := by
  have hsize : (Frame.layout f'.declaration f'.body).localsSize =
      (Frame.layout f.declaration f.body).localsSize := by
    rw [layout_renamed h, localsSize, localsSize, List.length_map]
  rw [prologue, prologue, hsize]

end Frames

/-! ## Code -/

section Code

variable {platform : Platform} {program program' : Program} {σ : String → String}
  {f f' : Function}

theorem lowerCall_renamed (hprogram : program.Renamed program') {d d' : Declaration}
    (hname : d'.name = d.name) (harity : d'.arity = d.arity) {code : List Instruction}
    (h : lowerCall platform program (.function d) = .ok code) :
    lowerCall platform program' (.function d') = .ok code := by
  obtain ⟨g, hg, hsame, rfl⟩ := lowerCall_function_eq_ok h
  obtain ⟨g', τ, hg', hτ⟩ := hprogram.function? hg
  have harity' : g'.declaration.arity = d.arity := hτ.arity_eq.trans hsame
  unfold lowerCall
  simp only [hname, hg', harity, harity', if_pos]

/-- A renamed statement is lowered to the same instructions. -/
theorem lowerStatement_renamed (hprogram : program.Renamed program')
    (h : Function.RenamedBy σ f f') {k : Nat} {s s' : Statement}
    (hvariables : ∀ name ∈ s.variableName?, name ∈ f.variables) (hs : s.Renamed σ s')
    {code : List Instruction}
    (hcode : lowerStatement platform program f (Frame.layout f.declaration f.body).table k s =
      .ok code) :
    lowerStatement platform program' f' (Frame.layout f'.declaration f'.body).table k s' =
      .ok code := by
  have hword : ∀ name ∈ f.variables, ∀ operand,
      wordOf f.name (Frame.layout f.declaration f.body).table name = .ok operand →
      wordOf f'.name (Frame.layout f'.declaration f'.body).table (σ name) = .ok operand := by
    intro name hname operand hoperand
    unfold wordOf at hoperand ⊢
    rw [table_renamed h hname]
    -- the names stand in the error alone
    split at hoperand <;> cases hoperand
    rfl
  cases hs with
  | load name | store name =>
      obtain ⟨operand, hoperand, hcode⟩ := bind_eq_ok.1 hcode
      exact bind_eq_ok.2 ⟨operand, hword name (hvariables name rfl) operand hoperand, hcode⟩
  | call hname harity => exact lowerCall_renamed hprogram hname harity hcode
  | other hnone =>
      cases s with
      | load name | store name => cases hnone
      | call callee =>
          cases callee with
          | intrinsic service => exact hcode
          | function d => exact lowerCall_renamed hprogram rfl rfl hcode
      | jump target | jumpIfZero target =>
          -- the label depends on the name and the size of the function
          simp only [lowerStatement, lowerStatement.jumpLabel, h.name_eq, h.size_eq] at hcode ⊢
          exact hcode
      | prepareArguments => cases hcode
      | _ => exact hcode

theorem closing_renamed (h : Function.RenamedBy σ f f') : closing f' = closing f := by
  have hneeds : needsImplicitReturn f'.body = needsImplicitReturn f.body := by
    rw [needsImplicitReturn, h.back?_isReturn_eq, h.jumpTargets_eq, h.size_eq]
    rfl
  unfold closing
  rw [hneeds, h.size_eq, h.name_eq]

/-- The code of the statement at an index, behind its label. -/
def statementItems (platform : Platform) (program : Program) (function : Function)
    (entry : Statement × Nat) : Except CodegenError (List Item) := do
  let code ← lowerStatement platform program function
    (Frame.layout function.declaration function.body).table entry.2 entry.1
  return .label (statementLabel function.name entry.2) (some entry.1.text) :: code.map .code

theorem lowerFunction_eq :
    lowerFunction platform program f = (do
      let statements ← f.body.toList.zipIdx.mapM (statementItems platform program f)
      return [.directive (".globl " ++ platform.symbol f.name),
          .label (platform.symbol f.name) none] ++
        (prologue (Frame.layout f.declaration f.body)).map .code ++ statements.flatten ++
        closing f) :=
  rfl

/-- A renamed statement has the same label and the same code. -/
theorem statementItems_renamed (hprogram : program.Renamed program')
    (h : Function.RenamedBy σ f f') {s s' : Statement} {k : Nat} {part : List Item}
    (hvariables : ∀ name ∈ s.variableName?, name ∈ f.variables) (hs : s.Renamed σ s')
    (hpart : statementItems platform program f (s, k) = .ok part) :
    ∃ part', statementItems platform program' f' (s', k) = .ok part' ∧
      part'.map Item.bare = part.map Item.bare := by
  obtain ⟨code, hcode, hpart⟩ := bind_eq_ok.1 hpart
  cases hpart
  have hcode' := lowerStatement_renamed hprogram h hvariables hs hcode
  refine ⟨_, bind_eq_ok.2 ⟨code, hcode', rfl⟩, ?_⟩
  rw [List.map_cons, List.map_cons, h.name_eq]
  rfl

/-- A renamed function has the same code up to the comments. -/
theorem lowerFunction_renamed (hprogram : program.Renamed program')
    (h : Function.RenamedBy σ f f') {block : List Item}
    (hblock : lowerFunction platform program f = .ok block) :
    ∃ block', lowerFunction platform program' f' = .ok block' ∧
      block'.map Item.bare = block.map Item.bare := by
  rw [lowerFunction_eq] at hblock ⊢
  obtain ⟨parts, hparts, hblock⟩ := bind_eq_ok.1 hblock
  cases hblock
  have hvariables : ∀ s ∈ f.body.toList, ∀ name ∈ s.variableName?, name ∈ f.variables :=
    fun s hs name hname => List.mem_append_right _ (Body.mem_variableNames hs hname)
  have hpartners := forall₂_zipIdx ((List.forall₂_and_left _ _).2 ⟨hvariables, h.body⟩) 0
  have hstep : ∀ entry entry' part,
      (entry'.2 = entry.2 ∧ (∀ name ∈ entry.1.variableName?, name ∈ f.variables) ∧
        entry.1.Renamed σ entry'.1) →
      statementItems platform program f entry = .ok part →
        ∃ part', statementItems platform program' f' entry' = .ok part' ∧
          part'.map Item.bare = part.map Item.bare := by
    rintro ⟨s, k⟩ ⟨s', k'⟩ part ⟨rfl, hnames, hs⟩ hpart
    exact statementItems_renamed hprogram h hnames hs hpart
  obtain ⟨parts', hparts', hsame⟩ :=
    exists_mapM_eq_ok (List.map Item.bare) hpartners hstep hparts
  refine ⟨_, bind_eq_ok.2 ⟨parts', hparts', rfl⟩, ?_⟩
  simp only [List.map_append, List.map_flatten, hsame, closing_renamed h, prologue_renamed h,
    h.name_eq]

theorem symbolClash?_renamed (h : program.Renamed program')
    (hclash : symbolClash? platform program = none) : symbolClash? platform program' = none := by
  have hnames : (program'.functions.flatMap fun function =>
      platform.symbol function.name :: statementLabels function) =
        program.functions.flatMap fun function =>
          platform.symbol function.name :: statementLabels function := by
    unfold Program.Renamed at h
    generalize program.functions = functions at h
    generalize program'.functions = functions' at h
    induction h with
    | nil => rfl
    | cons head tail ih =>
        obtain ⟨σ, hσ⟩ := head
        simp only [List.flatMap_cons, statementLabels, hσ.name_eq, hσ.size_eq] at ih ⊢
        rw [ih]
  rw [← nodup_names_iff] at hclash ⊢
  rw [hnames]
  exact hclash

/-- Programs that differ in the names of variables alone have the same code up to the
comments. -/
theorem compileProgram_renamed (h : program.Renamed program') {items : List Item}
    (hitems : compileProgram platform program = .ok items) :
    ∃ items', compileProgram platform program' = .ok items' ∧
      items'.map Item.bare = items.map Item.bare := by
  unfold compileProgram at hitems ⊢
  split at hitems
  · cases hitems
  next hclash =>
      obtain ⟨blocks, hblocks, hitems⟩ := bind_eq_ok.1 hitems
      cases hitems
      obtain ⟨blocks', hblocks', hsame⟩ := exists_mapM_eq_ok (List.map Item.bare) h
        (fun f f' block ⟨σ, hσ⟩ hblock => lowerFunction_renamed h hσ hblock) hblocks
      rw [symbolClash?_renamed h hclash]
      refine ⟨_, bind_eq_ok.2 ⟨blocks', hblocks', rfl⟩, ?_⟩
      rw [List.map_cons, List.map_cons, List.map_flatten, List.map_flatten, hsame]

end Code

end StackCodegen.Native
