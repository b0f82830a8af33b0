import StackCodegen.Proofs.Native.References
import StackCodegen.Proofs.Program.Store

/-!
# Accepted programs and first offenders

Names are checked before any statement is lowered, and statements are lowered function by function,
each body in order. So a program is refused for the first function whose symbol is taken
(`FirstClash`), whatever its statements are; else for the first statement that is not resolved
(`FirstOffence`). Variables give no cause: the frame of a function has a word for each variable that
its body names (`exists_wordOf`).

Main statement: the programs that clash nowhere and are resolved are compiled, and of any other one
the first offender is reported (`compile_accepts_resolved`).
-/

set_option autoImplicit false

namespace StackCodegen.Native

/-! ## Offenders -/

/-- A function whose symbol is the label of a statement, or of the end, of some function. -/
def Clashes (platform : Platform) (program : Program) (f : Function) : Prop :=
  ∃ g ∈ program.functions, ∃ i ≤ g.body.size, platform.symbol f.name = statementLabel g.name i

/-- The error of a statement at an index of a function: the reserved statement, a jump past the end,
or a call of a function that the program does not declare with that arity. -/
inductive Offence (program : Program) (f : Function) (index : Nat) :
    Statement → CodegenError → Prop where
  | reserved :
      Offence program f index .prepareArguments
        (.unsupported .native f.name index .prepareArguments)
  | outside {statement : Statement} {target : UInt64} (jumps : statement.jumpTarget? = some target)
      (past : f.body.size < target.toNat) :
      Offence program f index statement
        (.unresolvedJumpTarget f.name index target f.body.size)
  | undeclared {declaration : Declaration}
      (missing : ∀ g ∈ program.functions, g.name = declaration.name →
        g.declaration.arity ≠ declaration.arity) :
      Offence program f index (.call (.function declaration))
        (.unresolvedFunction declaration.name declaration.arity)

/-- The error for the first function whose symbol is taken. -/
inductive FirstClash (platform : Platform) (program : Program) : CodegenError → Prop where
  | found {front back : List Function} {f : Function}
      (functions_eq : program.functions = front ++ f :: back)
      (free : ∀ g ∈ front, ¬ Clashes platform program g) (taken : Clashes platform program f) :
      FirstClash platform program (.symbolClash f.name (platform.symbol f.name))

/-- The error for the first statement of a body that is not resolved. -/
def FirstOffenceIn (program : Program) (f : Function) (e : CodegenError) : Prop :=
  ∃ done statement todo, f.body.toList = done ++ statement :: todo ∧
    (∀ s ∈ done, s.Resolved program f.body.size) ∧ Offence program f done.length statement e

/-- The error for the first statement of a program that is not resolved, function by function. -/
def FirstOffence (program : Program) (e : CodegenError) : Prop :=
  ∃ front f back, program.functions = front ++ f :: back ∧
    (∀ g ∈ front, g.body.Resolved program) ∧ FirstOffenceIn program f e

/-! ## Statements -/

section Statements

variable {platform : Platform} {program : Program} {f : Function} {index : Nat}
  {statement : Statement} {e : CodegenError}

/-- A called function is missing where no function has its name and arity. -/
theorem not_resolved_call_iff {declaration : Declaration} {length : Nat} :
    ¬ (Statement.call (.function declaration)).Resolved program length ↔
      ∀ g ∈ program.functions, g.name = declaration.name →
        g.declaration.arity ≠ declaration.arity := by
  constructor
  · intro h g hg hname harity
    exact h ⟨g, (program.function?_eq_some_iff _ g).2 ⟨hg, hname⟩, harity⟩
  · rintro h ⟨g, hg, harity⟩
    obtain ⟨hmem, hname⟩ := (program.function?_eq_some_iff _ g).1 hg
    exact h g hmem hname harity

/-- A statement offends if and only if it is not resolved. -/
theorem exists_offence_iff :
    (∃ e, Offence program f index statement e) ↔ ¬ statement.Resolved program f.body.size := by
  constructor
  · rintro ⟨e, h⟩ hresolved
    cases h with
    | reserved => exact hresolved
    | outside hjumps hpast => exact absurd (hresolved.target_le hjumps) (Nat.not_le.2 hpast)
    | undeclared hmissing => exact not_resolved_call_iff.2 hmissing hresolved
  · intro h
    cases statement with
    | jump target | jumpIfZero target => exact ⟨_, .outside rfl (Nat.lt_of_not_le h)⟩
    | call callee =>
        cases callee with
        | intrinsic service => exact absurd trivial h
        | function declaration => exact ⟨_, .undeclared (not_resolved_call_iff.1 h)⟩
    | prepareArguments => exact ⟨_, .reserved⟩
    | _ => exact absurd trivial h

/-- A variable of a body has its word, so naming it is no error. -/
theorem exists_wordOf {name : String} (hmem : statement ∈ f.body.toList)
    (hname : statement.variableName? = some name) :
    ∃ word, wordOf f.name f.frame.table name = .ok word := by
  obtain ⟨offset, hoffset⟩ :=
    Function.exists_offset?_iff.2 (.inr (f.body.mem_variableNames hmem hname))
  have hfound : f.frame.table[name]? = some offset := hoffset
  exact ⟨_, by rw [wordOf, hfound]⟩

/-- A jump is refused for its target alone. -/
theorem jumpLabel_eq_error {target : UInt64} :
    lowerStatement.jumpLabel f index target = .error e ↔
      f.body.size < target.toNat ∧ e = .unresolvedJumpTarget f.name index target f.body.size := by
  rw [lowerStatement.jumpLabel, map_eq_error, resolveJump]
  split
  next hpast => simp [hpast, eq_comm]
  next hinside => simp [hinside]

/-- A call is refused where no function has its name and arity. -/
theorem lowerCall_eq_error {declaration : Declaration} :
    lowerCall platform program (.function declaration) = .error e ↔
      ¬ (Statement.call (.function declaration)).Resolved program f.body.size ∧
        e = .unresolvedFunction declaration.name declaration.arity := by
  have hresolved : (Statement.call (.function declaration)).Resolved program f.body.size ↔
      ∃ g, program.function? declaration.name = some g ∧
        g.declaration.arity = declaration.arity := Iff.rfl
  rw [hresolved, lowerCall]
  cases program.function? declaration.name with
  | none => simp [eq_comm]
  | some g =>
      dsimp only
      split
      next harity => simp [harity]
      next harity =>
          simp only [Except.error.injEq, Option.some.injEq, exists_eq_left', harity,
            not_false_eq_true, true_and]
          exact eq_comm

/-- The error of a statement is its offence. -/
theorem lowerStatement_eq_error_iff (hmem : statement ∈ f.body.toList) :
    lowerStatement platform program f f.frame.table index statement = .error e ↔
      Offence program f index statement e := by
  constructor
  · intro h
    cases statement with
    | load name | store name =>
        obtain ⟨word, hword⟩ := exists_wordOf hmem rfl
        rw [lowerStatement, hword] at h
        cases h
    | jump target | jumpIfZero target =>
        rcases bind_eq_error.1 h with h | ⟨_, -, hdone⟩
        · obtain ⟨hpast, rfl⟩ := jumpLabel_eq_error.1 h
          exact .outside rfl hpast
        · cases hdone
    | call callee =>
        cases callee with
        | intrinsic service => cases h
        | function declaration =>
            obtain ⟨hmissing, rfl⟩ := (lowerCall_eq_error (f := f)).1 h
            exact .undeclared (not_resolved_call_iff.1 hmissing)
    | prepareArguments =>
        cases h
        exact .reserved
    | _ => cases h
  · intro h
    cases h with
    | reserved => rfl
    | @outside _ target hjumps hpast =>
        have herror : lowerStatement.jumpLabel f index target =
            .error (.unresolvedJumpTarget f.name index target f.body.size) :=
          jumpLabel_eq_error.2 ⟨hpast, rfl⟩
        cases statement <;> cases hjumps
        · exact bind_eq_error.2 (.inl herror)
        · exact bind_eq_error.2 (.inl herror)
    | undeclared hmissing =>
        exact (lowerCall_eq_error (f := f)).2 ⟨not_resolved_call_iff.2 hmissing, rfl⟩

/-- A statement is lowered if and only if it is resolved. -/
theorem exists_lowerStatement_iff (hmem : statement ∈ f.body.toList) :
    (∃ code, lowerStatement platform program f f.frame.table index statement = .ok code) ↔
      statement.Resolved program f.body.size := by
  have hoffence : (∃ e, Offence program f index statement e) ↔
      ¬ statement.Resolved program f.body.size := exists_offence_iff
  rw [exists_ok_iff, ← not_iff_not, ← hoffence]
  simp only [ne_eq, lowerStatement_eq_error_iff hmem, not_forall, not_not]

end Statements

/-! ## Functions -/

section Functions

variable {platform : Platform} {program : Program} {f : Function} {e : CodegenError}

/-- A block fails with the error of the first statement that is not lowered. -/
theorem lowerFunction_eq_error_iff_lowerStatement :
    lowerFunction platform program f = .error e ↔
      ∃ done statement todo, f.body.toList = done ++ statement :: todo ∧
        (∀ s k, (s, k) ∈ done.zipIdx →
          ∃ code, lowerStatement platform program f f.frame.table k s = .ok code) ∧
        lowerStatement platform program f f.frame.table done.length statement = .error e := by
  rw [lowerFunction, bind_eq_error]
  -- what follows the statements does not fail
  refine Iff.trans (or_iff_left ?_) (mapM_eq_error.trans ?_)
  · rintro ⟨_, -, hdone⟩
    cases hdone
  constructor
  · rintro ⟨front, ⟨statement, k⟩, back, hsplit, hfront, hfails⟩
    obtain ⟨done, rest, hbody, rfl, hrest⟩ := List.zipIdx_eq_append_iff.1 hsplit
    obtain ⟨_, todo, rfl, heq, -⟩ := List.zipIdx_eq_cons_iff.1 hrest.symm
    cases heq
    rw [Nat.zero_add] at hfails
    refine ⟨done, _, todo, hbody, fun s k hmem => ?_, ?_⟩
    · obtain ⟨_, hlowered⟩ := hfront (s, k) hmem
      obtain ⟨code, hcode, -⟩ := bind_eq_ok.1 hlowered
      exact ⟨code, hcode⟩
    · rcases bind_eq_error.1 hfails with hfails | ⟨_, -, hdone⟩
      · exact hfails
      · cases hdone
  · rintro ⟨done, statement, todo, hbody, hdone, hfails⟩
    refine ⟨done.zipIdx, (statement, done.length), todo.zipIdx (done.length + 1), ?_, ?_, ?_⟩
    · rw [hbody, List.zipIdx_append, List.zipIdx_cons, Nat.zero_add]
    · rintro ⟨s, k⟩ hmem
      obtain ⟨code, hcode⟩ := hdone s k hmem
      exact ⟨_, bind_eq_ok.2 ⟨code, hcode, rfl⟩⟩
    · exact bind_eq_error.2 (.inl hfails)

/-- A function is refused for the first statement of its body that is not resolved. -/
theorem lowerFunction_eq_error_iff :
    lowerFunction platform program f = .error e ↔ FirstOffenceIn program f e := by
  rw [lowerFunction_eq_error_iff_lowerStatement]
  refine exists_congr fun done => exists_congr fun statement => exists_congr fun todo =>
    and_congr_right fun hbody => and_congr ?_ ?_
  · have hmem : ∀ s ∈ done, s ∈ f.body.toList := fun s hs =>
      hbody ▸ List.mem_append_left _ hs
    constructor
    · intro h s hs
      obtain ⟨k, hk⟩ := List.getElem?_of_mem hs
      exact (exists_lowerStatement_iff (hmem s hs)).1 (h s k (List.mem_zipIdx_iff_getElem?.2 hk))
    · intro h s k hsk
      have hs := List.mem_of_getElem? (List.mem_zipIdx_iff_getElem?.1 hsk)
      exact (exists_lowerStatement_iff (hmem s hs)).2 (h s hs)
  · exact lowerStatement_eq_error_iff (hbody ▸ List.mem_append_right _ List.mem_cons_self)

/-- A body with an offence is not resolved. -/
theorem not_resolved_of_firstOffenceIn (h : FirstOffenceIn program f e) :
    ¬ f.body.Resolved program := by
  obtain ⟨done, statement, todo, hbody, -, hoffence⟩ := h
  intro hresolved
  refine exists_offence_iff.1 ⟨e, hoffence⟩ (hresolved done.length statement ?_)
  rw [← Array.getElem?_toList, hbody]
  simp

/-- A function is lowered if and only if its body is resolved. -/
theorem exists_lowerFunction_iff :
    (∃ items, lowerFunction platform program f = .ok items) ↔ f.body.Resolved program := by
  constructor
  · rintro ⟨items, h⟩ k statement hk
    obtain ⟨blocks, hblocks, -⟩ := bind_eq_ok.1 h
    have hzip : f.body.toList.zipIdx[k]? = some (statement, k) := by
      rw [List.getElem?_zipIdx, Array.getElem?_toList, hk]
      simp
    obtain ⟨block, hblock, -⟩ := (mapM_eq_ok hblocks).2 k _ hzip
    obtain ⟨code, hcode, -⟩ := bind_eq_ok.1 hblock
    exact resolved_of_lowerStatement hcode
  · intro hresolved
    rw [exists_ok_iff]
    intro e he
    exact not_resolved_of_firstOffenceIn (lowerFunction_eq_error_iff.1 he) hresolved

end Functions

/-! ## Programs -/

section Programs

variable {platform : Platform} {program : Program} {e : CodegenError}

/-- Of the functions the first one that is not resolved is refused, for its first offence. -/
theorem lowerFunctions_eq_error_iff :
    program.functions.mapM (lowerFunction platform program) = .error e ↔
      FirstOffence program e := by
  rw [mapM_eq_error]
  simp only [exists_lowerFunction_iff, lowerFunction_eq_error_iff]
  rfl

/-- The check on symbols looks for clashes. -/
theorem contains_statementLabels_iff {f : Function} :
    (Std.TreeSet.ofList (program.functions.flatMap statementLabels)).contains
      (platform.symbol f.name) = true ↔ Clashes platform program f := by
  rw [Std.TreeSet.contains_ofList, List.contains_eq_mem, decide_eq_true_eq, List.mem_flatMap]
  refine exists_congr fun g => and_congr_right fun _ => ?_
  simp only [statementLabels, List.mem_map, List.mem_range, Nat.lt_succ_iff, eq_comm]

theorem symbolClash?_eq_none_iff :
    symbolClash? platform program = none ↔
      ∀ f ∈ program.functions, ¬ Clashes platform program f := by
  rw [symbolClash?, List.find?_eq_none]
  exact forall₂_congr fun f _ => not_congr contains_statementLabels_iff

/-- The check on symbols finds the first clash. -/
theorem firstClash_iff :
    FirstClash platform program e ↔ ∃ f, symbolClash? platform program = some f ∧
      e = .symbolClash f.name (platform.symbol f.name) := by
  have hfound : ∀ f, symbolClash? platform program = some f ↔
      Clashes platform program f ∧ ∃ front back, program.functions = front ++ f :: back ∧
        ∀ g ∈ front, ¬ Clashes platform program g := by
    intro f
    rw [symbolClash?, List.find?_eq_some_iff_append]
    simp only [contains_statementLabels_iff, Bool.not_eq_true', ← Bool.not_eq_true]
  constructor
  · rintro ⟨hfunctions, hfree, htaken⟩
    exact ⟨_, (hfound _).2 ⟨htaken, _, _, hfunctions, hfree⟩, rfl⟩
  · rintro ⟨f, hf, rfl⟩
    obtain ⟨htaken, front, back, hfunctions, hfree⟩ := (hfound f).1 hf
    exact .found hfunctions hfree htaken

/-- A compilation fails for the first clash, else for the first offence. -/
theorem compile_eq_error_iff :
    compile platform program = .error e ↔ FirstClash platform program e ∨
      (∀ f ∈ program.functions, ¬ Clashes platform program f) ∧ FirstOffence program e := by
  have hoffence : program.functions.mapM (lowerFunction platform program) = .error e ↔
      FirstOffence program e := lowerFunctions_eq_error_iff
  rw [compile, map_eq_error, compileListing, map_eq_error, firstClash_iff,
    ← symbolClash?_eq_none_iff, ← hoffence, compileProgram]
  cases symbolClash? platform program with
  | some f => simp [eq_comm]
  | none =>
      dsimp only
      rw [bind_eq_error]
      constructor
      · rintro (h | ⟨_, -, hdone⟩)
        · exact .inr ⟨rfl, h⟩
        · cases hdone
      · rintro (⟨f, hf, -⟩ | ⟨-, h⟩)
        · cases hf
        · exact .inl h

/-- No offence names a variable. -/
theorem ne_unresolvedVariable_of_offence {f : Function} {index : Nat} {statement : Statement}
    (h : Offence program f index statement e) (function name : String) :
    e ≠ .unresolvedVariable function name := by
  rintro rfl
  cases h

end Programs

/-- The native target accepts the resolvable programs, and blames the first offender of any
other. A program is compiled if and only if no function has the label of a statement for its
symbol and all its references are resolved. If a symbol is taken, the first function with such a
symbol is reported, whatever else is wrong; else the first statement that is not resolved, in the
order of the functions and of their bodies. No variable is ever found missing. -/
theorem compile_accepts_resolved (platform : Platform) (program : Program) :
    ((∃ text, compile platform program = .ok text) ↔
        (∀ f ∈ program.functions, ¬ Clashes platform program f) ∧ program.Resolved) ∧
      (∀ e, compile platform program = .error e ↔ FirstClash platform program e ∨
        (∀ f ∈ program.functions, ¬ Clashes platform program f) ∧ FirstOffence program e) ∧
      ∀ function name, compile platform program ≠ .error (.unresolvedVariable function name) := by
  refine ⟨⟨?_, ?_⟩, fun e => compile_eq_error_iff, fun function name h => ?_⟩
  · rintro ⟨text, htext⟩
    refine ⟨fun f hf hclashes => ?_, resolved_of_compile htext⟩
    obtain ⟨items, hitems, -⟩ := code_of_compile htext
    exact symbolClash?_eq_none_iff.1 (blocks_of_compileProgram hitems).1 f hf hclashes
  · rintro ⟨hfree, hresolved⟩
    rw [exists_ok_iff]
    intro e he
    rcases compile_eq_error_iff.1 he with ⟨hfunctions, -, htaken⟩ | ⟨-, front, f, back,
      hfunctions, -, hfirst⟩
    · exact hfree _ (by rw [hfunctions]; simp) htaken
    · exact not_resolved_of_firstOffenceIn hfirst (hresolved f (by rw [hfunctions]; simp))
  · rcases compile_eq_error_iff.1 h with hclash | ⟨-, front, f, back, -, -, done, statement, todo,
      -, -, hoffence⟩
    · cases hclash
    · exact ne_unresolvedVariable_of_offence hoffence function name rfl

end StackCodegen.Native
