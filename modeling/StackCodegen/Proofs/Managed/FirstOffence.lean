import StackCodegen.Proofs.Managed.Refusals

/-!
# First offenders of a routine

A statement offends if the target does not provide it, or if it jumps past the end of its routine.
Lowering stops at the first statement that offends: a compilation of its routine is what comes in
front of the statement, followed by the error of the statement (`compile_of_firstOffence`). What
comes in front fails for want of room only. So the checks on bytecode, which alone know what is
reachable, never see such a routine; and a routine without offenders is refused for other causes.

Main statement: `compile_blames_first_offence`.
-/

set_option autoImplicit false

namespace StackCodegen

/-- Recogniser for the errors that blame a statement. -/
def CodegenError.blamesStatement : CodegenError → Bool
  | unsupported .. | unresolvedJumpTarget .. => true
  | _ => false

/-- Recogniser for the errors about names: of variables, functions, symbols, the entry, labels. -/
def CodegenError.blamesName : CodegenError → Bool
  | unresolvedVariable .. | unresolvedFunction .. | symbolClash .. | missingEntry
  | unboundLabel _ => true
  | _ => false

namespace Managed

open ClassFile
open ClassFile.ConstantPool (Asks Call Interning throw_bind)

/-! ## Offenders -/

/-- The error of a statement at an index of a body: it is not provided, or it jumps past the end. -/
inductive Offence (body : Body) (index : Nat) : Statement → CodegenError → Prop where
  | unprovided {statement : Statement} (missing : isProvided statement = false) :
      Offence body index statement (.unsupported .managed routineName index statement)
  | outside {statement : Statement} {target : UInt64} (jumps : statement.jumpTarget? = some target)
      (past : body.size < target.toNat) :
      Offence body index statement (.unresolvedJumpTarget routineName index target body.size)

/-- The first statement of a body that offends, and its error. -/
structure FirstOffence (body : Body) (index : Nat) (statement : Statement) (e : CodegenError) :
    Prop where
  at_index : body[index]? = some statement
  offends : Offence body index statement e
  least : ∀ k < index, ∀ earlier e', body[k]? = some earlier → ¬ Offence body k earlier e'

section Offences

variable {body : Body} {index index' : Nat} {statement statement' : Statement}
  {e e' : CodegenError}

theorem isProvided_of_jumps {target : UInt64} (h : statement.jumpTarget? = some target) :
    isProvided statement = true := by
  cases statement with
  | jump _ | jumpIfZero _ => rfl
  | _ => cases h

theorem Offence.blamesStatement (h : Offence body index statement e) :
    e.blamesStatement = true := by
  cases h <;> rfl

/-- A statement offends in one way. -/
theorem Offence.unique (h : Offence body index statement e)
    (h' : Offence body index statement e') : e = e' := by
  cases h with
  | unprovided hmissing =>
      cases h' with
      | unprovided => rfl
      | outside hjumps =>
          rw [isProvided_of_jumps hjumps] at hmissing
          cases hmissing
  | outside hjumps =>
      cases h' with
      | unprovided hmissing =>
          rw [isProvided_of_jumps hjumps] at hmissing
          cases hmissing
      | outside hjumps' =>
          cases hjumps.symm.trans hjumps'
          rfl

theorem FirstOffence.unique (h : FirstOffence body index statement e)
    (h' : FirstOffence body index' statement' e') : index = index' ∧ e = e' := by
  obtain rfl : index = index' := by
    rcases Nat.lt_trichotomy index index' with hlt | heq | hlt
    · exact absurd h.offends (h'.least index hlt statement e h.at_index)
    · exact heq
    · exact absurd h'.offends (h.least index' hlt statement' e' h'.at_index)
  cases h.at_index.symm.trans h'.at_index
  exact ⟨rfl, h.offends.unique h'.offends⟩

/-- A body in which a statement offends has a first one. -/
theorem exists_firstOffence (hget : body[index]? = some statement)
    (h : Offence body index statement e) :
    ∃ first ≤ index, ∃ statement' e', FirstOffence body first statement' e' := by
  classical
  -- the least index at which a statement offends, by whatever error
  have hsome : ∃ k, ∃ statement' e', body[k]? = some statement' ∧ Offence body k statement' e' :=
    ⟨index, statement, e, hget, h⟩
  obtain ⟨statement', e', hget', hoffends⟩ := Nat.find_spec hsome
  exact ⟨Nat.find hsome, Nat.find_min' hsome ⟨statement, e, hget, h⟩, statement', e', hget',
    hoffends, fun k hk earlier e'' hearlier hoffence =>
      Nat.find_min hsome hk ⟨earlier, e'', hearlier, hoffence⟩⟩

/-- A statement that does not offend is provided, and jumps inside the body or to its end. -/
theorem provided_of_not_offence (h : ∀ e, ¬ Offence body index statement e) :
    isProvided statement = true ∧
      ∀ target, statement.jumpTarget? = some target → target.toNat ≤ body.size := by
  constructor
  · exact Bool.of_not_eq_false fun hmissing => h _ (.unprovided hmissing)
  · exact fun target hjumps => Nat.le_of_not_lt fun hpast => h _ (.outside hjumps hpast)

/-- A body in which no statement offends is provided. -/
theorem provided_of_free
    (h : ∀ k statement e, body[k]? = some statement → ¬ Offence body k statement e) :
    Provided body := by
  constructor
  · intro statement hmem
    obtain ⟨k, hk⟩ := List.getElem?_of_mem hmem
    rw [Array.getElem?_toList] at hk
    exact (provided_of_not_offence fun e => h k statement e hk).1
  · rintro ⟨k, target⟩ hmem
    obtain ⟨⟨statement, k'⟩, hstatement, hjumps⟩ := List.mem_filterMap.1 hmem
    obtain ⟨target', hjumps, heq⟩ := Option.map_eq_some_iff.1 hjumps
    cases heq
    have hget := List.mem_zipIdx_iff_getElem?.1 hstatement
    rw [Array.getElem?_toList] at hget
    exact (provided_of_not_offence fun e => h k statement e hget).2 target hjumps

end Offences

/-! ## Lowering up to an offender -/

/-- The part of the main method in front of statement `count`. -/
def lowerFront (entries : List (String × UInt16)) (body : Body) (count : Nat) :
    Interning (List (List Instruction) × Label) := do
  let _ ← openReader
  (lowerFrom (.ofList entries) body.size 0 (body.toList.take count)).run (body.size + 1)

/-- The constants of the main method in front of statement `count`. -/
def frontConstants (body : Body) (count : Nat) : List Call :=
  openingConstants ++ (body.toList.take count).flatMap constantsOf

/-- What comes before statement `count` is lowered: the class with its constructor, the slots of the
variables, and the part of the main method in front. -/
def lowerBefore (className : String) (body : Body) (count : Nat) : Except CodegenError Unit := do
  let (c, entries) ← prepare className body
  let _ ← interned c (lowerFront entries body count)
  return ()

section Lowering

variable {body : Body} {slots : Std.TreeMap String UInt16} {length index : Nat}
  {statement : Statement} {e : CodegenError}

/-- A statement that offends is not lowered. -/
theorem lowerStatement_of_offence (h : Offence body index statement e) (next : Label) :
    (lowerStatement slots body.size index statement).run next = throw e := by
  cases h with
  | unprovided hmissing =>
      -- thrown at once, whatever the pool and the labels are
      cases statement with
      | call callee =>
          cases callee with
          | intrinsic service => cases hmissing
          | function declaration => rfl
      | returnZero | returnTop | prepareArguments => rfl
      | _ => cases hmissing
  | @outside target hjumps hpast =>
      have hresolve : resolveJump routineName index target body.size =
          .error (.unresolvedJumpTarget routineName index target body.size) := by
        rw [resolveJump, if_pos hpast]
      cases statement <;> cases hjumps
      · rw [lowerStatement, hresolve]
        rfl
      · rw [lowerStatement, hresolve]
        rfl

/-- Lowering stops at the first statement that is not lowered. -/
theorem lowerFrom_of_throw {front back : List Statement}
    (h : ∀ next, (lowerStatement slots length (index + front.length) statement).run next = throw e)
    (next : Label) :
    (lowerFrom slots length index (front ++ statement :: back)).run next =
      (lowerFrom slots length index front).run next >>= fun _ => throw e := by
  -- a statement in front that is not lowered either ends both sides
  induction front generalizing index next with
  | nil =>
      have hfirst : (lowerStatement slots length index statement).run next = throw e := h next
      rw [List.nil_append, lowerFrom_cons, lowerFrom_nil, pure_bind, hfirst, throw_bind]
  | cons head front ih =>
      have hrest : ∀ next, (lowerStatement slots length (index + 1 + front.length) statement).run
          next = throw e := by
        rw [Nat.add_right_comm]
        exact h
      rw [List.cons_append, lowerFrom_cons, lowerFrom_cons]
      simp only [ih hrest, bind_assoc, pure_bind, throw_bind]

/-- The main method of a body is what comes in front of the first offender, and its error. -/
theorem lowerMain_of_firstOffence {entries : List (String × UInt16)}
    (h : FirstOffence body index statement e) :
    lowerMain entries body = lowerFront entries body index >>= fun _ => throw e := by
  have hget : body.toList[index]? = some statement := by
    rw [Array.getElem?_toList]
    exact h.at_index
  obtain ⟨hlt, hstatement⟩ := List.getElem?_eq_some_iff.1 hget
  have hlength : (body.toList.take index).length = index := by
    rw [List.length_take, Nat.min_eq_left (Nat.le_of_lt hlt)]
  -- the body is cut at the offender
  have hsplit : body.toList =
      body.toList.take index ++ statement :: body.toList.drop (index + 1) := by
    rw [← hstatement, ← List.drop_eq_getElem_cons hlt, List.take_append_drop]
  have hstops : (lowerFrom (.ofList entries) body.size 0 body.toList).run (body.size + 1) =
      (lowerFrom (.ofList entries) body.size 0 (body.toList.take index)).run (body.size + 1) >>=
        fun _ => throw e := by
    conv_lhs => rw [hsplit]
    refine lowerFrom_of_throw (fun next => ?_) (body.size + 1)
    rw [hlength, Nat.zero_add]
    exact lowerStatement_of_offence h.offends next
  rw [lowerMain, lowerStatements_eq, hstops, lowerFront]
  simp only [bind_assoc, throw_bind]

/-- What is in front of a statement asks for the constants of the opening and of the statements
there. -/
theorem asks_lowerFront {entries : List (String × UInt16)} (hlaid : Laid entries) (count : Nat) :
    Asks (frontConstants body count) (UnloweredFrom entries body.size 0 (body.toList.take count))
      (fun _ _ => True) (lowerFront entries body count) := by
  have hfrom := asks_lowerFrom hlaid body.size (body.toList.take count) 0 (body.size + 1)
  refine asks_openReader.bind fun opening => ⟨hfrom.leadsTo, fun pool a pool' hrun => ?_, hfrom.fails⟩
  obtain ⟨hroom, hafter, -⟩ := hfrom.succeeds pool a pool' hrun
  exact ⟨hroom, hafter, fun _ _ _ => trivial⟩

/-- What comes in front of the first offender fails for want of room only. -/
theorem noRoom_of_lowerBefore {className : String} {e' : CodegenError}
    (h : FirstOffence body index statement e)
    (hfails : lowerBefore className body index = .error e') :
    NoRoom (prepareCalls className ++ frontConstants body index) body e' := by
  unfold lowerBefore at hfails
  rcases bind_eq_error.1 hfails with hfails | ⟨⟨c, entries⟩, hprepare, hfails⟩
  · exact (noRoom_of_prepare hfails).append _
  rcases bind_eq_error.1 hfails with hfails | ⟨_, -, hdone⟩
  · obtain ⟨constructor, hprepared⟩ := prepared_of_prepare hprepare
    have hlaid := laid_of_allocateSlots hprepared.slots_eq
    have hcause := (cause_of_interned (asks_lowerFront hlaid index) hfails).resolve_left ?_
    · rw [hprepared.pool_eq] at hcause
      exact .of_after hcause
    · -- a statement in front stands at an earlier index, so it does not offend
      rintro ⟨k, earlier, hk, hunlowered⟩
      have hlt : k < index := by
        have := (List.getElem?_eq_some_iff.1 hk).1
        rw [List.length_take] at this
        omega
      have hmem := List.mem_of_mem_take (List.mem_of_getElem? hk)
      rw [List.getElem?_take_of_lt hlt, Array.getElem?_toList] at hk
      obtain ⟨hprovided, htarget⟩ :=
        provided_of_not_offence fun e'' => h.least k hlt earlier e'' hk
      exact not_unlowered hprepared.slots_eq hmem hprovided htarget hunlowered
  · cases hdone

end Lowering

/-! ## Compilation -/

section Compile

variable {options : Options} {body : Body} {index : Nat} {statement : Statement}
  {e : CodegenError}

theorem lowerClass_of_firstOffence {className : String}
    (h : FirstOffence body index statement e) :
    lowerClass className body = lowerBefore className body index >>= fun _ => .error e := by
  rw [lowerClass_eq, lowerBefore, bind_assoc]
  refine bind_congr fun prepared => ?_
  obtain ⟨c, entries⟩ := prepared
  dsimp only
  simp only [lowerMain_of_firstOffence h, interned_bind, interned_throw, bind_assoc]
  rfl

/-- A compilation is what comes in front of the first offender, followed by its error. -/
theorem compile_of_firstOffence (h : FirstOffence body index statement e) :
    compile options body = lowerBefore options.className body index >>= fun _ => .error e := by
  rw [compile, compileClass, assembleMain, lowerClass_of_firstOffence h]
  cases lowerBefore options.className body index with
  | error room => rfl
  | ok _ => rfl

/-- Errors of limits and of the stack checks blame nothing in the source. -/
theorem blames_nothing (h : e.isLimit = true ∨ HeightError e) :
    e.blamesName = false ∧ e.blamesStatement = false := by
  rcases h with hlimit | hheight
  · cases e <;> first | cases hlimit; done | exact ⟨rfl, rfl⟩
  · cases hheight <;> exact ⟨rfl, rfl⟩

/-- A routine is refused for its first offender, for want of room, or by the stack checks. -/
theorem cause_of_compile (h : compile options body = .error e) :
    (∃ index statement, FirstOffence body index statement e) ∨
      e.isLimit = true ∨ HeightError e := by
  by_cases hfree : ∀ k statement e, body[k]? = some statement → ¬ Offence body k statement e
  · -- no name, label or target is missing on the way
    rcases refused_of_compile (provided_of_free hfree) h with
      hroom | ⟨_, -, hlarge | ⟨_, -, hflow⟩⟩
    · exact .inr (.inl hroom.isLimit)
    · exact .inr (.inl hlarge.isLimit)
    · exact .inr (.inr (analyse_eq_error hflow))
  · -- the bytecode of the main method is never made
    simp only [not_forall, not_not] at hfree
    obtain ⟨k, statement, e', hget, hoffence⟩ := hfree
    obtain ⟨first, -, statement', e'', hfirst⟩ := exists_firstOffence hget hoffence
    rw [compile_of_firstOffence hfirst] at h
    rcases bind_eq_error.1 h with hbefore | ⟨_, -, herror⟩
    · exact .inr (.inl (noRoom_of_lowerBefore hfirst hbefore).isLimit)
    · cases herror
      exact .inl ⟨first, statement', hfirst⟩

end Compile

/-- The managed target blames the first offender, and never a name. Where some statement of a
body is not provided or jumps past the end, the body is refused for the first such statement, or for
want of room before that statement is reached, whatever else is wrong with it; where a statement is
blamed, it is the first such statement; and no error is about a name. -/
theorem compile_blames_first_offence (options : Options) (body : Body) :
    (∀ index statement e, body[index]? = some statement → Offence body index statement e →
        ∃ first ≤ index, ∃ statement' e', FirstOffence body first statement' e' ∧
          (lowerBefore options.className body first = .ok () ∧
              compile options body = .error e' ∨
            ∃ room, lowerBefore options.className body first = .error room ∧
              NoRoom (prepareCalls options.className ++ frontConstants body first) body room ∧
              compile options body = .error room)) ∧
      ∀ e, compile options body = .error e →
        e.blamesName = false ∧
          (e.blamesStatement = true ↔ ∃ index statement, FirstOffence body index statement e) := by
  constructor
  · intro index statement e hget hoffence
    obtain ⟨first, hle, statement', e', hfirst⟩ := exists_firstOffence hget hoffence
    refine ⟨first, hle, statement', e', hfirst, ?_⟩
    rw [compile_of_firstOffence hfirst]
    cases hbefore : lowerBefore options.className body first with
    | ok _ => exact .inl ⟨rfl, rfl⟩
    | error room => exact .inr ⟨room, rfl, noRoom_of_lowerBefore hfirst hbefore, rfl⟩
  · intro e h
    have hblames : (∃ index statement, FirstOffence body index statement e) →
        e.blamesStatement = true := fun ⟨_, _, hfirst⟩ => hfirst.offends.blamesStatement
    rcases cause_of_compile h with hfirst | hother
    · refine ⟨?_, fun _ => hfirst, hblames⟩
      obtain ⟨_, _, -, hoffence, -⟩ := hfirst
      cases hoffence <;> rfl
    · -- an error of limits or of the stack checks blames neither a name nor a statement
      obtain ⟨hname, hstatement⟩ := blames_nothing hother
      exact ⟨hname, fun hblamed => absurd hblamed (by rw [hstatement]; decide), hblames⟩

/-- A routine that jumps past its end, with a return behind the jump. -/
def jumpsPast : Body := #[.push 1, .jump 5, .returnZero]

/-- The return offends as well, but the jump is blamed. -/
theorem jumpsPast_blamed :
    Offence jumpsPast 2 .returnZero (.unsupported .managed "main" 2 .returnZero) ∧
      compile .standard jumpsPast = .error (.unresolvedJumpTarget "main" 1 5 3) := by
  have hreturn : Offence jumpsPast 2 .returnZero (.unsupported .managed "main" 2 .returnZero) :=
    .unprovided rfl
  have hjump : FirstOffence jumpsPast 1 (.jump 5) (.unresolvedJumpTarget "main" 1 5 3) := by
    refine ⟨rfl, .outside rfl (by decide), ?_⟩
    intro k hk earlier e hget hoffence
    obtain rfl : k = 0 := by omega
    obtain rfl : Statement.push 1 = earlier := Option.some.inj hget
    cases hoffence with
    | unprovided hmissing => cases hmissing
    | outside hjumps => cases hjumps
  obtain ⟨first, -, statement, e, hfirst, hcases⟩ :=
    (compile_blames_first_offence .standard jumpsPast).1 2 _ _ rfl hreturn
  obtain ⟨rfl, rfl⟩ := hfirst.unique hjump
  obtain ⟨_, hbefore⟩ := exists_ok_of_toBool
    (by decide +kernel : (lowerBefore Options.standard.className jumpsPast 1).toBool = true)
  rcases hcases with ⟨-, hcompile⟩ | ⟨room, hroom, -, -⟩
  · exact ⟨hreturn, hcompile⟩
  · rw [hbefore] at hroom
    cases hroom

end Managed

end StackCodegen
