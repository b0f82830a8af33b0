import StackCodegen.Program.Document
import StackCodegen.Proofs.Json.Reader
import StackCodegen.Proofs.Program.Store

/-!
# Programs read back from their documents

The document of a program is read back as the program: its functions in their order, each with its
name, its parameters and its statements (`parse_render`).

Every part of a document is read back by the reader of that part, whatever stands in it: constants
over all words, targets over all unsigned 64-bit numbers, names over all texts
(`statement?_ofStatement`, `function?_ofFunction`). Numbers of a document are numerals of integers,
so the text of the document is read back first (`Json.read?_render`).
-/

set_option autoImplicit false

namespace StackCodegen

namespace Document

/-! ## Numbers -/

/-- The numeral of an integer stands for it. -/
theorem integer?_toString (i : Int) : integer? (.number (toString i)) = some i := by
  have hdigits : (Nat.toDigits 10 i.natAbs).all Text.isDigit = true :=
    List.all_eq_true.2 fun _ => Text.isDigit_of_mem_toDigits
  have htext := Text.toList_toString i
  by_cases hneg : i < 0
  · have hnonzero : (i.natAbs != 0) = true := bne_iff_ne.2 (Int.natAbs_ne_zero.2 (by omega))
    have hvalue : -(i.natAbs : Int) = i := by omega
    rw [if_pos hneg] at htext
    simp only [integer?, htext, hdigits, Text.value_toDigits, hnonzero, hvalue, Bool.and_self,
      if_true]
  · rw [if_neg hneg] at htext
    simp only [integer?, htext]
    split
    next digits heq =>
        have hsign : '-' ∈ Nat.toDigits 10 i.natAbs := heq ▸ List.mem_cons_self
        exact absurd hsign (Text.sign_notMem_toDigits _)
    next =>
        rw [if_pos hdigits, Text.value_toDigits, Int.natAbs_of_nonneg (by omega)]

/-- Every word is read back. -/
theorem word?_toInt (w : Int32) : word? (.number (toString w.toInt)) = some w := by
  have hlow := w.le_toInt
  have hhigh := w.toInt_le
  simp only [word?, integer?_toString, Option.bind_eq_bind, Option.bind_some]
  rw [if_pos ⟨hlow, hhigh⟩, Int32.ofInt_toInt]

/-- Every target is read back. -/
theorem target?_toNat (target : UInt64) :
    target? (.number (toString target.toNat)) = some target := by
  have hbound := target.toNat_lt
  have hinteger : integer? (.number (toString target.toNat)) = some (target.toNat : Int) :=
    integer?_toString target.toNat
  simp only [target?, hinteger, Option.bind_eq_bind, Option.bind_some]
  rw [if_pos (by omega), Int.toNat_natCast, UInt64.ofNat_toNat]

/-! ## Parts of a document -/

/-- Items that are read back one by one are read back together. -/
theorem mapM_map_eq_some {α β : Type} (write : α → β) {item? : β → Option α}
    (h : ∀ a, item? (write a) = some a) (items : List α) :
    (items.map write).mapM item? = some items := by
  have hread : item? ∘ write = fun a => pure (id a) := funext h
  rw [List.mapM_map, hread, List.mapM_pure, List.map_id]
  rfl

theorem declaration?_ofDeclaration (d : Declaration) :
    declaration? (ofDeclaration d) = some d := by
  have hparameters : parameters? (.array (d.parameters.map ofText)) = some d.parameters :=
    mapM_map_eq_some ofText (fun _ => rfl) d.parameters
  simp [declaration?, ofDeclaration, keyed?, required?, valuesOf, text?, ofText, hparameters]

theorem callee?_ofCallee (callee : Callee) : callee? (ofCallee callee) = some callee := by
  cases callee with
  | intrinsic service => cases service <;> rfl
  | function declaration =>
      have hdeclaration := declaration?_ofDeclaration declaration
      simp [callee?, ofCallee, tagged, hdeclaration]

/-- Every statement is read back. -/
theorem statement?_ofStatement (statement : Statement) :
    statement? (ofStatement statement) = some statement := by
  cases statement with
  | push value => exact congrArg (Option.map Statement.push) (word?_toInt value)
  | binary op => exact congrArg (Option.map Statement.binary) (operator?_operatorName op)
  | jump target => exact congrArg (Option.map Statement.jump) (target?_toNat target)
  | jumpIfZero target => exact congrArg (Option.map Statement.jumpIfZero) (target?_toNat target)
  | call callee => exact congrArg (Option.map Statement.call) (callee?_ofCallee callee)
  | nop | load _ | store _ | negate | returnZero | returnTop | pop | prepareArguments => rfl

theorem body?_ofBody (body : Body) :
    body? (.array (body.toList.map ofStatement)) = some body := by
  have hstatements := mapM_map_eq_some ofStatement statement?_ofStatement body.toList
  simp only [body?, items?, Option.bind_eq_bind, Option.bind_some, hstatements]
  rfl

/-- Every function is read back. -/
theorem function?_ofFunction (f : Function) : function? (ofFunction f) = some f := by
  have hdeclaration := declaration?_ofDeclaration f.declaration
  have hbody := body?_ofBody f.body
  simp [function?, ofFunction, keyed?, required?, valuesOf, hdeclaration, hbody]

/-- The functions of a document are read back in their order. -/
theorem functions?_ofProgram (p : Program) : functions? (ofProgram p) = some p.functions :=
  mapM_map_eq_some ofFunction function?_ofFunction p.functions

/-! ## Numbers of a document -/

theorem integral_toNat (target : UInt64) :
    Json.Integral (Json.number (toString target.toNat)).tokens :=
  Json.integral_toString target.toNat

theorem integral_tagged (tag : String) {value : Json} (h : Json.Integral value.tokens) :
    Json.Integral (tagged tag value).tokens :=
  Json.integral_object (by simpa using h)

theorem integral_ofDeclaration (d : Declaration) : Json.Integral (ofDeclaration d).tokens := by
  refine Json.integral_object (List.forall_mem_cons.2 ⟨Json.integral_string _, ?_⟩)
  refine List.forall_mem_singleton.2 (Json.integral_array ?_)
  exact List.forall_mem_map.2 fun parameter _ => Json.integral_string (some parameter)

theorem integral_ofStatement (statement : Statement) :
    Json.Integral (ofStatement statement).tokens := by
  cases statement with
  | push value => exact integral_tagged _ (Json.integral_toString _)
  | jump target | jumpIfZero target => exact integral_tagged _ (integral_toNat target)
  | load _ | store _ | negate | binary _ => exact integral_tagged _ (Json.integral_string _)
  | call callee =>
      cases callee with
      | intrinsic service => exact integral_tagged _ (integral_tagged _ (Json.integral_string _))
      | function declaration =>
          exact integral_tagged _ (integral_tagged _ (integral_ofDeclaration declaration))
  | nop | returnZero | returnTop | pop | prepareArguments => exact Json.integral_string _

theorem integral_ofFunction (f : Function) : Json.Integral (ofFunction f).tokens := by
  refine Json.integral_object (List.forall_mem_cons.2 ⟨integral_ofDeclaration _, ?_⟩)
  refine List.forall_mem_singleton.2 (Json.integral_array ?_)
  exact List.forall_mem_map.2 fun statement _ => integral_ofStatement statement

/-- The numbers of a document are numerals of integers. -/
theorem integral_ofProgram (p : Program) : Json.Integral (ofProgram p).tokens :=
  Json.integral_array (List.forall_mem_map.2 fun f _ => integral_ofFunction f)

end Document

/-- The document of a program is read back as the program: the same functions in the order of
their addition, with the same names, parameters and statements. -/
theorem Program.parse_render (p : Program) : Program.parse p.render = .ok p := by
  have hvalue : Json.read? p.render = some (Document.ofProgram p, []) :=
    Json.read?_render (Document.integral_ofProgram p)
  have hfunctions := Document.functions?_ofProgram p
  have hprogram := Program.ofFunctions?_functions p
  simp only [Program.parse, hvalue, hfunctions, hprogram]
  rfl

end StackCodegen
