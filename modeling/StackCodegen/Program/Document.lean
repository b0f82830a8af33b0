import StackCodegen.Json.Reader
import StackCodegen.Program.Basic

/-!
# Programs as JSON documents

The written form of a program: an array of functions, each an object with its declaration and its
body. A statement without data is a string, any other one an object whose only key names it.

A reader admits some other spellings. Fields may come in any order and unknown ones are skipped;
the parameters of a declaration may be missing; a declaration or a function may be the array of its
fields; a name without data may be the key of `null`. Known fields must not be repeated, and
integers must be plain and in range.
-/

set_option autoImplicit false

namespace StackCodegen

namespace Document

/-! ## Spellings -/

/-- The written name of an operator. -/
def operatorName : BinaryOp → String
  | .add => "Plus"
  | .sub => "Minus"
  | .mul => "Times"
  | .div => "Div"
  | .rem => "Rem"
  | .and => "And"
  | .or => "Or"
  | .eq => "Eq"
  | .ne => "Neq"
  | .gt => "Gt"
  | .lt => "Lt"
  | .le => "Leq"
  | .ge => "Geq"

/-- The operator of a written name. -/
def operator? (name : String) : Option BinaryOp :=
  BinaryOp.all.find? fun op => operatorName op == name

theorem operator?_operatorName (op : BinaryOp) : operator? (operatorName op) = some op := by
  cases op <;> decide

/-- The written name of a service. -/
def serviceName : Intrinsic → String
  | .read => "READ"
  | .write => "WRITE"

/-- The service of a written name. -/
def service? : String → Option Intrinsic
  | "READ" => some .read
  | "WRITE" => some .write
  | _ => none

/-- The statement of a written name that goes without data. -/
def bareStatement? : String → Option Statement
  | "Nop" => some .nop
  | "Ret0" => some .returnZero
  | "Ret1" => some .returnTop
  | "Pop" => some .pop
  | "PreArgs" => some .prepareArguments
  | _ => none

/-! ## Writing -/

/-- A text as a value. -/
def ofText (text : String) : Json := .string (some text)

/-- An object with a single field. -/
def tagged (tag : String) (value : Json) : Json := .object [(some tag, value)]

/-- The written form of a declaration. -/
def ofDeclaration (d : Declaration) : Json :=
  .object [(some "name", ofText d.name),
    (some "parameters", .array (d.parameters.map ofText))]

/-- The written form of a callee. -/
def ofCallee : Callee → Json
  | .intrinsic service => tagged "Intrinsic" (ofText (serviceName service))
  | .function declaration => tagged "Function" (ofDeclaration declaration)

/-- The written form of a statement. -/
def ofStatement : Statement → Json
  | .nop => ofText "Nop"
  | .push value => tagged "Push" (.number (toString value.toInt))
  | .load name => tagged "Ld" (ofText name)
  | .store name => tagged "St" (ofText name)
  | .negate => tagged "Unop" (ofText "Not")
  | .binary op => tagged "Binop" (ofText (operatorName op))
  | .jump target => tagged "Jmp" (.number (toString target.toNat))
  | .jumpIfZero target => tagged "Jz" (.number (toString target.toNat))
  | .call callee => tagged "Call" (ofCallee callee)
  | .returnZero => ofText "Ret0"
  | .returnTop => ofText "Ret1"
  | .pop => ofText "Pop"
  | .prepareArguments => ofText "PreArgs"

/-- The written form of a function. -/
def ofFunction (f : Function) : Json :=
  .object [(some "declaration", ofDeclaration f.declaration),
    (some "body", .array (f.body.toList.map ofStatement))]

/-- The written form of a program. -/
def ofProgram (p : Program) : Json := .array (p.functions.map ofFunction)

/-! ## Reading -/

/-- The text of a value. -/
def text? : Json → Option String
  | .string text? => text?
  | _ => none

/-- The items of a value. -/
def items? : Json → Option (List Json)
  | .array items => some items
  | _ => none

/-- The integer of a value. A number with a point or an exponent is none, and neither is `-0`. -/
def integer? : Json → Option Int
  | .number text =>
    match text.toList with
    | '-' :: digits =>
      if digits.all Text.isDigit && Text.value digits != 0 then
        some (-(Text.value digits : Int))
      else
        none
    | digits => if digits.all Text.isDigit then some (Text.value digits) else none
  | _ => none

/-- The word of a value. -/
def word? (value : Json) : Option Int32 := do
  let i ← integer? value
  if -2147483648 ≤ i ∧ i ≤ 2147483647 then some (.ofInt i) else none

/-- The jump target of a value. -/
def target? (value : Json) : Option UInt64 := do
  let i ← integer? value
  if 0 ≤ i ∧ i ≤ 18446744073709551615 then some (.ofNat i.toNat) else none

/-- The values of a field, in order. -/
def valuesOf (key : String) (fields : List (Option String × Json)) : List Json :=
  fields.filterMap fun (k, value) => if k = some key then some value else none

/-- The value of a field that must be there once. -/
def required? (key : String) (fields : List (Option String × Json)) : Option Json :=
  match valuesOf key fields with
  | [value] => some value
  | _ => none

/-- Fields whose keys are texts. -/
def keyed? (fields : List (Option String × Json)) : Option (List (Option String × Json)) :=
  if fields.all fun (key, _) => key.isSome then some fields else none

/-- The name of a value that may go without data: a text, or the only key of an object, with the
value `null`. -/
def bareName? : Json → Option String
  | .string text? => text?
  | .object [(key, .null)] => key
  | _ => none

/-- The operator of a value. -/
def ofOperator? (value : Json) : Option BinaryOp := bareName? value >>= operator?

/-- The parameters of a value. -/
def parameters? (value : Json) : Option (List String) := do
  (← items? value).mapM text?

/-- The declaration of a value. -/
def declaration? : Json → Option Declaration
  | .object fields => do
    let fields ← keyed? fields
    let name ← required? "name" fields >>= text?
    match valuesOf "parameters" fields with
    | [] => return ⟨name, []⟩
    | [value] => return ⟨name, ← parameters? value⟩
    | _ => none
  | .array [name] => do return ⟨← text? name, []⟩
  | .array [name, parameters] => do return ⟨← text? name, ← parameters? parameters⟩
  | _ => none

/-- The callee of a value. -/
def callee? : Json → Option Callee
  | .object [(some "Intrinsic", value)] => do
    return .intrinsic (← bareName? value >>= service?)
  | .object [(some "Function", value)] => do return .function (← declaration? value)
  | _ => none

/-- The statement of a value. -/
def statement? (value : Json) : Option Statement :=
  match value with
  | .object [(some "Push", value)] => .push <$> word? value
  | .object [(some "Ld", value)] => .load <$> text? value
  | .object [(some "St", value)] => .store <$> text? value
  | .object [(some "Unop", value)] => do
    if (← bareName? value) = "Not" then some .negate else none
  | .object [(some "Binop", value)] => .binary <$> ofOperator? value
  | .object [(some "Jmp", value)] => .jump <$> target? value
  | .object [(some "Jz", value)] => .jumpIfZero <$> target? value
  | .object [(some "Call", value)] => .call <$> callee? value
  | _ => bareName? value >>= bareStatement?

/-- The body of a value. -/
def body? (value : Json) : Option Body := do
  return (← (← items? value).mapM statement?).toArray

/-- The function of a value. -/
def function? : Json → Option Function
  | .object fields => do
    let fields ← keyed? fields
    let declaration ← required? "declaration" fields >>= declaration?
    let body ← required? "body" fields >>= body?
    return ⟨declaration, body⟩
  | .array [declaration, body] => do return ⟨← declaration? declaration, ← body? body⟩
  | _ => none

/-- The functions of a value. -/
def functions? (value : Json) : Option (List Function) := do
  (← items? value).mapM function?

/-- Why a text is no program. -/
inductive ReadError where
  | malformed
  | duplicate (refusal : DuplicateFunction)
  deriving DecidableEq

/-- The text of the error. -/
def ReadError.message : ReadError → String
  | malformed => "malformed program document"
  | duplicate refusal => refusal.message

end Document

/-- The document of a program, without blanks. -/
def Program.render (p : Program) : String := (Document.ofProgram p).render

/-- The program of a document. The document has to be well formed before names are compared, and
what follows it is looked at last: only blanks may. -/
def Program.parse (text : String) : Except Document.ReadError Program := do
  let some (value, rest) := Json.read? text | throw .malformed
  let some functions := Document.functions? value | throw .malformed
  match Program.ofFunctions? functions with
  | .error refusal => throw (.duplicate refusal)
  | .ok program => if Json.isBlankText rest then return program else throw .malformed

end StackCodegen
