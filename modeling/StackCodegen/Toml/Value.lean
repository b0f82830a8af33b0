/-!
# Configuration values

Values of configuration documents and the rules by which tables grow. A table is written in one
place only, whether as `{ … }`, below a header or through dotted keys; which of these it was
(`Origin`) decides what may still be added:

* a header may pass through any table but one in braces, and opens a table that is absent so far or
  only implied by the headers of its parts (`openTable?`);
* a header in double brackets opens a further element of a list of tables (`openElement?`);
* a dotted key may pass through tables that are implied or themselves made by dotted keys, ends in
  one made by dotted keys, and never names a key twice (`put?`).
-/

set_option autoImplicit false

namespace StackCodegen.Toml

/-- How a table came to be. -/
inductive Origin where
  /-- Written in braces. -/
  | inline
  /-- Opened by a header of its own. -/
  | header
  /-- Passed by the header of one of its parts. -/
  | implied
  /-- Passed by a dotted key. -/
  | dotted
  deriving DecidableEq

/-- A value. Of numbers and dates only the kind is kept. -/
inductive Value where
  | string (text : String)
  | boolean (value : Bool)
  | number
  | dateTime
  | array (items : List Value)
  /-- The elements that headers in double brackets opened. -/
  | tables (items : List Value)
  | table (origin : Origin) (fields : List (String × Value))

/-- The entries of a table; no key is there twice. -/
abbrev Fields := List (String × Value)

namespace Fields

/-- Bind a key anew, at its old place if it has one. -/
def set (key : String) (value : Value) : Fields → Fields
  | [] => [(key, value)]
  | (k, v) :: fields => if k = key then (key, value) :: fields else (k, v) :: set key value fields

/-- Change the table that a list of tables ends in. -/
def changeLast? (change : Fields → Option Fields) : List Value → Option (List Value)
  | [] => none
  | [.table origin inner] => (fun fields => [.table origin fields]) <$> change inner
  | [_] => none
  | item :: items => (item :: ·) <$> changeLast? change items

/-- Change the table at a path of header parts; parts that are absent become implied tables. -/
def changeAt? (change : Fields → Option Fields) : List String → Fields → Option Fields
  | [], fields => change fields
  | key :: path, fields =>
    match fields.lookup key with
    | none => (fun inner => set key (.table .implied inner) fields) <$> changeAt? change path []
    | some (.table .inline _) => none
    | some (.table origin inner) =>
      (fun inner => set key (.table origin inner) fields) <$> changeAt? change path inner
    | some (.tables items) =>
      (fun items => set key (.tables items) fields) <$> changeLast? (changeAt? change path) items
    | some _ => none

/-- Bind a dotted key, given as the parts before the last one and the last one. `mayEnd` tells
whether the key may be bound in this very table. -/
def putFrom? (key : String) (value : Value) (mayEnd : Bool) :
    List String → Fields → Option Fields
  | [], fields =>
    if mayEnd && (fields.lookup key).isNone then some (set key value fields) else none
  | part :: path, fields =>
    match fields.lookup part with
    | none =>
      (fun inner => set part (.table .dotted inner) fields) <$> putFrom? key value true path []
    | some (.table .implied inner) =>
      (fun inner => set part (.table .implied inner) fields) <$>
        putFrom? key value false path inner
    | some (.table .dotted inner) =>
      (fun inner => set part (.table .dotted inner) fields) <$> putFrom? key value true path inner
    | some (.tables items) =>
      (fun items => set part (.tables items) fields) <$>
        changeLast? (putFrom? key value false path) items
    | some _ => none

/-- Bind a dotted key in a table that is being written. -/
def put? (path : List String) (key : String) (value : Value) (fields : Fields) : Option Fields :=
  putFrom? key value true path fields

/-- Open a table by a header, given as the parts before the last one and the last one. -/
def openTable? (path : List String) (key : String) (fields : Fields) : Option Fields :=
  changeAt? (fun fields =>
    match fields.lookup key with
    | none => some (set key (.table .header []) fields)
    | some (.table .implied inner) => some (set key (.table .header inner) fields)
    | some _ => none) path fields

/-- Open a further element of a list of tables by a header. -/
def openElement? (path : List String) (key : String) (fields : Fields) : Option Fields :=
  changeAt? (fun fields =>
    match fields.lookup key with
    | none => some (set key (.tables [.table .header []]) fields)
    | some (.tables items) => some (set key (.tables (items ++ [.table .header []])) fields)
    | some _ => none) path fields

end Fields

end StackCodegen.Toml
