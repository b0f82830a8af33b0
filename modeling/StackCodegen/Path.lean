/-!
# Paths

Paths as texts with slashes between their segments. Empty segments and single dots name no step of
their own, but are kept as written where nothing after them changes. The name of a path is its last
step, unless that leads upwards; a path without a name is the root, the empty path, or ends in `..`
or in nothing but dots.
-/

set_option autoImplicit false

namespace StackCodegen.Path

/-- The texts between the slashes. -/
def segments (path : String) : List String := path.splitOn "/"

/-- The path of segments. -/
def ofSegments (segments : List String) : String := "/".intercalate segments

/-- Recogniser for the segments that are no step. -/
def isIdle (segment : String) : Bool := segment.isEmpty || segment = "."

/-- A path around its last step: the segments before it, and those after it. -/
structure Split where
  before : List String
  last : String
  after : List String
  deriving DecidableEq

/-- The last step of a path. -/
def lastStep? (path : String) : Option Split :=
  match (segments path).reverse.span isIdle with
  | (after, last :: before) => some ⟨before.reverse, last, after.reverse⟩
  | (_, []) => none

/-- The name of a path. -/
def name? (path : String) : Option Split := (lastStep? path).filter (·.last ≠ "..")

/-- The segments before a last step without the idle ones at their end. The first one stays: it
tells a path from the root from one from the working directory. -/
def withoutIdle : List String → List String
  | [] => []
  | first :: rest => first :: (rest.reverse.dropWhile isIdle).reverse

/-- The path of a folder whose segments stand before a last step. -/
def folderOf (before : List String) : String :=
  match withoutIdle before with
  | [""] => "/"
  | segments => ofSegments segments

/-- The folder that a path names something in; there is none above the root and the empty path. -/
def parent? (path : String) : Option String :=
  match lastStep? path with
  | some split => some (folderOf split.before)
  | none => if path.startsWith "." then some "" else none

/-- A path followed from a folder. -/
def join (folder path : String) : String :=
  if folder.isEmpty || folder.endsWith "/" then folder ++ path else folder ++ "/" ++ path

/-- A name without its last dot and what is after it. A dot in front does not count. -/
def stem (name : String) : String :=
  let stem := ".".intercalate (name.splitOn ".").dropLast
  if stem.isEmpty then name else stem

/-- The path whose name has another extension. The old one is taken off first; where that leaves two
dots at the end of the path, these name no file, and the new one is not put on. -/
def withExtension (extension path : String) : String :=
  match name? path with
  | none => path
  | some split =>
    let bare := stem split.last
    let name := if bare = "." && split.after.isEmpty then ".." else bare ++ "." ++ extension
    ofSegments (split.before ++ [name])

/-- The path with another name, or with one more step if it has none. -/
def withName (name path : String) : String :=
  match name? path with
  | none => join path name
  | some split => join (folderOf split.before) name

end StackCodegen.Path
