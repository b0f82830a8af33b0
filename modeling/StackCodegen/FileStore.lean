import StackCodegen.Host
import StackCodegen.Path

/-!
# File stores

Files below a working directory, as a value. A path is followed segment by segment from the working
directory, each segment from a folder; what is above the working directory has folders only on the
way, and nothing in them is known. A folder is there if a file is below it, or if it was made.
-/

set_option autoImplicit false

namespace StackCodegen

/-- Names from the working directory down to a file or a folder. -/
abbrev Location := List String

/-- Files with their bytes, and folders that were made for themselves. -/
structure FileStore where
  files : List (Location × ByteArray)
  folders : List Location

namespace FileStore

/-- The bound on the bytes of one name. -/
def maxNameBytes : Nat := 255

/-- The bound on the bytes of a path. -/
def maxPathBytes : Nat := 4095

/-- The bytes of a file. -/
def file? (s : FileStore) (l : Location) : Option ByteArray := s.files.lookup l

/-- Recogniser for the places of folders. -/
def hasFolder (s : FileStore) (l : Location) : Bool :=
  l.isEmpty || s.folders.any l.isPrefixOf || s.files.any fun (f, _) => l != f && l.isPrefixOf f

/-- The store with other bytes at a place. -/
def put (s : FileStore) (l : Location) (bytes : ByteArray) : FileStore :=
  { s with files := (l, bytes) :: s.files.filter (·.1 != l) }

/-! ## Following a path -/

/-- Where a path leads: to a place below the working directory, or to a folder above it. -/
inductive Place where
  | below (l : Location)
  | above
  deriving DecidableEq

/-- The condition of a segment: that it is followed from a folder. -/
def requireFolder (s : FileStore) : Place → Except FileError Unit
  | .above => .ok ()
  | .below l =>
    if s.hasFolder l then .ok ()
    else if (s.file? l).isSome then .error .notFolder
    else .error .missing

/-- One segment further. -/
def step (s : FileStore) (place : Place) (segment : String) : Except FileError Place := do
  s.requireFolder place
  if Path.isIdle segment then return place
  match place, segment with
  | .above, ".." => return .above
  | .above, _ => throw .missing
  | .below [], ".." => return .above
  | .below l, ".." => return .below l.dropLast
  | .below l, name =>
    if maxNameBytes < name.utf8ByteSize then throw .nameTooLong else return .below (l ++ [name])

/-- The conditions on a path as a whole. -/
def checkPath (path : String) : Except FileError Unit :=
  if path.contains '\x00' then .error .zeroInName
  else if path.isEmpty then .error .missing
  else if maxPathBytes < path.utf8ByteSize then .error .nameTooLong
  else .ok ()

/-- The place where the segments of a path start. -/
def origin (path : String) : Place := if path.startsWith "/" then .above else .below []

/-- Where a path leads. The last segment need not name anything. -/
def resolve (s : FileStore) (path : String) : Except FileError Place := do
  checkPath path
  (Path.segments path).foldlM s.step (origin path)

/-! ## Operations -/

/-- The bytes of the file that a path leads to. -/
def read (s : FileStore) (path : String) : Except FileError ByteArray := do
  match ← s.resolve path with
  | .above => throw .isFolder
  | .below l =>
    match s.file? l with
    | some bytes => return bytes
    | none => if s.hasFolder l then throw .isFolder else throw .missing

/-- Tell whether a path leads to a file or a folder. -/
def isPresent (s : FileStore) (path : String) : Bool :=
  match s.resolve path with
  | .ok .above => true
  | .ok (.below l) => (s.file? l).isSome || s.hasFolder l
  | .error _ => false

/-- The place of a file to be written. A path that ends in a slash is one of a folder, whether the
folder is there or not. -/
def target (s : FileStore) (path : String) : Except FileError Location := do
  checkPath path
  let reversed := (Path.segments path).reverse
  match reversed.dropWhile (·.isEmpty) with
  | [] => throw .isFolder
  | last :: before =>
    let place ← before.reverse.foldlM s.step (origin path)
    s.requireFolder place
    if path.endsWith "/" then throw .isFolder
    match ← s.step place last with
    | .above => throw .isFolder
    | .below l => if s.hasFolder l then throw .isFolder else return l

/-- The store after a file is written. -/
def write (s : FileStore) (path : String) (bytes : ByteArray) : Except FileError FileStore := do
  return s.put (← s.target path) bytes

/-- The store with the folders on the way that a path takes. -/
def makeFolder (s : FileStore) (path : String) : Except FileError FileStore := do
  if path.isEmpty then return s
  checkPath path
  let made ← (Path.segments path).foldlM (fun (t, place) segment => do
    match ← step t place segment with
    | .below l =>
      if t.hasFolder l then return (t, .below l)
      else if (t.file? l).isSome then throw FileError.notFolder
      else return ({ t with folders := l :: t.folders }, .below l)
    | .above => return (t, .above)) (s, origin path)
  return made.1

/-- The host whose files are those of the state. -/
def host (environment : List (String × String)) (input : ByteArray) : Host (StateM FileStore) where
  read path := return (← get).read path
  write path bytes := change (·.write path bytes)
  isPresent path := return (← get).isPresent path
  makeFolder path := change (·.makeFolder path)
  environment name := return environment.lookup name
  standardInput := return input
where
  change (f : FileStore → Except FileError FileStore) (s : FileStore) :
      Except FileError Unit × FileStore :=
    match f s with
    | .ok t => (.ok (), t)
    | .error e => (.error e, s)

end FileStore

end StackCodegen
