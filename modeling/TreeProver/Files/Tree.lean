import TreeProver.Files.Path

/-!
# File trees

A file tree says for every place whether there is a file, a directory or nothing. A place is the
list of names that lead to it from the root. On the way from the root to the current directory there
are always directories. Operations name places by paths, which are followed from the current
directory; every one of them takes effect as a whole or fails with a reason and changes nothing.
-/

namespace TreeProver

/-- Why a file operation fails. -/
inductive IoError where
  | notFound
  | resourceBusy
  | alreadyExists
  | notDirectory
  | isDirectory
  | nameTooLong
  | nulInName
  /-- The bytes of a file are not a text. -/
  | notText
  | other (text : String)
  deriving DecidableEq, Repr

/-- The wording of a failed file operation. -/
def IoError.message : IoError → String
  | .notFound => "No such file or directory (os error 2)"
  | .resourceBusy => "Device or resource busy (os error 16)"
  | .alreadyExists => "File exists (os error 17)"
  | .notDirectory => "Not a directory (os error 20)"
  | .isDirectory => "Is a directory (os error 21)"
  | .nameTooLong => "File name too long (os error 36)"
  | .nulInName => "file name contained an unexpected NUL byte"
  | .notText => "stream did not contain valid UTF-8"
  | .other text => text

/-- The failure with a number and a wording that the system gives. -/
def IoError.ofCode (code : Nat) (wording : String) : IoError :=
  match code with
  | 2 => .notFound
  | 16 => .resourceBusy
  | 17 => .alreadyExists
  | 20 => .notDirectory
  | 21 => .isDirectory
  | 36 => .nameTooLong
  | _ => .other s!"{wording} (os error {code})"

/-- The names that lead to a place from the root. -/
abbrev Place := List String

/-- What is at a place. -/
inductive Entry where
  | file (content : Bytes)
  | directory
  deriving DecidableEq

/-- What is where, and from where relative paths are followed. -/
structure FileTree where
  current : Place
  entries : List (Place × Entry)
  deriving DecidableEq

namespace FileTree

/-- What is at a place. Whatever the entries say, the current directory is one, and so is every
place on the way there. -/
def get? (t : FileTree) (place : Place) : Option Entry :=
  if place.isPrefixOf t.current then some .directory else t.entries.lookup place

/-- The tree with another entry at a place. -/
def set (t : FileTree) (place : Place) (e : Entry) : FileTree :=
  { t with entries := (place, e) :: t.entries.filter fun x ↦ x.1 ≠ place }

/-- The tree with nothing at a place. -/
def erase (t : FileTree) (place : Place) : FileTree :=
  { t with entries := t.entries.filter fun x ↦ x.1 ≠ place }

/-- The largest number of bytes of a name. -/
def maxName : Nat := 255

/-- The place that segments lead to. Every segment has to start from a directory, but there need not
be anything at the end. -/
def follow (t : FileTree) : Place → List String → Except IoError Place
  | place, [] => .ok place
  | place, segment :: rest =>
    match t.get? place with
    | none => .error .notFound
    | some (.file _) => .error .notDirectory
    | some .directory =>
      if Path.isIdle segment then t.follow place rest
      else if segment = ".." then t.follow place.dropLast rest
      else if maxName < segment.utf8ByteSize then .error .nameTooLong
      else t.follow (place ++ [segment]) rest

/-- The place that a path leads to. -/
def locate (t : FileTree) (p : Path) : Except IoError Place :=
  if p.toList.contains '\x00' then .error .nulInName
  else if p = "" then .error .notFound
  else t.follow (if p.isAbsolute then [] else t.current) p.segments

/-- Whether there is anything at the end of a path. -/
def isPresent (t : FileTree) (p : Path) : Bool :=
  match t.locate p with
  | .ok place => (t.get? place).isSome
  | .error _ => false

/-- Whether there is a directory at the end of a path. -/
def isDirectory (t : FileTree) (p : Path) : Bool :=
  match t.locate p with
  | .ok place => t.get? place = some .directory
  | .error _ => false

/-- The content of a file. -/
def read (t : FileTree) (p : Path) : Except IoError Bytes := do
  match t.get? (← t.locate p) with
  | some (.file content) => .ok content
  | some .directory => .error .isDirectory
  | none => .error .notFound

/-- The tree with one more directory. -/
def makeDirectory (t : FileTree) (p : Path) : Except IoError FileTree := do
  let place ← t.locate p
  match t.get? place with
  | some _ => .error .alreadyExists
  | none => .ok (t.set place .directory)

/-- The tree with other content in a file, which is made if there is nothing. -/
def write (t : FileTree) (p : Path) (content : Bytes) : Except IoError FileTree := do
  let place ← t.locate p
  match t.get? place with
  | some .directory => .error .isDirectory
  | _ => .ok (t.set place (.file content))

/-- The tree with a file moved to another place, where it replaces a file. -/
def rename (t : FileTree) (source target : Path) : Except IoError FileTree := do
  let old ← t.locate source
  match t.get? old with
  | none => .error .notFound
  | some .directory => .error .isDirectory
  | some (.file content) =>
    if target.endsWith "/" then .error .notDirectory
    else
      let new ← t.locate target
      if target.fileName?.isNone ∨ target.endsWith "/." then .error .resourceBusy
      else if t.get? new = some .directory then .error .isDirectory
      else .ok ((t.erase old).set new (.file content))

/-- The tree without a file. -/
def remove (t : FileTree) (p : Path) : Except IoError FileTree := do
  let place ← t.locate p
  match t.get? place with
  | some (.file _) => .ok (t.erase place)
  | some .directory => .error .isDirectory
  | none => .error .notFound

/-- The path of a place below the current directory, seen from there. -/
def relative? (t : FileTree) (place : Place) : Option Path :=
  if t.current.isPrefixOf place then some ("/".intercalate (place.drop t.current.length))
  else none

/-- The files below the current directory with their paths in ascending order. -/
def files (t : FileTree) : List (Path × Bytes) :=
  (t.entries.filterMap fun x ↦
    match x.2 with
    | .file content => (t.relative? x.1).map fun p ↦ (p, content)
    | .directory => none).mergeSort fun x y ↦ decide (x.1 ≤ y.1)

end FileTree

end TreeProver
