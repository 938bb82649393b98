import TreeProver.Files.Tree

/-!
# Scripts of file operations

A script is a sequence of file operations in which each step may depend on the answers to the steps
before it. It says what is done to the files one operation at a time, so it can be run as a whole
on a file tree, stopped between any two operations, or carried out on real files.
-/

namespace TreeProver

/-- One file operation. -/
inductive Operation where
  | read (path : Path)
  | isPresent (path : Path)
  | isDirectory (path : Path)
  | makeDirectory (path : Path)
  | write (path : Path) (content : Bytes)
  | rename (source target : Path)
  | remove (path : Path)
  deriving DecidableEq

/-- What an operation answers. -/
def Operation.Answer : Operation → Type
  | .read _ => Except IoError Bytes
  | .isPresent _ | .isDirectory _ => Bool
  | .makeDirectory _ | .write .. | .rename .. | .remove _ => Except IoError Unit

/-- A sequence of operations that ends in a result. -/
inductive Script (α : Type) where
  | done (a : α)
  | step (op : Operation) (next : op.Answer → Script α)

namespace Script

/-- The script that goes on with the result of another one. -/
def bind {α β : Type} : Script α → (α → Script β) → Script β
  | done a, k => k a
  | step op next, k => step op fun answer ↦ (next answer).bind k

instance : Monad Script where
  pure := done
  bind := bind

/-- The script of one operation. -/
def perform (op : Operation) : Script op.Answer := step op done

end Script

namespace FileTree

/-- The result of a change, and the tree that it leaves behind. -/
def changed (t : FileTree) : Except IoError FileTree → Except IoError Unit × FileTree
  | .ok t' => (.ok (), t')
  | .error e => (.error e, t)

/-- What an operation answers on a tree, and the tree that it leaves behind. -/
def perform (t : FileTree) : (op : Operation) → op.Answer × FileTree
  | .read p => (t.read p, t)
  | .isPresent p => (t.isPresent p, t)
  | .isDirectory p => (t.isDirectory p, t)
  | .makeDirectory p => t.changed (t.makeDirectory p)
  | .write p content => t.changed (t.write p content)
  | .rename source target => t.changed (t.rename source target)
  | .remove p => t.changed (t.remove p)

end FileTree

/-- Runs a script on a tree. -/
def Script.run {α : Type} : Script α → FileTree → α × FileTree
  | done a, t => (a, t)
  | step op next, t =>
    let (answer, t') := t.perform op
    (next answer).run t'

namespace Script

/-- The content of a file. -/
def read (p : Path) : Script (Except IoError Bytes) := perform (.read p)

/-- Whether there is anything at the end of a path. -/
def isPresent (p : Path) : Script Bool := perform (.isPresent p)

/-- Whether there is a directory at the end of a path. -/
def isDirectory (p : Path) : Script Bool := perform (.isDirectory p)

/-- Makes one directory. -/
def makeDirectory (p : Path) : Script (Except IoError Unit) := perform (.makeDirectory p)

/-- Puts content into a file. -/
def write (p : Path) (content : Bytes) : Script (Except IoError Unit) :=
  perform (.write p content)

/-- Moves a file. -/
def rename (source target : Path) : Script (Except IoError Unit) :=
  perform (.rename source target)

/-- Removes a file. -/
def remove (p : Path) : Script (Except IoError Unit) := perform (.remove p)

/-- The text in a file. -/
def readText (p : Path) : Script (Except IoError String) := do
  match ← read p with
  | .error e => pure (.error e)
  | .ok content =>
    match String.fromUTF8? content.toByteArray with
    | some text => pure (.ok text)
    | none => pure (.error .notText)

/-- What counts in the end is that there is a directory. -/
def unlessDirectory (p : Path) (e : IoError) : Script (Except IoError Unit) := do
  if ← isDirectory p then pure (.ok ()) else pure (.error e)

/-- Makes a directory and the directories above it that are missing. Each step goes to a shorter
path, so `steps` is bounded by the length of the path. -/
def makeDirectoriesWithin : (steps : Nat) → Path → Script (Except IoError Unit)
  | 0, _ => pure (.error .notFound)
  | steps + 1, p => do
    if p = "" then pure (.ok ())
    else
      match ← makeDirectory p with
      | .ok _ => pure (.ok ())
      | .error .notFound =>
        match p.parent? with
        | none => pure (.error (.other "failed to create whole tree"))
        | some parent =>
          match ← makeDirectoriesWithin steps parent with
          | .error e => pure (.error e)
          | .ok _ =>
            match ← makeDirectory p with
            | .ok _ => pure (.ok ())
            | .error e => unlessDirectory p e
      | .error e => unlessDirectory p e

/-- Makes a directory and the directories above it that are missing. -/
def makeDirectories (p : Path) : Script (Except IoError Unit) :=
  makeDirectoriesWithin (p.length + 1) p

end Script

end TreeProver
