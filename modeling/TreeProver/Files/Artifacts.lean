import TreeProver.Error
import TreeProver.Files.Script

/-!
# Artifact files

Artifacts are read as a whole and written as a whole: a file is written next to its target under
another name and then moved into place. Several artifacts are all staged before the first of them is
moved, so a failure to stage one leaves no target touched.
-/

namespace TreeProver

/-- A script that may fail. -/
abbrev Action := ExceptT Error Script

/-- An artifact with the path that it is written to. -/
structure ArtifactFile where
  artifact : Artifact
  path : Path
  content : Bytes
  deriving DecidableEq

namespace Artifact

/-- An operation on the file of an artifact; a failure names both. -/
def attempt {α : Type} (a : Artifact) (action : String) (path : Path)
    (operation : Script (Except IoError α)) : Action α :=
  ExceptT.mk do
    match ← operation with
    | .ok x => pure (.ok x)
    | .error e => pure (.error (.artifactIo a action path e.message))

/-- The bytes of an artifact. -/
def read (a : Artifact) (path : Path) : Action Bytes :=
  a.attempt "read" path (Script.read path)

/-- The text of an artifact. -/
def readText (a : Artifact) (path : Path) : Action String :=
  a.attempt "read" path (Script.readText path)

/-- The value whose binary form an artifact holds; what follows that form does not matter. -/
def load {α : Type} (a : Artifact) (reader : Reader α) (path : Path) : Action α := do
  match Reader.run reader (← a.read path) with
  | .ok x => pure x
  | .error e => throw (.artifactDecode a e)

end Artifact

namespace ArtifactFile

/-- The path under which a file waits to be moved into place. -/
def staging (path : Path) : Path := path.withFileName (path.fileName?.getD "" ++ ".tmp")

/-- Writes a file next to its target. -/
def stage (f : ArtifactFile) : Action Unit := do
  match f.path.parent? with
  | none | some "" => pure ()
  | some parent =>
    f.artifact.attempt "create directory for" f.path (Script.makeDirectories parent)
  f.artifact.attempt "write" (staging f.path) (Script.write (staging f.path) f.content)

/-- Moves a staged file into place. -/
def commit (f : ArtifactFile) : Action Unit :=
  f.artifact.attempt "move into place" f.path (Script.rename (staging f.path) f.path)

/-- Writes a file next to its target and moves it into place. -/
def write (f : ArtifactFile) : Action Unit := do
  f.stage
  f.commit

/-- Removes staged files as far as they are there. -/
def discard : List ArtifactFile → Script Unit
  | [] => pure ()
  | f :: fs => do
    let _ ← Script.remove (staging f.path)
    discard fs

/-- Stages files in order. If one cannot be staged, those staged before it are removed again. -/
def stageAll (staged : List ArtifactFile) : List ArtifactFile → Action Unit
  | [] => pure ()
  | f :: fs => ExceptT.mk do
    match ← f.stage.run with
    | .ok _ => (stageAll (staged ++ [f]) fs).run
    | .error e =>
      discard staged
      pure (.error e)

/-- Moves staged files into place in order, up to the first that cannot be moved. -/
def commitAll : List ArtifactFile → Action Unit
  | [] => pure ()
  | f :: fs => do
    f.commit
    commitAll fs

/-- Writes several files; none is moved into place before all are staged. -/
def writeAll (files : List ArtifactFile) : Action Unit := do
  stageAll [] files
  commitAll files

end ArtifactFile

end TreeProver
