import TreeProver.Config

/-!
# Outcomes of runs

A run ends with what it prints, or fails for a reason that may have causes of its own. Failures are
reported with their causes below them, the outermost first.
-/

namespace TreeProver.Command

/-- The steps of a run whose failure is reported as the cause of a failed step. -/
inductive Stage where
  | building
  | exporting
  | importing
  | proving
  deriving DecidableEq, Repr

/-- The wording of a failed step. -/
def Stage.message : Stage → String
  | .building => "Failed to build circuit"
  | .exporting => "Failed to export artifacts"
  | .importing => "Failed to import build"
  | .proving => "Failed to prove"

/-- Why a run fails. -/
inductive Failure where
  | config (e : ConfigError)
  | library (e : Error)
  | during (stage : Stage) (e : Error)
  /-- A task that needs the data directory has none. -/
  | dataMissing
  /-- A proof that has just been made does not pass with the stored key. -/
  | freshProofRejected (key : Path)
  | proofRejected (proof : Path)
  /-- Stored data does not have the shape that it is used with. -/
  | aborted (e : Groth16.Abort)
  deriving DecidableEq

namespace Failure

/-- A failure of the library with its cause. -/
def ofError (e : Error) : List String := e.message :: e.source?.toList

/-- What went wrong, each followed by its cause. -/
def reasons : Failure → List String
  | config (.unreadable path cause) => [(ConfigError.unreadable path cause).message, cause.message]
  | config e => [e.message]
  | library e => ofError e
  | during stage e => stage.message :: ofError e
  | dataMissing => ["--data is required with --prove and --verify"]
  | freshProofRejected key => [s!"Fresh proof does not verify against {key}"]
  | proofRejected proof => [s!"Proof rejected: {proof}"]
  | aborted _ => []

/-- A text behind a heading, with its further lines indented to the width of the heading. -/
def indented (heading text : String) : String :=
  heading ++ ("\n" ++ "".pushn ' ' heading.length).intercalate (text.splitOn "\n")

/-- Causes one below the other; if there is more than one, they are numbered. -/
def causesText : List String → String
  | [] => ""
  | [cause] => "\n" ++ indented "    " cause
  | causes =>
    String.join (causes.zipIdx.map fun c ↦ "\n" ++ indented s!"    {c.2}: " c.1)

/-- The report of a failure, without a line end. -/
def report (f : Failure) : String :=
  match f.reasons with
  | [] => ""
  | [message] => s!"Error: {message}"
  | message :: causes => s!"Error: {message}\n\nCaused by:" ++ causesText causes

end Failure

/-- How a run ends. -/
inductive Outcome where
  /-- The arguments ask for help. -/
  | help
  /-- The arguments are not well formed. -/
  | misuse
  /-- The task is done; this is printed. -/
  | finished (text : String)
  | failed (why : Failure)
  deriving DecidableEq

namespace Outcome

/-- The exit code. -/
def code : Outcome → Nat
  | help | finished _ => 0
  | failed (.aborted _) => 101
  | failed _ => 1
  | misuse => 2

/-- What a run prints as its result. -/
def output : Outcome → String
  | finished text => text
  | _ => ""

/-- What a run reports as its failure, without a line end. -/
def errors : Outcome → String
  | failed why => why.report
  | _ => ""

end Outcome

end TreeProver.Command
