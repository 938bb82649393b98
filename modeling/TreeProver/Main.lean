import TreeProver.Command.Run

/-!
# The program

The command line on real files: every operation of the script of a run is carried out in turn, and
its outcome is printed.
-/

namespace TreeProver.Program

/-- The number of a failure, which some calls give negated. -/
def errorNumber (code : UInt32) : Nat := min code.toNat (-code).toNat

/-- The failure that the system reports. -/
def ioError : IO.Error → IoError
  | .alreadyExists _ code wording | .invalidArgument _ code wording
  | .permissionDenied _ code wording | .resourceExhausted _ code wording
  | .inappropriateType _ code wording | .noSuchThing _ code wording
  | .interrupted _ code wording | .noFileOrDirectory _ code wording
  | .otherError code wording | .resourceBusy code wording | .resourceVanished code wording
  | .unsupportedOperation code wording | .hardwareFault code wording
  | .unsatisfiedConstraints code wording | .illegalOperation code wording
  | .protocolError code wording | .timeExpired code wording =>
    .ofCode (errorNumber code) wording
  | .unexpectedEof => .other "failed to fill whole buffer"
  | .userError wording => .other wording

/-- The result of an action on the file of a path. -/
def attempt {α : Type} (p : Path) (action : IO α) : IO (Except IoError α) := do
  if p.contains '\x00' then return .error .nulInName
  try
    return .ok (← action)
  catch e => return .error (ioError e)

/-- Whether a path leads anywhere. -/
def leads (p : Path) : IO Bool := do
  return (← attempt p (IO.FS.realPath p)) matches .ok _

/-- Carries out one operation. -/
def perform : (op : Operation) → IO op.Answer
  | .read p => attempt p do return (← IO.FS.readBinFile p).toList
  | .isPresent p => leads p
  | .isDirectory p => if p = "" then pure false else leads (p ++ "/.")
  | .makeDirectory p => attempt p (IO.FS.createDir p)
  | .write p content => attempt p (IO.FS.writeBinFile p content.toByteArray)
  | .rename source target => attempt target (IO.FS.rename source target)
  | .remove p => attempt p (IO.FS.removeFile p)

/-- Carries out the operations of a script. -/
def carryOut {α : Type} : Script α → IO α
  | .done a => pure a
  | .step op next => do carryOut (next (← perform op))

/-- A reminder of the arguments. -/
def usage : String :=
  "Usage: ssz-prover <--compile|--prove|--verify|--sample-config> [--circuit <CIRCUIT>] "
    ++ "[--data <DATA>] [--kind <inclusion|list-root>] [--depth <DEPTH>] [--leaves <LEAVES>] "
    ++ "[--config <CONFIG>]"

end TreeProver.Program

open TreeProver TreeProver.Program in
/-- Runs the program and answers its exit code. -/
def main (arguments : List String) : IO UInt32 := do
  let fresh := Stream.ofKey (← IO.getRandomBytes 32).toList
  let environment ← Environment.ofVariables (fun name ↦ IO.getEnv name) none
  let outcome ← carryOut (Command.run environment fresh arguments)
  match outcome with
  | .help => IO.println usage
  | .misuse => IO.eprintln usage
  | .finished text => IO.print text
  | .failed why => IO.eprintln why.report
  return UInt32.ofNat outcome.code
