import TreeProver.Circuits.Inclusion
import TreeProver.Circuits.ListRoot
import TreeProver.Command.Arguments
import TreeProver.Command.Outcome

/-!
# Runs

A run reads its arguments, loads the configuration and does one task. A build is compiled and saved;
a witness is proved with a saved build, and the proof is saved only after it has passed with the
saved verifying key; a saved proof is verified. Everything that touches files is a script.
-/

namespace TreeProver.Command

open Circuit

/-- A part of a run, which may fail. -/
abbrev Step := ExceptT Failure Script

/-- The step with a given result. -/
def Step.of {α : Type} (failure : Error → Failure) (result : Except Error α) : Step α :=
  ExceptT.mk (pure (result.mapError failure))

/-- The file of an inclusion witness in the data directory. -/
def inclusionFile : Path := "witness.json"

/-- The file of a leaf list in the data directory. -/
def leavesFile : Path := "leaves.json"

section Computation

variable {γ : Type} [Computation γ]

/-- Generates a build for a computation and saves it. -/
def compileWith (paths : ArtifactPaths) (random : Stream) (c : γ) : Step String := do
  let b ← Step.of (.during .building) (Build.generate (Committed.ofComputation c) random)
  (b.save paths).adapt (.during .exporting)
  pure (s!"Circuit id: {b.id.toHex}\nConstraints: {b.r1cs.constraints}\n"
    ++ s!"Verifier contract: {paths.contract}\n")

/-- The proof of a computation with an input. -/
def proof (b : Build) (c : γ) (input : Bytes) : Step Proof :=
  match (b.proveInput (Committed.ofComputation c) input).1 with
  | .ok p => pure p
  | .error (.refused e) => throw (.during .proving e)
  | .error (.abort e) => throw (.aborted e)

/-- Proves a computation with an input, and saves the proof if it passes with the saved key. -/
def proveWith (paths : ArtifactPaths) (b : Build) (c : γ) (input : Bytes) : Step String := do
  let p ← proof b c input
  let key ← (VerifyingKey.load paths.verifyingKey).adapt .library
  if ← Step.of .library (key.verify p) then
    (p.save paths.proof).adapt .library
    pure (s!"Input hash:  {p.inputHash.format}\nOutput hash: {p.outputHash.format}\n"
      ++ s!"Proof: {paths.proof}\n")
  else throw (.freshProofRejected paths.verifyingKey)

end Computation

/-- Compiles the circuit of the given kind. -/
def compile (a : Arguments) (config : Config) (paths : ArtifactPaths) (random : Stream) :
    Step String := do
  match a.kind with
  | .inclusion =>
    let depth := (a.depth.getD config.depth).toNat
    compileWith paths random (← Step.of .library (InclusionCircuit.new depth))
  | .listRoot =>
    let leaves := (a.leaves.getD config.listLeaves).toNat
    compileWith paths random (← Step.of .library (ListRootCircuit.new leaves))

/-- Proves the witness of the given kind in the data directory. -/
def prove (kind : CircuitKind) (data : Path) (paths : ArtifactPaths) : Step String := do
  let b ← (Build.load paths).adapt (.during .importing)
  match kind with
  | .inclusion =>
    let w ← (Inclusion.load (Path.join data inclusionFile)).adapt .library
    proveWith paths b (← Step.of .library w.circuit) w.inputBytes
  | .listRoot =>
    let w ← (LeafList.load (Path.join data leavesFile)).adapt .library
    proveWith paths b (← Step.of .library w.circuit) w.inputBytes

/-- Verifies the saved proof with the saved key. -/
def verify (paths : ArtifactPaths) : Step String := do
  let key ← (VerifyingKey.load paths.verifyingKey).adapt .library
  let p ← (Proof.load paths.proof).adapt .library
  if ← Step.of .library (key.verify p) then pure "Proof verified\n"
  else throw (.proofRejected paths.proof)

/-- The configuration of a run: the one that is named, or the first candidate that is there. -/
def configuration (env : Environment) (a : Arguments) : Step Config :=
  (match a.config with
    | some p => Config.loadFrom env p
    | none => Config.load env).adapt .config

/-- The paths of a run: artifacts are in one directory, the proof is with the data. -/
def paths (a : Arguments) (config : Config) : ArtifactPaths :=
  let inDirectory := config.artifacts.paths (a.circuit.getD config.artifacts.directory)
  match a.data with
  | some data => { inDirectory with proof := Path.join data config.artifacts.proof }
  | none => inDirectory

/-- The stream that keys are drawn from: that of the configured seed, if there is one. -/
def randomness (config : Config) (fresh : Stream) : Stream :=
  match config.setupSeed with
  | some seed => Stream.ofSeed seed
  | none => fresh

/-- The directory of the witness and the proof, which has to be given. -/
def dataDirectory (a : Arguments) : Step Path :=
  match a.data with
  | some data => pure data
  | none => throw .dataMissing

/-- Does the task of the arguments. -/
def perform (env : Environment) (fresh : Stream) (a : Arguments) : Step String := do
  match a.task with
  | .sampleConfig => pure Config.sample
  | .compile =>
    let config ← configuration env a
    compile a config (paths a config) (randomness config fresh)
  | .prove =>
    let config ← configuration env a
    prove a.kind (← dataDirectory a) (paths a config)
  | .verify =>
    let config ← configuration env a
    let _ ← dataDirectory a
    verify (paths a config)

/-- A run with the given arguments. -/
def run (env : Environment) (fresh : Stream) (arguments : List String) : Script Outcome :=
  match Draft.empty.read arguments with
  | none => pure .misuse
  | some .help => pure .help
  | some (.settings d) =>
    match d.complete env with
    | none => pure .misuse
    | some a => do
      match ← (perform env fresh a).run with
      | .ok text => pure (.finished text)
      | .error why => pure (.failed why)

end TreeProver.Command
