import TreeProver.Circuit.Committed
import TreeProver.Circuit.Lowering
import TreeProver.Files.Artifacts
import TreeProver.Proof.Contract
import TreeProver.Tree.Inclusion
import TreeProver.Tree.LeafList
import TreeProver.Verification

/-!
# Builds

A build is the rank-one system of a circuit together with a key for it. It is generated once and
then proves any number of statements. Proving lays the statement out with its values, refuses values
that do not meet a demand, and compares the shape of the layout with that of the stored system. The
blinding of a proof is derived from the values, so equal statements get equal proofs.
-/

namespace TreeProver

open Circuit

/-- A rank-one system and a key for it. -/
structure Build where
  r1cs : R1cs
  key : ProvingKey
  deriving DecidableEq

/-- Where the artifacts of a build are kept. -/
structure ArtifactPaths where
  r1cs : Path
  provingKey : Path
  verifyingKey : Path
  contract : Path
  proof : Path
  deriving DecidableEq

/-- Why there is no proof: a refusal, or stored data whose shape is not the one it is used with. -/
inductive ProvingFailure where
  | refused (e : Error)
  | abort (e : Groth16.Abort)
  deriving DecidableEq

namespace Build

/-- A system and a key for as many public columns. -/
def ofParts (r1cs : R1cs) (key : ProvingKey) : Except Error Build :=
  let points := key.verifying.inputs.length
  if points = r1cs.instances then .ok ⟨r1cs, key⟩
  else .error (.shapeMismatch "public inputs in proving key" r1cs.instances points)

variable {γ : Type} [Computation γ] [Backend]

/-- The rank-one system of a statement. -/
def compile (f : Committed γ) : Except Error R1cs := do .ok (← f.blank).toR1cs

/-- The build of a statement with a key drawn from a random stream. -/
def generate (f : Committed γ) (random : Stream) : Except Error Build := do
  let r1cs ← compile f
  match (Backend.setup r1cs random).1 with
  | .ok key => ofParts r1cs key
  | .error e => .error (.setup e)

/-- What blinding is drawn for. -/
def blindingDomain : Bytes := "ssz-prover/groth16-blinding/v1".toUTF8.toList

/-- The stream that the blinding of an assignment is drawn from. -/
def blindingStream (z : Array Fr) : Stream :=
  Stream.ofKey
    (sha256 (blindingDomain ++ z.toList.flatMap fun x ↦ Bytes.ofNatLE 32 x.val)).bytes

/-- Two blinding scalars for an assignment. -/
def blinding (z : Array Fr) : Fr × Fr :=
  let draw : Draw (Fr × Fr) := do
    let r ← Residue.draw
    let s ← Residue.draw
    pure (r, s)
  (draw (blindingStream z)).1

/-- The values of a statement, all of whose demands have to be met. -/
def solved (f : Committed γ) : Except Error Layout := do
  let s ← f.layout .proving
  match s.firstViolated with
  | .ok none => .ok s
  | .ok (some i) => .error (.unsatisfied (toString i))
  | .error _ => .error (.synthesis .assignmentMissing)

/-- The assignment of a statement, which has to have the shape of the stored system. -/
def assignment (b : Build) (f : Committed γ) : Except Error (Array Fr) := do
  let s ← solved f
  let l := s.lower
  b.r1cs.checkShape s.instances l.witnesses l.rows.size
  .ok (s.columns l)

/-- The points of a proof for an assignment, blinded by the scalars derived from it. -/
def points (b : Build) (z : Array Fr) : Except ProvingFailure Groth16.Points :=
  match Backend.prove b.key b.r1cs (blinding z).1 (blinding z).2 z with
  | .ok points => .ok points
  | .error (.refused e) => .error (.refused (.proving e))
  | .error (.abort e) => .error (.abort e)

/-- The proof of a statement. -/
def prove (b : Build) (f : Committed γ) : Except ProvingFailure Proof :=
  match f.inputHash, f.outputHash with
  | none, _ => .error (.refused (.witnessMissing "input hash"))
  | some _, none => .error (.refused (.witnessMissing "output hash"))
  | some inputHash, some outputHash =>
    match b.assignment f with
    | .error e => .error (.refused e)
    | .ok z => do .ok (Proof.ofPoints (← b.points z) inputHash outputHash)

/-- The proof of a statement with another input, and the statement that is left behind: once the
input is accepted, the one with that input, even if it cannot be proved. -/
def proveInput (b : Build) (f : Committed γ) (input : Bytes) :
    Except ProvingFailure Proof × Committed γ :=
  match f.setInput input with
  | (.ok _, g) => (b.prove g, g)
  | (.error e, g) => (.error (.refused e), g)

/-- Whether the key of a build accepts a proof. -/
def verify (b : Build) (p : Proof) : Except Error Bool := b.key.verifying.verify p

/-- The identity of the circuit: the hash of its verifying key. -/
def id (b : Build) : Word := b.key.verifying.id

/-- The description of the verifying key. -/
def contract (b : Build) : Except Error VerifierContract := VerifierContract.ofKey b.key.verifying

/-- The files of a build. All of them are encoded before any is written. -/
def files (b : Build) (paths : ArtifactPaths) : Except Error (List ArtifactFile) := do
  let contract ← b.contract
  .ok
    [⟨.constraintSystem, paths.r1cs, b.r1cs.encode⟩, ⟨.provingKey, paths.provingKey, b.key.encode⟩,
      ⟨.verifyingKey, paths.verifyingKey, b.key.verifying.encode⟩,
      ⟨.contract, paths.contract, contract.format.toUTF8.toList⟩]

/-- Writes the files of a build. -/
def save (b : Build) (paths : ArtifactPaths) : Action Unit := do
  ArtifactFile.writeAll (← b.files paths)

/-- Reads a build from its system and its key. -/
def load (paths : ArtifactPaths) : Action Build := do
  let r1cs ← Artifact.constraintSystem.load R1cs.read paths.r1cs
  let key ← Artifact.provingKey.load ProvingKey.read paths.provingKey
  ofParts r1cs key

end Build

/-- Reads a verifying key. -/
def VerifyingKey.load (path : Path) : Action VerifyingKey :=
  Artifact.verifyingKey.load VerifyingKey.read path

/-- Reads a proof. -/
def Proof.load (path : Path) : Action Proof := do
  Proof.parse (← Artifact.proof.readText path)

/-- Writes a proof. -/
def Proof.save (p : Proof) (path : Path) : Action Unit :=
  ArtifactFile.write ⟨.proof, path, p.format.toUTF8.toList⟩

/-- Reads an inclusion witness. -/
def Inclusion.load (path : Path) : Action Inclusion := do
  Inclusion.parse (← Artifact.witness.readText path)

/-- Writes an inclusion witness. -/
def Inclusion.save (w : Inclusion) (path : Path) : Action Unit :=
  ArtifactFile.write ⟨.witness, path, w.format.toUTF8.toList⟩

/-- Reads a leaf list. -/
def LeafList.load (path : Path) : Action LeafList := do
  LeafList.parse (← Artifact.witness.readText path)

end TreeProver
