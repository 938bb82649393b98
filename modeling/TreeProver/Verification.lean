import TreeProver.Commitment
import TreeProver.Groth16.Backend
import TreeProver.Proof.Basic

/-!
# Deciding about exchanged proofs

The public inputs of every proof are its two commitments. First the commitments have to be ones,
then the coordinates have to be those of points, and then the key decides.
-/

namespace TreeProver

/-- Whether a key accepts a proof. -/
def VerifyingKey.verify [Backend] (k : VerifyingKey) (p : Proof) : Except Error Bool := do
  checkCommitment "input hash" p.inputHash
  checkCommitment "output hash" p.outputHash
  let points ← p.toPoints
  match Backend.verify k [p.inputHash.toScalar, p.outputHash.toScalar] points with
  | .ok accepted => .ok accepted
  | .error e => .error (.verification e)

end TreeProver
