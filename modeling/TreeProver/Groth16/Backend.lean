import TreeProver.Groth16.Setup
import TreeProver.Groth16.Verify

/-!
# The proof system behind a build

A build asks three things of a proof system: a key for a constraint system, the points of a proof
for an assignment, and a decision about points. `Backend` collects them, so that what holds of
builds can be said of every proof system that keeps a contract. Builds run on Groth16 over BN254.
-/

namespace TreeProver

/-- What a build asks of a proof system. -/
class Backend where
  /-- Draws a key for a constraint system. -/
  setup : R1cs → Draw (Except SynthesisError ProvingKey)
  /-- The points of a proof for an assignment, with two blinding scalars. -/
  prove : ProvingKey → R1cs → (r s : Fr) → Array Fr → Except Groth16.Failure Groth16.Points
  /-- Whether a key accepts the points of a proof of public inputs. -/
  verify : VerifyingKey → List Fr → Groth16.Points → Except SynthesisError Bool

/-- Builds run on Groth16. -/
instance Groth16.backend : Backend := ⟨setup, prove, verify⟩

end TreeProver
