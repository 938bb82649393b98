import TreeProver.Error
import TreeProver.Field.Prime
import TreeProver.Hash.Sha256

/-!
# Commitments

Bytes are committed to by the low 253 bits of their SHA-256 digest. A commitment is below the scalar
modulus, so as a public input it is the same number without reduction.
-/

namespace TreeProver

/-- The number of bits of a commitment. -/
def commitmentBits : Nat := 253

/-- The commitment to bytes. -/
def commitment (data : Bytes) : Word := hashAndTruncate data commitmentBits

/-- The scalar that a word spells, reduced modulo the order of the groups. -/
def Word.toScalar (w : Word) : Fr := Residue.ofNat w.toNat

/-- Refuses a word of more bits than a commitment has. -/
def checkCommitment (name : String) (w : Word) : Except Error Unit :=
  if w.truncate commitmentBits = w then .ok ()
  else
    .error (.invalidPublicInput
      s!"{name} 0x{w.toHex} does not fit in {commitmentBits} bits")

end TreeProver
