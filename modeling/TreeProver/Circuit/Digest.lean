import TreeProver.Circuit.Byte

/-!
# Hashing inside a circuit

The digest of constants is a constant. Any other digest is 32 bytes of fresh witnesses with one gate
that demands them to be the digest of the message. A digest is turned into a public commitment by
adding up its low bits.
-/

namespace TreeProver.Circuit

namespace Synth

/-- Witnesses for a byte, without a demand of their own. -/
def witnessByte (value : Option UInt8) : Synth Byte :=
  (Byte.optionalBits value).mapM fun b ↦ do
    pure (.wire (← newWitness (b.map scalarOfBool)) false)

/-- The SHA-256 digest of bytes. -/
def sha256 (message : List Byte) : Synth Node := do
  let s ← get
  let digest := (s.bytes? message).map TreeProver.sha256
  match message.all Byte.isConstant, digest with
  | true, some w => pure (Node.constant w)
  | _, _ =>
    if s.mode ≠ .setup ∧ digest.isNone then missing
    else
      let bytes ← (Byte.optionalBytes Word.size (digest.map Word.bytes)).mapM witnessByte
      constrain (.digest message bytes)
      Node.ofBytes bytes

/-- The digest of two nodes side by side: their parent. -/
def sha256Pair (left right : Node) : Synth Node := sha256 (left.bytes ++ right.bytes)

end Synth

namespace Node

/-- The bits of a node, the least significant first. -/
def bits (n : Node) : List Bit := n.bytes.reverse.flatMap Octet.toList

/-- The number that the low bits of a node spell, as a scalar. -/
def low (n : Node) (bits : Nat) : Form := Bit.sum (n.bits.take bits)

end Node

/-- The public commitment to bytes: the low bits of their digest, as a scalar. -/
def Synth.commitment (message : List Byte) (bits : Nat) : Synth Form := do
  pure ((← Synth.sha256 message).low bits)

end TreeProver.Circuit
