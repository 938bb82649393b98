import TreeProver.Curve.Compressed

/-!
# Keys

A verifying key holds the points that decide about proofs; a proving key holds a verifying key and
the points from which proofs are put together. Both are written as their compressed points in order.
-/

namespace TreeProver

/-- The points that decide about proofs. -/
structure VerifyingKey where
  alpha : G1
  beta : G2
  gamma : G2
  delta : G2
  /-- One point for the constant one and one for every public input. -/
  inputs : List G1
  deriving DecidableEq

/-- The points from which proofs are put together. -/
structure ProvingKey where
  verifying : VerifyingKey
  beta : G1
  delta : G1
  /-- The points of the three matrices, one per column. -/
  aColumns : List G1
  bColumns : List G1
  bColumns2 : List G2
  /-- The points of the quotient polynomial, one per coefficient. -/
  quotient : List G1
  /-- The points of the private columns. -/
  witnesses : List G1
  deriving DecidableEq

namespace VerifyingKey

/-- The written form of a verifying key. -/
def encode (k : VerifyingKey) : Bytes :=
  k.alpha.encode ++ k.beta.encode ++ k.gamma.encode ++ k.delta.encode
    ++ encodeList G1.encode k.inputs

/-- A verifying key. -/
def read : Reader VerifyingKey := fun bs ↦ do
  let (alpha, bs) ← G1.read bs
  let (beta, bs) ← G2.read bs
  let (gamma, bs) ← G2.read bs
  let (delta, bs) ← G2.read bs
  let (inputs, bs) ← Reader.list G1.read bs
  .ok (⟨alpha, beta, gamma, delta, inputs⟩, bs)

end VerifyingKey

namespace ProvingKey

/-- The written form of a proving key. -/
def encode (k : ProvingKey) : Bytes :=
  k.verifying.encode ++ k.beta.encode ++ k.delta.encode
    ++ encodeList G1.encode k.aColumns ++ encodeList G1.encode k.bColumns
    ++ encodeList G2.encode k.bColumns2 ++ encodeList G1.encode k.quotient
    ++ encodeList G1.encode k.witnesses

/-- A proving key. -/
def read : Reader ProvingKey := fun bs ↦ do
  let (verifying, bs) ← VerifyingKey.read bs
  let (beta, bs) ← G1.read bs
  let (delta, bs) ← G1.read bs
  let (aColumns, bs) ← Reader.list G1.read bs
  let (bColumns, bs) ← Reader.list G1.read bs
  let (bColumns2, bs) ← G2.readList bs
  let (quotient, bs) ← Reader.list G1.read bs
  let (witnesses, bs) ← Reader.list G1.read bs
  .ok (⟨verifying, beta, delta, aColumns, bColumns, bColumns2, quotient, witnesses⟩, bs)

end ProvingKey

end TreeProver
