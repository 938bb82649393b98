import TreeProver.Circuit.Buffer
import TreeProver.Circuit.Committed

/-!
# The fixed circuit

Input and output are constants, so their digests are constants and the circuit contains no hashing.
Private bytes may be demanded to equal known ones. Keys for such a circuit are small.
-/

namespace TreeProver

open Circuit

/-- Constant ends and private bytes between them. -/
structure FixedCircuit where
  input : Bytes
  output : Bytes
  /-- The private bytes, if they are known. -/
  secret : Option Bytes
  /-- The number of private bytes. -/
  secretSize : Nat
  /-- What the private bytes have to be, if that is demanded. -/
  expected : Option Bytes
  assigned : Buffer
  deriving DecidableEq

namespace FixedCircuit

/-- The circuit with the given ends and private bytes. -/
def new (input output : Bytes) (secret : Option Bytes) (secretSize : Nat)
    (expected : Option Bytes) : FixedCircuit :=
  ⟨input, output, secret, secretSize, expected, Buffer.empty input.length⟩

/-- The circuit with an input, which has to be as long as the constant one and is not used. -/
def assign (c : FixedCircuit) (input : Bytes) : Except Error FixedCircuit := do
  .ok { c with assigned := ← c.assigned.assign input }

/-- Lays the circuit out. -/
def define (c : FixedCircuit) : Synth Ports := do
  let secret ← Byte.allocAll .witness c.secretSize c.secret
  if let some expected := c.expected then
    Byte.demandAllEqual secret (expected.map Byte.constant)
  pure ⟨c.input.map Byte.constant, c.output.map Byte.constant⟩

instance : Computation FixedCircuit := ⟨assign, define⟩

end FixedCircuit

end TreeProver
