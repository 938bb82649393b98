import TreeProver.Circuit.Buffer
import TreeProver.Circuit.Committed

/-!
# The mask circuit

Output: the input with the bits flipped in which a fixed byte has ones. The smallest circuit whose
output depends on its input.
-/

namespace TreeProver

open Circuit

/-- The exclusive or of every input byte with a fixed byte. -/
structure MaskCircuit where
  mask : UInt8
  input : Buffer
  deriving DecidableEq

namespace MaskCircuit

/-- The circuit for inputs of the given size. -/
def new (size : Nat) (mask : UInt8) : MaskCircuit := ⟨mask, Buffer.empty size⟩

/-- The circuit with an input. -/
def assign (c : MaskCircuit) (input : Bytes) : Except Error MaskCircuit := do
  .ok { c with input := ← c.input.assign input }

/-- Lays the circuit out. -/
def define (c : MaskCircuit) : Synth Ports := do
  let input := (← c.input.alloc).wires
  pure ⟨input, input.map (Byte.mask c.mask)⟩

instance : Computation MaskCircuit := ⟨assign, define⟩

end MaskCircuit

end TreeProver
