import TreeProver.Circuit.Buffer
import TreeProver.Circuit.Committed
import TreeProver.Circuit.Path
import TreeProver.Tree.LeafList

/-!
# The list root circuit

Input: the leaves of a tree side by side. Output: the root. The number of leaves is fixed when the
circuit is made.
-/

namespace TreeProver

open Circuit

/-- The root of a fixed number of leaves. -/
structure ListRootCircuit where
  leaves : Nat
  input : Buffer
  deriving DecidableEq

namespace ListRootCircuit

/-- The circuit for the given number of leaves; the size of its input is a 64-bit number. -/
def new (leaves : Nat) : Except Error ListRootCircuit :=
  if ¬ Tree.isPowerOfTwo leaves then .error (.leafCountNotPowerOfTwo leaves)
  else if UInt64.size ≤ leaves * Word.size then .error (.tooManyLeaves leaves)
  else .ok ⟨leaves, Buffer.empty (leaves * Word.size)⟩

/-- The circuit with an input. -/
def assign (c : ListRootCircuit) (input : Bytes) : Except Error ListRootCircuit := do
  .ok { c with input := ← c.input.assign input }

/-- Whole nodes taken off the front of a byte string; what is too short for a node is refused. -/
def nodes : (count : Nat) → List Byte → Except Error (List Node)
  | 0, _ => .ok []
  | count + 1, bs => do
    let node ← Node.ofBytes (bs.take Word.size)
    let rest ← nodes count (bs.drop Word.size)
    .ok (node :: rest)

/-- Lays the circuit out. -/
def define (c : ListRootCircuit) : Synth Ports := do
  let input := (← c.input.alloc).wires
  let leaves ← nodes c.leaves input
  let root ← Node.root leaves c.leaves
  pure ⟨input, root.bytes⟩

instance : Computation ListRootCircuit := ⟨assign, define⟩

end ListRootCircuit

/-- The circuit for as many leaves as a leaf list has. -/
def LeafList.circuit (w : LeafList) : Except Error ListRootCircuit :=
  ListRootCircuit.new w.leaves.length

end TreeProver
