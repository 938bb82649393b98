import TreeProver.Circuit.Buffer
import TreeProver.Circuit.Committed
import TreeProver.Circuit.Path
import TreeProver.Tree.Inclusion

/-!
# The inclusion circuit

Input: a root and a generalized index. Output: the leaf at that index. Private: the leaf and its
path. The index is a value of the circuit, so one key serves all leaves of the same depth.
-/

namespace TreeProver

open Circuit

/-- The inclusion of a leaf at a fixed depth. -/
structure InclusionCircuit where
  depth : Nat
  /-- The private leaf and its path. -/
  opening : Option (Word × List Word)
  input : Buffer
  deriving DecidableEq

namespace InclusionCircuit

/-- The circuit for paths of the given length. -/
def new (depth : Nat) : Except Error InclusionCircuit :=
  if Gindex.maxDepth ≤ depth then .error (.proofTooDeep depth)
  else .ok ⟨depth, none, Buffer.empty Inclusion.inputSize⟩

/-- The circuit with a private leaf and path. -/
def withOpening (c : InclusionCircuit) (leaf : Word) (path : List Word) :
    Except Error InclusionCircuit :=
  if path.length = c.depth then .ok { c with opening := some (leaf, path) }
  else .error (.invalidLength "merkle proof" c.depth path.length)

/-- The circuit with an input; the private path has to be there already. -/
def assign (c : InclusionCircuit) (input : Bytes) : Except Error InclusionCircuit :=
  match c.opening with
  | none => .error (.witnessMissing "merkle proof")
  | some _ => do .ok { c with input := ← c.input.assign input }

/-- The siblings of a path whose values may be missing. -/
def optionalPath (c : InclusionCircuit) : List (Option Word) :=
  match c.opening with
  | some (_, path) => path.map some
  | none => List.replicate c.depth none

/-- Lays the circuit out. -/
def define (c : InclusionCircuit) : Synth Ports := do
  let input := (← c.input.alloc).wires
  let root ← Node.ofBytes (input.take Word.size)
  let gindex ← Index.ofBytes (input.drop Word.size)
  let leaf ← Node.alloc .witness (c.opening.map Prod.fst)
  let path ← c.optionalPath.mapM (Node.alloc .witness)
  Node.verifyAt root leaf path gindex
  pure ⟨input, leaf.bytes⟩

instance : Computation InclusionCircuit := ⟨assign, define⟩

end InclusionCircuit

/-- The circuit that shows a witness: of its depth, with its private part. -/
def Inclusion.circuit (w : Inclusion) : Except Error InclusionCircuit := do
  (← InclusionCircuit.new w.path.length).withOpening w.leaf w.path

end TreeProver
