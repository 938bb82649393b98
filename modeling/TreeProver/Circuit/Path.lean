import TreeProver.Circuit.Digest
import TreeProver.Tree.Root

/-!
# Trees inside a circuit

A path is followed to the root inside a circuit, for an index that is known when the circuit is laid
out and for an index that is a value of the circuit. With a known index each level takes one hash.
With an index inside the circuit each level hashes both orders, and a bit of the index picks one.
-/

namespace TreeProver.Circuit

namespace Node

/-- The node that is reached along a path, when the bits of the index from here up are known. -/
def climb (node : Node) : List Node → UInt64 → Synth Node
  | [], _ => pure node
  | sibling :: path, g => do
    let parent ←
      if g % 2 = 1 then Synth.sha256Pair sibling node else Synth.sha256Pair node sibling
    climb parent path (g / 2)

/-- The root above a leaf with a known index. -/
def restore (leaf : Node) (path : List Node) (g : UInt64) : Synth Node := do
  Gindex.check g path.length
  leaf.climb path g

/-- Demands that a leaf with a known index sits below a root. -/
def verify (root leaf : Node) (path : List Node) (g : UInt64) : Synth Unit := do
  demandEqual root (← leaf.restore path g)

/-- The node that is reached along a path, when the sides are bits of the circuit. -/
def climbBits (node : Node) : List Node → List Bit → Synth Node
  | sibling :: path, isRight :: bits => do
    let right ← Synth.sha256Pair sibling node
    let left ← Synth.sha256Pair node sibling
    let parent ← select isRight right left
    climbBits parent path bits
  | _, _ => pure node

/-- Demands that the highest one of an index is at the given bit. -/
def demandDepth (g : Index) (depth : Nat) : Synth Unit :=
  match g.bits.drop depth with
  | [] => pure ()
  | mark :: above => do
    mark.demand true
    above.forM (Bit.demand false)

/-- The root above a leaf whose index is a value of the circuit. -/
def restoreAt (leaf : Node) (path : List Node) (g : Index) : Synth Node := do
  if Gindex.maxDepth ≤ path.length then throw (.proofTooDeep path.length)
  demandDepth g path.length
  leaf.climbBits path g.bits

/-- Demands that a leaf whose index is a value of the circuit sits below a root. -/
def verifyAt (root leaf : Node) (path : List Node) (g : Index) : Synth Unit := do
  demandEqual root (← leaf.restoreAt path g)

/-- The parents of neighbouring nodes. -/
def parents : List Node → Synth (List Node)
  | a :: b :: rest => do
    let parent ← Synth.sha256Pair a b
    pure (parent :: (← parents rest))
  | _ => pure []

/-- The layer a number of levels above the given one. -/
def layerAbove : (levels : Nat) → List Node → Synth (List Node)
  | 0, layer => pure layer
  | levels + 1, layer => do layerAbove levels (← parents layer)

/-- The root of the perfect tree over the first `count` of the given leaves. -/
def root (leaves : List Node) (count : Nat) : Synth Node := do
  if ¬ Tree.isPowerOfTwo count then throw (.leafCountNotPowerOfTwo count)
  if leaves.length < count then throw (.notEnoughLeaves count leaves.length)
  let top ← layerAbove count.log2 (leaves.take count)
  pure (top.headD (constant default))

end Node

end TreeProver.Circuit
