import TreeProver.Error
import TreeProver.Hash.Sha256

/-!
# Roots of perfect trees

A perfect tree has a power of two leaves. Its root is found layer by layer: a layer's nodes are the
parents of neighbouring nodes of the layer below, and the last layer is the root alone.
-/

namespace TreeProver.Tree

/-- Whether a number is a power of two; zero is none. -/
def isPowerOfTwo (n : Nat) : Bool := n ≠ 0 && 2 ^ n.log2 == n

/-- The parents of neighbouring nodes. A last node without neighbour has no parent. -/
def parents : List Word → List Word
  | a :: b :: rest => sha256Pair a b :: parents rest
  | _ => []

/-- The layer a number of levels above the given one. -/
def layerAbove : (levels : Nat) → List Word → List Word
  | 0, layer => layer
  | levels + 1, layer => layerAbove levels (parents layer)

/-- The root of the perfect tree over the given leaves. -/
def root (leaves : List Word) : Except Error Word :=
  if isPowerOfTwo leaves.length then
    .ok ((layerAbove leaves.length.log2 leaves).headD default)
  else .error (.leafCountNotPowerOfTwo leaves.length)

/-- Half as many parents as nodes. -/
@[simp] theorem length_parents : (layer : List Word) → (parents layer).length = layer.length / 2
  | [] => rfl
  | [_] => by simp [parents]
  | _ :: _ :: rest => by
    simp only [parents, List.length_cons, length_parents rest]
    omega

end TreeProver.Tree
