import TreeProver.Tree.Gindex
import TreeProver.Tree.Root

/-!
# Paths to the root

A path is the list of the siblings that a leaf meets on its way up, the lowest first. Hashing the
leaf with them, on the side that the generalized index says, restores the root.

Sums of 64-bit numbers are checked, and so is every reading of a layer: where one of them has no
result, there is no answer at all, not even a refusal.
-/

namespace TreeProver.Tree

/-- The parent of a node and its sibling, when the node has the given index. -/
def parentAt (g : UInt64) (node sibling : Word) : Word :=
  if g % 2 = 1 then sha256Pair sibling node else sha256Pair node sibling

/-- The node that is reached from a node with the given index along a path. -/
def restore (node : Word) : List Word → UInt64 → Word
  | [], _ => node
  | sibling :: path, g => restore (parentAt g node sibling) path (g / 2)

/-- Why a path comes to an end before there is an answer. -/
inductive Abort where
  /-- A sum is no number of 64 bits. -/
  | overflow
  /-- A list is read behind its end. -/
  | outOfRange
  deriving DecidableEq, Repr

/-- Why there is no path. -/
inductive Failure where
  | refused (cause : Error)
  | abort (cause : Abort)
  deriving DecidableEq, Repr

/-- The result of a step that has none where it has to abort. -/
def orAbort {α : Type} (cause : Abort) : Option α → Except Failure α
  | some x => .ok x
  | none => .error (.abort cause)

/-- The sum of two numbers of 64 bits, if it is one. -/
def sum? (a b : UInt64) : Option UInt64 :=
  if a.toNat + b.toNat < UInt64.size then some (a + b) else none

/-- The siblings along the way up from a position to the last layer, if each of them is there.
Flipping the last bit of a position gives the one with which it shares its parent. -/
def siblings? (layer : List Word) (position : UInt64) : Option (List Word) :=
  if 1 < layer.length then do
    let sibling ← layer[(position ^^^ 1).toNat]?
    let siblings ← siblings? (parents layer) (position / 2)
    some (sibling :: siblings)
  else some []
termination_by layer.length
decreasing_by
  rw [length_parents]
  omega

/-- The path of a leaf to the root of the perfect tree over the given leaves, and its index. -/
def path (leaves : List Word) (index : UInt64) : Except Failure (List Word × UInt64) :=
  if ¬ isPowerOfTwo leaves.length then .error (.refused (.leafCountNotPowerOfTwo leaves.length))
  else if index.toNat < leaves.length then do
    let siblings ← orAbort .outOfRange (siblings? leaves index)
    let g ← orAbort .overflow (sum? (UInt64.ofNat leaves.length) index)
    .ok (siblings, g)
  else do
    let needed ← orAbort .overflow (sum? index 1)
    .error (.refused (.notEnoughLeaves needed.toNat leaves.length))

end TreeProver.Tree
