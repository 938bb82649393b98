import TreeProver.Error

/-!
# Generalized indices

A generalized index names a node of a binary tree by one number: the root is 1, and the children of
`g` are `2 * g` and `2 * g + 1`. A node at depth `d` therefore has an index in
`[2 ^ d, 2 ^ (d + 1))`, and the low `d` bits of the index say at every level, from the node up,
whether it is a right child.
-/

namespace TreeProver.Gindex

/-- The number of bytes of a written index. -/
def size : Nat := 8

/-- One more than the largest depth that an index of 64 bits reaches. -/
def maxDepth : Nat := 64

/-- The depth of the node that an index names; zero names none. -/
def depth? (g : UInt64) : Option Nat := if g = 0 then none else some g.toNat.log2

/-- Accepts an index that names a node exactly as deep as a path of siblings is long. -/
def check (g : UInt64) (siblings : Nat) : Except Error Unit :=
  if maxDepth ≤ siblings then .error (.proofTooDeep siblings)
  else if depth? g = some siblings then .ok ()
  else .error (.invalidGindex g siblings)

/-- The written form of an index. -/
def encode (g : UInt64) : Bytes := Bytes.ofNatBE size g.toNat

end TreeProver.Gindex
