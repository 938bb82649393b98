import TreeProver.Curve.Point

/-!
# The two groups of BN254

`G1` is the curve `y ^ 2 = x ^ 3 + 3` over the coordinate field; all its points have the order of
the scalar field. `G2` is the curve `y ^ 2 = x ^ 3 + 3 / (9 + u)` over the quadratic extension; its
points of that order form a proper subgroup.
-/

namespace TreeProver

/-- Points with coordinates in the base field. -/
abbrev G1 := Point Fq

/-- Points with coordinates in the quadratic extension. -/
abbrev G2 := Point Fq2

namespace G1

/-- The constant of the curve equation. -/
def constant : Fq := 3

/-- The fixed generator. -/
def generator : G1 := .affine 1 2

/-- Whether a pair of coordinates is a point of the group. -/
def isMember (p : G1) : Bool := p.isOnCurve constant

/-- A multiple of a point. -/
def mul (n : Nat) (p : G1) : G1 := Point.mul n p

/-- The sum of multiples of points. -/
def linearSum (terms : List (Nat × G1)) : G1 := (Point.linearSum terms).toPoint

end G1

namespace G2

/-- The element `9 + u`, of which the twelfth-degree extension adjoins a sixth root. -/
def nonResidue : Fq2 := ⟨9, 1⟩

/-- The constant of the curve equation. -/
def constant : Fq2 := Fq2.ofBase 3 * nonResidue.inv

/-- The fixed generator. -/
def generator : G2 :=
  .affine
    ⟨10857046999023057135944570762232829481370756359578518086990519993285655852781,
      11559732032986387107991004021392285783925812861821192530917403151452391805634⟩
    ⟨8495653923123431417604973247489272438418190587263600148770280649306958101930,
      4082367875863433681332203403145435568316851327593401208105741076214120093531⟩

/-- The number of cosets of the subgroup. -/
def cofactor : Nat :=
  21888242871839275222246405745257275088844257914179612981679871602714643921549

/-- A multiple of a point. -/
def mul (n : Nat) (p : G2) : G2 := Point.mul n p

/-- Whether a pair of coordinates is a point of the subgroup. -/
def isMember (p : G2) : Bool := p.isOnCurve constant && decide (mul scalarModulus p = .identity)

/-- The sum of multiples of points. -/
def linearSum (terms : List (Nat × G2)) : G2 := (Point.linearSum terms).toPoint

end G2

end TreeProver
