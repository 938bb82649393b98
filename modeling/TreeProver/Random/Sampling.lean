import TreeProver.Curve.Groups
import TreeProver.Random.Stream

/-!
# Random field elements and points

A field element is drawn as a number of 254 bits below the modulus, which is then divided by
`2 ^ 256`. A point is drawn as a first coordinate for which the curve has a point, and a choice
between the two points above it.
-/

namespace TreeProver

namespace Residue

variable {m : Nat} [Modulus m]

/-- The inverse of `2 ^ 256`. -/
def limbUnit : Fin m := inv (ofNat (2 ^ (256 : Nat)))

/-- A random residue; a number that is not below the modulus is drawn again. -/
def draw : Draw (Fin m) :=
  Draw.retry (do
    let n ← Stream.nextLimbs
    pure ((ofNat? n).map fun x ↦ mul x limbUnit)) (ofNat 0) 1000

end Residue

/-- A random element of the quadratic extension, the real part first. -/
def Fq2.draw : Draw Fq2 := do
  let c0 ← Residue.draw
  let c1 ← Residue.draw
  pure ⟨c0, c1⟩

/-- A random point of the curve with constant `b`. -/
def Point.draw {F : Type} [CoordinateField F] [DecidableEq F] (b : F) (coordinate : Draw F) :
    Draw (Point F) :=
  Draw.retry (do
    let x ← coordinate
    let larger ← Stream.nextBool
    pure (Point.ofX? b x larger)) .identity 1000

/-- A random point of the first group. -/
def G1.draw : Draw G1 := Point.draw G1.constant Residue.draw

/-- A random point of the second group. -/
def G2.draw : Draw G2 := do
  let p ← Point.draw G2.constant Fq2.draw
  pure (G2.mul G2.cofactor p)

end TreeProver
