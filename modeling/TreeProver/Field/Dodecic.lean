import TreeProver.Field.Quadratic

/-!
# The twelfth-degree extension

`Fq12` adjoins a sixth root `w` of `9 + u` to the quadratic extension. It is where the pairing of
the two curve groups takes its values. An element has six coefficients, of `1`, `w`, … , `w ^ 5`.
-/

namespace TreeProver

/-- The element `a0 + a1 * w + a2 * w ^ 2 + a3 * w ^ 3 + a4 * w ^ 4 + a5 * w ^ 5`. -/
structure Fq12 where
  a0 : Fq2
  a1 : Fq2
  a2 : Fq2
  a3 : Fq2
  a4 : Fq2
  a5 : Fq2
  deriving DecidableEq

namespace Fq12

/-- The unit of multiplication. -/
def one : Fq12 := ⟨1, 0, 0, 0, 0, 0⟩

/-- Multiplication of a quadratic element by `9 + u`. -/
def twist (a : Fq2) : Fq2 :=
  let eight (x : Fq) : Fq := let x2 := x + x; let x4 := x2 + x2; x4 + x4
  ⟨eight a.c0 + a.c0 - a.c1, eight a.c1 + a.c1 + a.c0⟩

/-- Multiplication: the product of two polynomials in `w`, where `w ^ 6` counts as `9 + u`. -/
def mul (a b : Fq12) : Fq12 :=
  { a0 := a.a0 * b.a0
      + twist (a.a1 * b.a5 + a.a2 * b.a4 + a.a3 * b.a3 + a.a4 * b.a2 + a.a5 * b.a1)
    a1 := a.a0 * b.a1 + a.a1 * b.a0
      + twist (a.a2 * b.a5 + a.a3 * b.a4 + a.a4 * b.a3 + a.a5 * b.a2)
    a2 := a.a0 * b.a2 + a.a1 * b.a1 + a.a2 * b.a0
      + twist (a.a3 * b.a5 + a.a4 * b.a4 + a.a5 * b.a3)
    a3 := a.a0 * b.a3 + a.a1 * b.a2 + a.a2 * b.a1 + a.a3 * b.a0
      + twist (a.a4 * b.a5 + a.a5 * b.a4)
    a4 := a.a0 * b.a4 + a.a1 * b.a3 + a.a2 * b.a2 + a.a3 * b.a1 + a.a4 * b.a0
      + twist (a.a5 * b.a5)
    a5 := a.a0 * b.a5 + a.a1 * b.a4 + a.a2 * b.a3 + a.a3 * b.a2 + a.a4 * b.a1 + a.a5 * b.a0 }

/-- Multiplication by a line `c + s * w ^ 2 + t * w ^ 3`, whose constant lies in the base field. -/
def mulLine (a : Fq12) (c : Fq) (s t : Fq2) : Fq12 :=
  { a0 := a.a0.scale c + twist (a.a4 * s + a.a3 * t)
    a1 := a.a1.scale c + twist (a.a5 * s + a.a4 * t)
    a2 := a.a2.scale c + a.a0 * s + twist (a.a5 * t)
    a3 := a.a3.scale c + a.a1 * s + a.a0 * t
    a4 := a.a4.scale c + a.a2 * s + a.a1 * t
    a5 := a.a5.scale c + a.a3 * s + a.a2 * t }

/-- A power. -/
def pow (a : Fq12) (n : Nat) : Fq12 := repeated mul one a n

/-- The element with `w` replaced by `-w`: the power of the `p ^ 6`, with `p` the number of elements
of the base field. -/
def conj (a : Fq12) : Fq12 := ⟨a.a0, -a.a1, a.a2, -a.a3, a.a4, -a.a5⟩

/-- The inverse of an element with even powers of `w` only, given by its coefficients of `1`,
`w ^ 2` and `w ^ 4`. -/
def invEven (b0 b1 b2 : Fq2) : Fq12 :=
  let c0 := b0 * b0 - twist (b1 * b2)
  let c1 := twist (b2 * b2) - b0 * b1
  let c2 := b1 * b1 - b0 * b2
  let t := (b0 * c0 + twist (b2 * c1 + b1 * c2)).inv
  ⟨c0 * t, 0, c1 * t, 0, c2 * t, 0⟩

/-- The multiplicative inverse. The product of an element and its conjugate has even powers of `w`
only. -/
def inv (a : Fq12) : Fq12 :=
  let n := a.mul a.conj
  a.conj.mul (invEven n.a0 n.a2 n.a4)

/-- The factor by which `w` changes in the power of the `p ^ 2`. -/
def rootOfUnity : Fq2 := repeated (· * ·) 1 ⟨9, 1⟩ ((baseModulus * baseModulus - 1) / 6)

/-- The power of the `p ^ 2`. -/
def frobenius (a : Fq12) : Fq12 :=
  let z := rootOfUnity
  let z2 := z * z
  let z3 := z2 * z
  let z4 := z3 * z
  let z5 := z4 * z
  ⟨a.a0, a.a1 * z, a.a2 * z2, a.a3 * z3, a.a4 * z4, a.a5 * z5⟩

end Fq12

end TreeProver
