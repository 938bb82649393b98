import TreeProver.Field.Prime

/-!
# Evaluation domains

The rows of a constraint system are the values of polynomials at the powers of a root of unity, of
which there are a power of two. The fast transform takes coefficients to these values and back; over
a coset it takes them to the values at the multiples of the powers by a fixed number, where no
polynomial of the domain vanishes.
-/

namespace TreeProver

/-- The powers of a root of unity whose order is `2 ^ levels`. -/
structure Domain where
  levels : Nat
  root : Fr

namespace Domain

/-- A generator of the non-zero scalars. -/
def scalarGenerator : Fr := 5

/-- The largest power of two that divides the order of the non-zero scalars, as an exponent. -/
def maxLevels : Nat := 28

/-- The number of levels of the smallest domain with room for `n` values. -/
def levelsFor (n : Nat) : Nat := if n ≤ 1 then 0 else (n - 1).log2 + 1

/-- The smallest domain with room for `n` values, unless it would be too large. -/
def ofSize? (n : Nat) : Option Domain :=
  let levels := levelsFor n
  if maxLevels < levels then none
  else some ⟨levels, Residue.pow scalarGenerator ((scalarModulus - 1) / 2 ^ levels)⟩

/-- The number of points. -/
def size (d : Domain) : Nat := 2 ^ d.levels

/-- The first `n` terms of the geometric sequence from `start`. -/
def powers (ratio : Fr) : (n : Nat) → (start : Fr) → List Fr
  | 0, _ => []
  | n + 1, start => start :: powers ratio n (start * ratio)

/-- The elements of a list at even positions, and those at odd positions. -/
def split : List Fr → List Fr × List Fr
  | [] => ([], [])
  | [x] => ([x], [])
  | x :: y :: rest =>
    let (even, odd) := split rest
    (x :: even, y :: odd)

/-- The values of a polynomial at the powers of a root of unity of order `2 ^ levels`. -/
def transform : (levels : Nat) → (root : Fr) → List Fr → List Fr
  | 0, _, xs => xs
  | levels + 1, root, xs =>
    let (even, odd) := split xs
    let even := transform levels (root * root) even
    let odd := transform levels (root * root) odd
    let odd := List.zipWith (· * ·) (powers root odd.length 1) odd
    List.zipWith (· + ·) even odd ++ List.zipWith (· - ·) even odd

/-- The values of a polynomial over a domain. -/
def evaluate (d : Domain) (coefficients : List Fr) : List Fr :=
  transform d.levels d.root coefficients

/-- The coefficients of the polynomial with the given values over a domain. -/
def interpolate (d : Domain) (values : List Fr) : List Fr :=
  let scale := Residue.inv (Residue.ofNat d.size : Fr)
  (transform d.levels (Residue.inv d.root) values).map (· * scale)

/-- The values of a polynomial over the coset of a domain. -/
def evaluateCoset (d : Domain) (coefficients : List Fr) : List Fr :=
  d.evaluate (List.zipWith (· * ·) coefficients (powers scalarGenerator d.size 1))

/-- The coefficients of the polynomial with the given values over the coset of a domain. -/
def interpolateCoset (d : Domain) (values : List Fr) : List Fr :=
  List.zipWith (· * ·) (d.interpolate values)
    (powers (Residue.inv scalarGenerator) d.size 1)

/-- The value at `t` of the polynomial that vanishes on the domain. -/
def vanishing (d : Domain) (t : Fr) : Fr := Residue.pow t d.size - 1

/-- The values at `t`, outside the domain, of the polynomials that are one at a point of the domain
and zero at the others. -/
def lagrangeAt (d : Domain) (t : Fr) : List Fr :=
  let scale := d.vanishing t * Residue.inv (Residue.ofNat d.size : Fr)
  (powers d.root d.size 1).map fun w ↦ scale * w * Residue.inv (t - w)

end Domain

end TreeProver
