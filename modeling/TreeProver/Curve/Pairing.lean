import TreeProver.Curve.Groups
import TreeProver.Field.Dodecic

/-!
# The pairing

The reduced Tate pairing takes a point of `G1` and a point of `G2` to the twelfth-degree extension
and is linear in both. It is the value at the second point of a function that vanishes to the group
order at the first point, raised to a fixed power. That function is built as a product of lines
while a multiple of the first point is built by doubling and adding; the vertical lines among them
take values in a smaller field, which the final power sends to one, so they are left out.
-/

namespace TreeProver.Pairing

/-- A multiple of the first point of a pair, with the value of the function built so far shared
among the pairs. -/
structure Step where
  /-- The first point. -/
  px : Fq
  py : Fq
  /-- The second point. -/
  qx : Fq2
  qy : Fq2
  /-- The multiple reached; none once the identity is reached. -/
  reached : Option (Fq × Fq)

/-- The pair of two points that are not the identity; other pairs have the pairing one. -/
def Step.ofPair? : G1 × G2 → Option Step
  | (.affine px py, .affine qx qy) => some ⟨px, py, qx, qy, some (px, py)⟩
  | _ => none

/-- Multiplies by the line of slope `slope` through `(x, y)`, at the second point. -/
def mulSlope (f : Fq12) (s : Step) (x y slope : Fq) : Fq12 :=
  f.mulLine (slope * x - y) (-(s.qx.scale slope)) s.qy

/-- Doubles the multiple reached and multiplies by the tangent there. -/
def Step.double (f : Fq12) (s : Step) : Fq12 × Step :=
  match s.reached with
  | none => (f, s)
  | some (x, y) =>
    if y = 0 then (f, { s with reached := none })
    else
      let slope := (x * x + x * x + x * x) * Residue.inv (y + y)
      let x' := slope * slope - x - x
      (mulSlope f s x y slope, { s with reached := some (x', slope * (x - x') - y) })

/-- Adds the first point to the multiple reached and multiplies by the line through both. -/
def Step.add (f : Fq12) (s : Step) : Fq12 × Step :=
  match s.reached with
  | none => (f, { s with reached := some (s.px, s.py) })
  | some (x, y) =>
    if x = s.px then
      if y = s.py then s.double f else (f, { s with reached := none })
    else
      let slope := (y - s.py) * Residue.inv (x - s.px)
      let x' := slope * slope - x - s.px
      (mulSlope f s x y slope, { s with reached := some (x', slope * (x - x') - y) })

/-- Runs one step of every pair on a shared value. -/
def forEach (step : Fq12 → Step → Fq12 × Step) (f : Fq12) : List Step → Fq12 × List Step
  | [] => (f, [])
  | s :: rest =>
    let (f, s) := step f s
    let (f, rest) := forEach step f rest
    (f, s :: rest)

/-- The product of the functions of all pairs for the multiple `n`, which has `bits` binary digits
below its leading one. -/
def productOver (steps : List Step) : (bits n : Nat) → Fq12 × List Step
  | 0, _ => (Fq12.one, steps)
  | bits + 1, n =>
    let (f, steps) := productOver steps bits (n / 2)
    let (f, steps) := forEach (fun f s ↦ s.double f) (f.mul f) steps
    if n % 2 = 1 then forEach (fun f s ↦ s.add f) f steps else (f, steps)

/-- The last factor of the exponent `(p ^ 12 - 1) / r = (p ^ 6 - 1) * (p ^ 2 + 1) * finalFactor`,
with `p` the number of elements of the base field and `r` the order of the groups. -/
def finalFactor : Nat := (baseModulus ^ (4 : Nat) - baseModulus ^ (2 : Nat) + 1) / scalarModulus

/-- The power that makes the values of the function comparable. Its first two factors are powers of
the field's own automorphisms. -/
def reduce (f : Fq12) : Fq12 :=
  let g := f.conj.mul f.inv
  (g.frobenius.mul g).pow finalFactor

/-- The product of the pairings of pairs of points. -/
def product (pairs : List (G1 × G2)) : Fq12 :=
  reduce (productOver (pairs.filterMap Step.ofPair?) scalarModulus.log2 scalarModulus).1

/-- The pairing of two points. -/
def pairing (p : G1) (q : G2) : Fq12 := product [(p, q)]

end TreeProver.Pairing
