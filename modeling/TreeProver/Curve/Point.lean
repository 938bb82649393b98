import TreeProver.Field.Quadratic

/-!
# Points of a curve

Both curve groups consist of the solutions of `y ^ 2 = x ^ 3 + b` over their coordinate field and
one further point, the identity. A `Point` is written with its own coordinates, so equal points have
equal forms. Sums of many points run on `Projective` triples, where no division is needed, and are
brought back to coordinates at the end.
-/

namespace TreeProver

/-- What the curve code asks of a field of coordinates. -/
class CoordinateField (F : Type) extends Add F, Sub F, Neg F, Mul F where
  zero : F
  one : F
  inv : F → F
  sqrt? : F → Option F
  isLarger : F → Bool

instance : CoordinateField Fq where
  zero := 0
  one := 1
  inv := Residue.inv
  sqrt? := Residue.sqrt?
  isLarger := Residue.isLarger

instance : CoordinateField Fq2 where
  zero := 0
  one := 1
  inv := Fq2.inv
  sqrt? := Fq2.sqrt?
  isLarger := Fq2.isLarger

/-- A pair of coordinates or the identity. -/
inductive Point (F : Type) where
  | identity
  | affine (x y : F)
  deriving DecidableEq

/-- The point `(x / z ^ 2, y / z ^ 3)`; the identity when `z` is zero. -/
structure Projective (F : Type) where
  x : F
  y : F
  z : F

open CoordinateField

namespace Projective

variable {F : Type} [CoordinateField F] [DecidableEq F]

/-- The identity. -/
def identity : Projective F := ⟨one, one, zero⟩

/-- A point without division. -/
def ofPoint : Point F → Projective F
  | .identity => identity
  | .affine x y => ⟨x, y, one⟩

/-- The coordinates of a point. -/
def toPoint (p : Projective F) : Point F :=
  if p.z = zero then .identity
  else
    let i := inv p.z
    let i2 := i * i
    .affine (p.x * i2) (p.y * (i2 * i))

/-- Twice a point. -/
@[specialize] def double (p : Projective F) : Projective F :=
  let a := p.x * p.x
  let b := p.y * p.y
  let c := b * b
  let xb := p.x + b
  let d := xb * xb - a - c
  let d := d + d
  let e := a + a + a
  let x := e * e - (d + d)
  let c2 := c + c
  let c4 := c2 + c2
  let yz := p.y * p.z
  ⟨x, e * (d - x) - (c4 + c4), yz + yz⟩

/-- The sum of two points. -/
@[specialize] def add (p q : Projective F) : Projective F :=
  if p.z = zero then q
  else if q.z = zero then p
  else
    let pz2 := p.z * p.z
    let qz2 := q.z * q.z
    let u1 := p.x * qz2
    let u2 := q.x * pz2
    let s1 := p.y * (q.z * qz2)
    let s2 := q.y * (p.z * pz2)
    if u1 = u2 then
      if s1 = s2 then double p else identity
    else
      let h := u2 - u1
      let r := s2 - s1
      let h2 := h * h
      let h3 := h * h2
      let v := u1 * h2
      let x := r * r - h3 - (v + v)
      ⟨x, r * (v - x) - s1 * h3, h * (p.z * q.z)⟩

/-- The multiple `n` of a point, where `n` has at most `bits` binary digits. -/
@[specialize] def mulOver (p : Projective F) : (bits n : Nat) → Projective F
  | 0, _ => identity
  | bits + 1, n =>
    let twice := (mulOver p bits (n / 2)).double
    if n % 2 = 1 then twice.add p else twice

/-- A multiple of a point. -/
@[specialize] def mul (n : Nat) (p : Projective F) : Projective F :=
  if n = 0 then identity else p.mulOver (n.log2 + 1) n

end Projective

namespace Point

variable {F : Type} [CoordinateField F] [DecidableEq F]

instance : Inhabited (Point F) := ⟨identity⟩

/-- Whether a pair of coordinates solves the equation of the curve with constant `b`. -/
def isOnCurve (b : F) : Point F → Bool
  | .identity => true
  | .affine x y => y * y = x * x * x + b

/-- The point on the other side of the horizontal axis. -/
def neg : Point F → Point F
  | .identity => .identity
  | .affine x y => .affine x (-y)

/-- A multiple of a point. -/
@[specialize] def mul (n : Nat) (p : Point F) : Point F :=
  ((Projective.ofPoint p).mul n).toPoint

/-- The sum of two points. -/
def add (p q : Point F) : Point F := ((Projective.ofPoint p).add (Projective.ofPoint q)).toPoint

/-- The sum of multiples of points. Points and multipliers beyond the shorter list do not count. -/
@[specialize] def linearSum (terms : List (Nat × Point F)) : Projective F :=
  terms.foldl (fun acc t ↦ acc.add ((Projective.ofPoint t.2).mul t.1)) Projective.identity

/-- The point with a first coordinate on the curve with constant `b`, with the larger or the smaller
of its two possible second coordinates. -/
def ofX? (b x : F) (larger : Bool) : Option (Point F) :=
  (sqrt? (x * x * x + b)).map fun y ↦
    .affine x (if isLarger y = larger then y else -y)

end Point

end TreeProver
