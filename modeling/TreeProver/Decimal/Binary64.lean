import TreeProver.Natural

/-!
# Double-precision magnitudes

A magnitude is a whole number of units, each a power of two: `units * 2 ^ exponent` with fewer than
`2 ^ 53` units. `Binary64.ofRatio?` rounds a quotient to the nearest magnitude, a tie to the even
one, and has no result when it is past the largest. All computation is on natural numbers.
-/

namespace TreeProver

/-- A finite magnitude of double precision. -/
structure Binary64 where
  units : Nat
  exponent : Int
  deriving DecidableEq, Repr

namespace Binary64

/-- The exponent of the smallest unit. -/
def minExponent : Int := -1074

/-- The number of bits of the units. -/
def precision : Nat := 53

/-- Zero. -/
def zero : Binary64 := ⟨0, minExponent⟩

/-- The quotient of two numbers times a power of two, as a quotient. -/
def scaled (num den : Nat) (exponent : Int) : Nat × Nat :=
  match exponent with
  | .ofNat k => (num * 2 ^ k, den)
  | .negSucc k => (num, den * 2 ^ (k + 1))

/-- A quotient rounded to the nearest whole number, a tie to the even one. -/
def roundDiv (num den : Nat) : Nat :=
  let q := num / den
  let r := num % den
  if 2 * r < den then q
  else if den < 2 * r then q + 1
  else q + q % 2

/-- The exponent at which a quotient has just as many units as fit. -/
def exponentOf (num den : Nat) : Int :=
  let guess : Int := (num.log2 : Int) - den.log2 - 52
  let (n, d) := scaled num den (-guess)
  let exponent := if n / d < 2 ^ (precision - 1) then guess - 1 else guess
  max exponent minExponent

/-- The magnitude nearest to a quotient. -/
def ofRatio? (num den : Nat) : Option Binary64 :=
  if num = 0 then some zero
  else
    let exponent := exponentOf num den
    let (n, d) := scaled num den (-exponent)
    let units := roundDiv n d
    let (units, exponent) :=
      if units = 2 ^ precision then (2 ^ (precision - 1), exponent + 1) else (units, exponent)
    if 971 < exponent then none else some ⟨units, exponent⟩

/-- A magnitude as a quotient. -/
def toRatio (x : Binary64) : Nat × Nat := scaled x.units 1 x.exponent

/-- The magnitude nearest to a whole number. -/
def ofNat? (n : Nat) : Option Binary64 := ofRatio? n 1

/-- The rounded product of two magnitudes. -/
def mul? (x y : Binary64) : Option Binary64 :=
  let (a, b) := x.toRatio
  let (c, d) := y.toRatio
  ofRatio? (a * c) (b * d)

/-- The rounded quotient of two magnitudes. -/
def div? (x y : Binary64) : Option Binary64 :=
  let (a, b) := x.toRatio
  let (c, d) := y.toRatio
  ofRatio? (a * d) (b * c)

end Binary64

end TreeProver
