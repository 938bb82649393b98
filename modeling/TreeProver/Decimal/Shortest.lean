import TreeProver.Decimal.Binary64

/-!
# The shortest decimal of a magnitude

A magnitude is written with the fewest digits that read back as it. The decimals that read back form
an interval around the magnitude; on the grid of decimals with one digit, two digits, and so on, the
two neighbours of the magnitude are tried until one lies in the interval, and of two the nearer
is taken.
-/

namespace TreeProver.Binary64

/-- A decimal `digits * 10 ^ exponent`. -/
structure Decimal where
  digits : Nat
  exponent : Int
  deriving DecidableEq, Repr

/-- A quotient times a power of ten, as a quotient. -/
def tenfold (num den : Nat) (exponent : Int) : Nat × Nat :=
  match exponent with
  | .ofNat k => (num * 10 ^ k, den)
  | .negSucc k => (num, den * 10 ^ (k + 1))

/-- The ends of the interval of decimals that read back, in quarter units. The interval reaches half
a unit up, and half the unit below it down. -/
def readsBack (x : Binary64) : Nat × Nat :=
  let down := if x.units = 2 ^ (precision - 1) ∧ minExponent < x.exponent then 1 else 2
  (4 * x.units - down, 4 * x.units + 2)

/-- Whether a decimal reads back as a magnitude; the ends count when the units are even. -/
def isReadBack (x : Binary64) (d : Decimal) : Bool :=
  let (num, den) := tenfold d.digits 1 d.exponent
  let (n, q) := scaled num den (2 - x.exponent)
  let (low, high) := x.readsBack
  if x.units % 2 = 0 then decide (low * q ≤ n) && decide (n ≤ high * q)
  else decide (low * q < n) && decide (n < high * q)

/-- The number of decimal digits of a whole number. -/
def digitCount (n : Nat) : Nat := (Nat.toDigits 10 n).length

/-- The exponent of the leading decimal digit. -/
def leadingExponent (x : Binary64) : Int :=
  let (num, den) := x.toRatio
  if den ≤ num then (digitCount (num / den) : Int) - 1
  else
    let guess := digitCount (den / num)
    if den ≤ num * 10 ^ (guess - 1) then -((guess : Int) - 1) else -(guess : Int)

/-- The decimal with a number of digits that reads back, the nearer of two. -/
def withDigits? (x : Binary64) (count : Nat) : Option Decimal :=
  let exponent := x.leadingExponent - (count - 1)
  let (num, den) := x.toRatio
  let (n, d) := tenfold num den (-exponent)
  let floor : Decimal := ⟨n / d, exponent⟩
  let ceiling : Decimal := ⟨n / d + 1, exponent⟩
  let (near, far) :=
    if 2 * (n % d) < d ∨ (2 * (n % d) = d ∧ n / d % 2 = 0) then (floor, ceiling)
    else (ceiling, floor)
  if x.isReadBack near then some near else if x.isReadBack far then some far else none

/-- A decimal without zeros at its end; at most `count` of them are removed. -/
def Decimal.trim : (count : Nat) → Decimal → Decimal
  | 0, d => d
  | count + 1, d =>
    if d.digits % 10 = 0 ∧ d.digits ≠ 0 then trim count ⟨d.digits / 10, d.exponent + 1⟩ else d

/-- The shortest decimal that reads back; seventeen digits always do. -/
def shortest (x : Binary64) : Decimal :=
  if x.units = 0 then ⟨0, 0⟩
  else
    match ((List.range 17).map (· + 1)).findSome? x.withDigits? with
    | some d => d.trim 20
    | none => ⟨0, 0⟩

end TreeProver.Binary64
