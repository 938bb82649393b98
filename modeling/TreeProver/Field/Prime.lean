import TreeProver.Field.Power

/-!
# The prime fields

`Fq` is the field of curve coordinates and `Fr` the field of scalars, in which constraints are
written. An element is its least non-negative residue, so equal elements are equal numbers and the
written form of an element is the number itself.
-/

namespace TreeProver

/-- The number of elements of the coordinate field. -/
def baseModulus : Nat :=
  21888242871839275222246405745257275088696311157297823662689037894645226208583

/-- The number of elements of the scalar field, which is the order of the curve groups. -/
def scalarModulus : Nat :=
  21888242871839275222246405745257275088548364400416034343698204186575808495617

/-- A number that residues are taken by. -/
class Modulus (m : Nat) : Prop where
  pos : 0 < m

instance : Modulus baseModulus := ⟨by decide⟩

instance : Modulus scalarModulus := ⟨by decide⟩

/-- Residues have a zero and a one. -/
instance {m : Nat} [Modulus m] : @NeZero Nat Zero.ofOfNat0 m := ⟨Nat.ne_of_gt Modulus.pos⟩

/-- The field of curve coordinates. -/
abbrev Fq := Fin baseModulus

/-- The field of scalars. -/
abbrev Fr := Fin scalarModulus

namespace Residue

/-- The residue whose written form is the given number, which has to be below the modulus. -/
def ofNat? {m : Nat} (n : Nat) : Option (Fin m) := if h : n < m then some ⟨n, h⟩ else none

/-- Reading the written form of a residue gives the residue. -/
@[simp] theorem ofNat?_val {m : Nat} (x : Fin m) : ofNat? x.val = some x := by
  simp [ofNat?, x.isLt]

/-- A number is the written form of a residue exactly when it is the residue. -/
theorem ofNat?_eq_some_iff {m n : Nat} {x : Fin m} : ofNat? n = some x ↔ n = x.val := by
  constructor
  · intro h
    rw [ofNat?] at h
    split at h
    · exact congrArg Fin.val (Option.some.inj h)
    · contradiction
  · rintro rfl
    exact ofNat?_val x

variable {m : Nat} [Modulus m]

/-- The residue of a number. -/
def ofNat (n : Nat) : Fin m := ⟨n % m, Nat.mod_lt n Modulus.pos⟩

/-- Below the modulus a number is its own residue. -/
theorem val_ofNat {n : Nat} (h : n < m) : (ofNat n : Fin m).val = n := Nat.mod_eq_of_lt h

/-- A residue is the residue of its written form. -/
@[simp] theorem ofNat_val (x : Fin m) : ofNat x.val = x := Fin.ext (val_ofNat x.isLt)

/-- Multiplication of residues. -/
def mul (a b : Fin m) : Fin m := a * b

/-- A power of a residue. -/
def pow (x : Fin m) (n : Nat) : Fin m := repeated mul (ofNat 1) x n

/-- The multiplicative inverse modulo a prime; the inverse of zero is zero. -/
def inv (x : Fin m) : Fin m := pow x (m - 2)

/-- A square root modulo a prime that leaves three on division by four. -/
def sqrt? (x : Fin m) : Option (Fin m) :=
  let s := pow x ((m + 1) / 4)
  if mul s s = x then some s else none

/-- Whether a residue is the larger of itself and its negative. -/
def isLarger (x : Fin m) : Bool := decide ((-x).val < x.val)

end Residue

end TreeProver
