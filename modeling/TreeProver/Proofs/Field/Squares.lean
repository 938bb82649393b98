import Mathlib.FieldTheory.Finite.Basic
import Mathlib.Tactic.LinearCombination
import TreeProver.Curve.Groups
import TreeProver.Proofs.Field.Primality

/-!
# Inverses and squares in the coordinate fields

The residues modulo the prime modulus have inverses, and two of them are no squares: minus one, so
that only zero has the norm zero in the quadratic extension, and 82, the norm of `9 + u`, so that `9
+ u` is no square there either.
-/

namespace TreeProver

open scoped Fin.CommRing

/-- The modulus of the coordinate field is prime. -/
instance : Fact baseModulus.Prime := ⟨baseModulus_prime⟩

/-! ### Residues -/

namespace Residue

variable {m : Nat} [Modulus m]

/-- Powers of residues are powers. -/
theorem pow_eq (x : Fin m) (n : Nat) : pow x n = x ^ n := by
  have hone : (ofNat 1 : Fin m) = 1 := Fin.ext rfl
  exact map_repeated id (fun _ _ ↦ rfl) hone x n

/-- The inverse of a product is the product of the inverses. -/
theorem inv_mul (x y : Fin m) : inv (x * y) = inv x * inv y := by
  rw [inv, inv, inv, pow_eq, pow_eq, pow_eq, mul_pow]

end Residue

namespace Fq

/-- An element that is not zero has the order of the others. -/
theorem pow_card_sub_one {x : Fq} (hx : x ≠ 0) : x ^ (baseModulus - 1) = 1 := by
  apply (ZMod.finEquiv baseModulus).injective
  rw [map_pow, map_one]
  apply ZMod.pow_card_sub_one_eq_one
  simpa using hx

/-- An element that is not zero has an inverse. -/
theorem mul_inv {x : Fq} (hx : x ≠ 0) : x * Residue.inv x = 1 := by
  have hsucc : baseModulus - 2 + 1 = baseModulus - 1 := by decide
  rw [Residue.inv, Residue.pow_eq, ← pow_succ', hsucc, pow_card_sub_one hx]

/-- A product is zero only when a factor is. -/
theorem eq_zero_of_mul {x y : Fq} (hx : x ≠ 0) (h : x * y = 0) : y = 0 := by
  calc y = x * Residue.inv x * y := by rw [mul_inv hx, one_mul]
    _ = Residue.inv x * (x * y) := by ring
    _ = 0 := by rw [h, mul_zero]

/-- The inverse of the negative is the negative of the inverse. -/
theorem inv_neg (x : Fq) : Residue.inv (-x) = -Residue.inv x := by
  have hone : Residue.inv (-1 : Fq) = -1 := by decide +kernel
  rw [← neg_one_mul, Residue.inv_mul, hone, neg_one_mul]

/-- An element whose power to half the order is not one is no square. -/
theorem mul_self_ne {a : Fq} (h0 : a ≠ 0) (h : Residue.pow a ((baseModulus - 1) / 2) ≠ 1) (x : Fq) :
    x * x ≠ a := by
  rintro rfl
  have hx : x ≠ 0 := by
    rintro rfl
    exact h0 (mul_zero 0)
  have hhalf : 2 * ((baseModulus - 1) / 2) = baseModulus - 1 := by decide
  apply h
  rw [Residue.pow_eq, ← pow_two, ← pow_mul, hhalf, pow_card_sub_one hx]

/-- Minus one is no square. -/
theorem mul_self_ne_neg_one (x : Fq) : x * x ≠ -1 :=
  mul_self_ne (by decide) (by decide +kernel) x

/-- The norm of `9 + u` is no square. -/
theorem mul_self_ne_norm (x : Fq) : x * x ≠ G2.nonResidue.norm :=
  mul_self_ne (by decide) (by decide +kernel) x

/-- A multiple of a square by an element that is no square is only a square when it is zero. -/
theorem eq_zero_of_mul_self {a : Fq} (ha : ∀ x : Fq, x * x ≠ a) {x y : Fq}
    (h : x * x = a * (y * y)) : y = 0 := by
  by_contra hy
  apply ha (x * Residue.inv y)
  calc x * Residue.inv y * (x * Residue.inv y)
      = x * x * (Residue.inv y * Residue.inv y) := by ring
    _ = a * ((y * Residue.inv y) * (y * Residue.inv y)) := by rw [h]; ring
    _ = a := by rw [mul_inv hy, mul_one, mul_one]

end Fq

/-! ### The quadratic extension -/

namespace Fq2

theorem ext {a b : Fq2} (h0 : a.c0 = b.c0) (h1 : a.c1 = b.c1) : a = b := by
  cases a
  cases b
  exact congrArg₂ Fq2.mk h0 h1

@[simp] theorem c0_zero : (0 : Fq2).c0 = 0 := rfl
@[simp] theorem c1_zero : (0 : Fq2).c1 = 0 := rfl
@[simp] theorem c0_one : (1 : Fq2).c0 = 1 := rfl
@[simp] theorem c1_one : (1 : Fq2).c1 = 0 := rfl
@[simp] theorem c0_add (a b : Fq2) : (a + b).c0 = a.c0 + b.c0 := rfl
@[simp] theorem c1_add (a b : Fq2) : (a + b).c1 = a.c1 + b.c1 := rfl
@[simp] theorem c0_mul (a b : Fq2) : (a * b).c0 = a.c0 * b.c0 - a.c1 * b.c1 := rfl
@[simp] theorem c1_mul (a b : Fq2) : (a * b).c1 = a.c0 * b.c1 + a.c1 * b.c0 := rfl

/-- The elements are a ring. -/
instance : CommRing Fq2 where
  add_assoc _ _ _ := ext (add_assoc _ _ _) (add_assoc _ _ _)
  zero_add _ := ext (zero_add _) (zero_add _)
  add_zero _ := ext (add_zero _) (add_zero _)
  add_comm _ _ := ext (add_comm _ _) (add_comm _ _)
  neg_add_cancel _ := ext (neg_add_cancel _) (neg_add_cancel _)
  sub_eq_add_neg _ _ := ext (sub_eq_add_neg _ _) (sub_eq_add_neg _ _)
  mul_assoc a b c := by apply ext <;> simp only [c0_mul, c1_mul] <;> ring
  one_mul a := by apply ext <;> simp only [c0_mul, c1_mul, c0_one, c1_one] <;> ring
  mul_one a := by apply ext <;> simp only [c0_mul, c1_mul, c0_one, c1_one] <;> ring
  mul_comm a b := by apply ext <;> simp only [c0_mul, c1_mul] <;> ring
  left_distrib a b c := by apply ext <;> simp only [c0_mul, c1_mul, c0_add, c1_add] <;> ring
  right_distrib a b c := by apply ext <;> simp only [c0_mul, c1_mul, c0_add, c1_add] <;> ring
  zero_mul a := by apply ext <;> simp only [c0_mul, c1_mul, c0_zero, c1_zero] <;> ring
  mul_zero a := by apply ext <;> simp only [c0_mul, c1_mul, c0_zero, c1_zero] <;> ring
  nsmul := nsmulRec
  zsmul := zsmulRec

/-- The norm of a product is the product of the norms. -/
theorem norm_mul (a b : Fq2) : (a * b).norm = a.norm * b.norm := by
  simp only [norm, c0_mul, c1_mul]
  ring

/-- An element and its negative have the same norm. -/
theorem norm_neg (a : Fq2) : (-a).norm = a.norm := by
  show -a.c0 * -a.c0 + -a.c1 * -a.c1 = a.c0 * a.c0 + a.c1 * a.c1
  ring

/-- The norm of an element of the coordinate field is its square. -/
theorem norm_ofBase (k : Fq) : (ofBase k).norm = k * k := by
  rw [norm, ofBase, mul_zero, add_zero]

/-- Three times a square may be taken in the coordinate field. -/
theorem ofBase_triple (k : Fq) : ofBase (k * k + k * k + k * k) = 3 * (ofBase k * ofBase k) := by
  have h3 : 3 * (ofBase k * ofBase k)
      = ofBase k * ofBase k + ofBase k * ofBase k + ofBase k * ofBase k := by ring
  rw [h3]
  apply ext
  · simp only [ofBase, c0_add, c0_mul]
    ring
  · simp only [ofBase, c1_add, c1_mul]
    ring

/-- Only zero has the norm zero. -/
theorem eq_zero_of_norm {a : Fq2} (h : a.norm = 0) : a = 0 := by
  have h1 : a.c1 = 0 := by
    apply Fq.eq_zero_of_mul_self Fq.mul_self_ne_neg_one (x := a.c0)
    rw [norm] at h
    linear_combination h
  by_contra ha
  have h0 : a.c0 ≠ 0 := fun h0 ↦ ha (ext h0 h1)
  apply h0
  apply Fq.eq_zero_of_mul h0
  rw [norm, h1] at h
  linear_combination h

/-- An element that is not zero has an inverse. -/
theorem mul_inv {a : Fq2} (h : a ≠ 0) : a * a.inv = 1 := by
  have hn : a.norm * Residue.inv a.norm = 1 := Fq.mul_inv fun hn ↦ h (eq_zero_of_norm hn)
  rw [norm] at hn
  apply ext
  · simp only [inv, scale, conj, norm, c0_mul, c0_one]
    linear_combination hn
  · simp only [inv, scale, conj, norm, c1_mul, c1_one]
    ring

/-- The inverse of a product is the product of the inverses. -/
theorem inv_mul (a b : Fq2) : (a * b).inv = a.inv * b.inv := by
  rw [inv, norm_mul, Residue.inv_mul]
  apply ext
  · simp only [inv, scale, conj, c0_mul, c1_mul]
    ring
  · simp only [inv, scale, conj, c0_mul, c1_mul]
    ring

/-- A product is zero only when a factor is. -/
theorem eq_zero_of_mul {a b : Fq2} (ha : a ≠ 0) (h : a * b = 0) : b = 0 := by
  calc b = a * a.inv * b := by rw [mul_inv ha, one_mul]
    _ = a.inv * (a * b) := by ring
    _ = 0 := by rw [h, mul_zero]

/-- A multiple of a square by `9 + u` only has a square as its norm when it is zero. -/
theorem eq_zero_of_norm_nonResidue_mul {b : Fq2} {k : Fq}
    (h : (G2.nonResidue * (b * b)).norm = k * k) : b = 0 := by
  apply eq_zero_of_norm
  apply Fq.eq_zero_of_mul_self Fq.mul_self_ne_norm (x := k)
  rw [← h, norm_mul, norm_mul]

end Fq2

end TreeProver
