import TreeProver.Field.Dodecic
import TreeProver.Proofs.Field.Squares

/-!
# The twelfth-degree extension

The product of an element and its conjugate has even powers of `w` only. Such elements have a norm
in the quadratic extension, by which they are inverted, and with it every element whose product with
its conjugate has a norm that is not zero. The lines that the pairing multiplies are such elements,
since `9 + u` is no square.
-/

namespace TreeProver.Fq12

open scoped Fin.CommRing

theorem ext {a b : Fq12} (h0 : a.a0 = b.a0) (h1 : a.a1 = b.a1) (h2 : a.a2 = b.a2) (h3 : a.a3 = b.a3)
    (h4 : a.a4 = b.a4) (h5 : a.a5 = b.a5) : a = b := by
  cases a
  cases b
  simp only [mk.injEq]
  exact ⟨h0, h1, h2, h3, h4, h5⟩

/-- Multiplication by `9 + u` is multiplication. -/
theorem twist_eq (a : Fq2) : twist a = G2.nonResidue * a := by
  apply Fq2.ext
  · simp only [twist, G2.nonResidue, Fq2.c0_mul]
    ring
  · simp only [twist, G2.nonResidue, Fq2.c1_mul]
    ring

/-- Multiplication by an element of the coordinate field is multiplication. -/
theorem scale_eq (a : Fq2) (k : Fq) : a.scale k = Fq2.ofBase k * a := by
  apply Fq2.ext
  · simp only [Fq2.scale, Fq2.ofBase, Fq2.c0_mul]
    ring
  · simp only [Fq2.scale, Fq2.ofBase, Fq2.c1_mul]
    ring

/-! ### Multiplication -/

/-- The elements under multiplication. -/
instance : CommMonoid Fq12 where
  mul := mul
  one := one
  mul_assoc a b c := by
    show (a.mul b).mul c = a.mul (b.mul c)
    apply ext <;> simp only [mul, twist_eq] <;> ring
  mul_comm a b := by
    show a.mul b = b.mul a
    apply ext <;> simp only [mul, twist_eq] <;> ring
  one_mul a := by
    show one.mul a = a
    apply ext <;> simp only [mul, one, twist_eq] <;> ring
  mul_one a := by
    show a.mul one = a
    apply ext <;> simp only [mul, one, twist_eq] <;> ring

theorem mul_def (a b : Fq12) : a * b = a.mul b := rfl

theorem one_def : (1 : Fq12) = one := rfl

/-- Powers are powers. -/
theorem pow_eq (a : Fq12) (n : Nat) : a.pow n = a ^ n :=
  map_repeated id (fun _ _ ↦ rfl) rfl a n

/-- The conjugate of a product is the product of the conjugates. -/
theorem conj_mul (a b : Fq12) : (a * b).conj = a.conj * b.conj := by
  apply ext <;> simp only [mul_def, mul, conj, twist_eq] <;> ring

theorem conj_one : conj 1 = 1 := by decide +kernel

theorem conj_conj (a : Fq12) : a.conj.conj = a := by
  apply ext <;> simp only [conj, neg_neg]

/-- The element with `w` replaced by a multiple of `w`. -/
def substitute (z : Fq2) (a : Fq12) : Fq12 :=
  ⟨a.a0, a.a1 * z, a.a2 * (z * z), a.a3 * (z * z * z), a.a4 * (z * z * z * z),
    a.a5 * (z * z * z * z * z)⟩

/-- Sixth roots of one may be put in before `w`. -/
theorem substitute_mul {z : Fq2} (hz : z * z * z * (z * z * z) = 1) (a b : Fq12) :
    substitute z (a * b) = substitute z a * substitute z b := by
  simp only [mul_def, mul, substitute, twist_eq]
  generalize G2.nonResidue = n
  apply ext
  · linear_combination -(n * (a.a1 * b.a5 + a.a2 * b.a4 + a.a3 * b.a3 + a.a4 * b.a2 + a.a5 * b.a1))
      * hz
  · linear_combination -(n * (a.a2 * b.a5 + a.a3 * b.a4 + a.a4 * b.a3 + a.a5 * b.a2) * z) * hz
  · linear_combination -(n * (a.a3 * b.a5 + a.a4 * b.a4 + a.a5 * b.a3) * z ^ 2) * hz
  · linear_combination -(n * (a.a4 * b.a5 + a.a5 * b.a4) * z ^ 3) * hz
  · linear_combination -(n * (a.a5 * b.a5) * z ^ 4) * hz
  · ring

/-- The power of the `p ^ 2` of a product is the product of the powers. -/
theorem frobenius_mul (a b : Fq12) : (a * b).frobenius = a.frobenius * b.frobenius :=
  substitute_mul (by decide +kernel : rootOfUnity * rootOfUnity * rootOfUnity
    * (rootOfUnity * rootOfUnity * rootOfUnity) = 1) a b

/-! ### Elements with even powers only -/

/-- The element with even powers of `w` only that has the given coefficients. -/
def even (b0 b1 b2 : Fq2) : Fq12 := ⟨b0, 0, b1, 0, b2, 0⟩

/-- The norm of an element with even powers of `w` only. -/
def evenNorm (b0 b1 b2 : Fq2) : Fq2 :=
  b0 * (b0 * b0 - twist (b1 * b2))
    + twist (b2 * (twist (b2 * b2) - b0 * b1) + b1 * (b1 * b1 - b0 * b2))

/-- An element with even powers only is its own conjugate. -/
theorem conj_even (b0 b1 b2 : Fq2) : (even b0 b1 b2).conj = even b0 b1 b2 := by
  apply ext <;> simp only [even, conj, neg_zero]

/-- An element with even powers only is inverted by its norm. -/
theorem even_mul_invEven {b0 b1 b2 : Fq2} (h : evenNorm b0 b1 b2 ≠ 0) :
    even b0 b1 b2 * invEven b0 b1 b2 = 1 := by
  have hn := Fq2.mul_inv h
  simp only [evenNorm, twist_eq] at hn
  simp only [mul_def, one_def, even, invEven, one, mul, twist_eq]
  generalize Fq2.inv _ = t at hn ⊢
  apply ext
  · linear_combination hn
  all_goals ring

/-- Conjugation leaves the inverse of an element with even powers only. -/
theorem conj_invEven (b0 b1 b2 : Fq2) : (invEven b0 b1 b2).conj = invEven b0 b1 b2 :=
  conj_even _ _ _

/-- The coefficients of a product of elements with even powers only. -/
theorem even_mul_even (b0 b1 b2 c0 c1 c2 : Fq2) :
    even b0 b1 b2 * even c0 c1 c2 = even (b0 * c0 + twist (b1 * c2 + b2 * c1))
      (b0 * c1 + b1 * c0 + twist (b2 * c2)) (b0 * c2 + b1 * c1 + b2 * c0) := by
  apply ext <;> simp only [mul_def, mul, even, twist_eq] <;> ring

/-- The norm of a product is the product of the norms. -/
theorem evenNorm_mul (b0 b1 b2 c0 c1 c2 : Fq2) :
    evenNorm (b0 * c0 + twist (b1 * c2 + b2 * c1)) (b0 * c1 + b1 * c0 + twist (b2 * c2))
      (b0 * c2 + b1 * c1 + b2 * c0) = evenNorm b0 b1 b2 * evenNorm c0 c1 c2 := by
  simp only [evenNorm, twist_eq]
  ring

/-- The inverse of a product of elements with even powers only is the product of the inverses. -/
theorem invEven_mul (b0 b1 b2 c0 c1 c2 : Fq2) :
    invEven (b0 * c0 + twist (b1 * c2 + b2 * c1)) (b0 * c1 + b1 * c0 + twist (b2 * c2))
      (b0 * c2 + b1 * c1 + b2 * c0) = invEven b0 b1 b2 * invEven c0 c1 c2 := by
  have hn := congrArg Fq2.inv (evenNorm_mul b0 b1 b2 c0 c1 c2)
  rw [Fq2.inv_mul] at hn
  simp only [evenNorm] at hn
  simp only [invEven]
  rw [hn]
  generalize Fq2.inv _ = s
  generalize Fq2.inv _ = t
  apply ext <;> simp only [mul_def, mul, twist_eq] <;> ring

/-! ### Inverses -/

/-- The product of an element and its conjugate has even powers only. -/
theorem exists_even (a : Fq12) : ∃ b0 b1 b2, a * a.conj = even b0 b1 b2 := by
  refine ⟨(a * a.conj).a0, (a * a.conj).a2, (a * a.conj).a4, ?_⟩
  apply ext <;> simp only [even, mul_def, mul, conj, twist_eq] <;> ring

/-- The norm of the product of an element and its conjugate. -/
def norm (a : Fq12) : Fq2 := evenNorm (a * a.conj).a0 (a * a.conj).a2 (a * a.conj).a4

theorem norm_eq {a : Fq12} {b0 b1 b2 : Fq2} (h : a * a.conj = even b0 b1 b2) :
    a.norm = evenNorm b0 b1 b2 := by
  rw [norm, h]
  rfl

theorem inv_eq {a : Fq12} {b0 b1 b2 : Fq2} (h : a * a.conj = even b0 b1 b2) :
    a.inv = a.conj * invEven b0 b1 b2 := by
  rw [mul_def] at h
  rw [inv, h]
  rfl

/-- The product of a product and its conjugate. -/
theorem mul_mul_conj {a b : Fq12} {b0 b1 b2 c0 c1 c2 : Fq2} (ha : a * a.conj = even b0 b1 b2)
    (hb : b * b.conj = even c0 c1 c2) :
    (a * b) * (a * b).conj = even (b0 * c0 + twist (b1 * c2 + b2 * c1))
      (b0 * c1 + b1 * c0 + twist (b2 * c2)) (b0 * c2 + b1 * c1 + b2 * c0) := by
  rw [conj_mul, mul_mul_mul_comm, ha, hb, even_mul_even]

/-- The norm of a product is the product of the norms. -/
theorem norm_mul (a b : Fq12) : (a * b).norm = a.norm * b.norm := by
  obtain ⟨b0, b1, b2, ha⟩ := exists_even a
  obtain ⟨c0, c1, c2, hb⟩ := exists_even b
  rw [norm_eq (mul_mul_conj ha hb), norm_eq ha, norm_eq hb, evenNorm_mul]

/-- The product of elements whose norms are not zero is one. -/
theorem norm_mul_ne_zero {a b : Fq12} (ha : a.norm ≠ 0) (hb : b.norm ≠ 0) : (a * b).norm ≠ 0 := by
  rw [norm_mul]
  exact fun h ↦ hb (Fq2.eq_zero_of_mul ha h)

/-- The inverse of a product is the product of the inverses. -/
theorem inv_mul (a b : Fq12) : (a * b).inv = a.inv * b.inv := by
  obtain ⟨b0, b1, b2, ha⟩ := exists_even a
  obtain ⟨c0, c1, c2, hb⟩ := exists_even b
  rw [inv_eq (mul_mul_conj ha hb), inv_eq ha, inv_eq hb, conj_mul, invEven_mul, mul_mul_mul_comm]

/-- An element whose norm is not zero has an inverse. -/
theorem mul_inv {a : Fq12} (h : a.norm ≠ 0) : a * a.inv = 1 := by
  obtain ⟨b0, b1, b2, ha⟩ := exists_even a
  rw [norm_eq ha] at h
  rw [inv_eq ha, ← mul_assoc, ha, even_mul_invEven h]

/-- The inverse of the conjugate is the conjugate of the inverse. -/
theorem inv_conj (a : Fq12) : a.conj.inv = a.inv.conj := by
  obtain ⟨b0, b1, b2, ha⟩ := exists_even a
  have hc : a.conj * a.conj.conj = even b0 b1 b2 := by rw [conj_conj, mul_comm, ha]
  rw [inv_eq ha, inv_eq hc, conj_mul, conj_invEven]

/-! ### Lines -/

/-- The line `c + s * w ^ 2 + t * w ^ 3`, whose constant lies in the base field. -/
def line (c : Fq) (s t : Fq2) : Fq12 := ⟨Fq2.ofBase c, 0, s, t, 0, 0⟩

theorem mulLine_eq (a : Fq12) (c : Fq) (s t : Fq2) : a.mulLine c s t = a * line c s t := by
  apply ext <;> simp only [mulLine, line, mul_def, mul, scale_eq, twist_eq] <;> ring

/-- The element minus one. -/
def minusOne : Fq12 := ⟨-1, 0, 0, 0, 0, 0⟩

/-- The line on the other side of the axis is the negative of the conjugate. -/
theorem line_neg (c : Fq) (s t : Fq2) : line (-c) (-s) t = minusOne * (line c s t).conj := by
  have hc : Fq2.ofBase (-c) = -Fq2.ofBase c := Fq2.ext rfl neg_zero.symm
  apply ext <;> simp only [line, conj, minusOne, mul_def, mul, twist_eq, hc] <;> ring

/-- The norm of a line, by way of the extension that adjoins `w ^ 3`, in which `w ^ 6` is `9 +
u`. -/
theorem norm_line (c : Fq) (s t : Fq2) :
    let k := Fq2.ofBase c
    let n := G2.nonResidue
    let x := k * k * k + 3 * k * (n * (t * t)) + n * (s * s * s)
    let y := t * (3 * (k * k) + n * (t * t))
    (line c s t).norm = x * x - n * (y * y) := by
  simp only [norm, evenNorm, mul_def, mul, conj, line, twist_eq]
  ring

/-- A line of the pairing with a second point off the axis has a norm that is not zero. -/
theorem norm_line_ne_zero (c : Fq) (s : Fq2) {t : Fq2} (ht : t ≠ 0) : (line c s t).norm ≠ 0 := by
  intro h
  rw [norm_line, sub_eq_zero] at h
  -- The part with `w ^ 3` is zero, or else `9 + u` would be a square.
  have hy :=
    Fq2.eq_zero_of_norm_nonResidue_mul ((congrArg Fq2.norm h).symm.trans (Fq2.norm_mul _ _))
  have hsum := Fq2.eq_zero_of_mul ht hy
  have htwist : G2.nonResidue * (t * t) = -Fq2.ofBase (c * c + c * c + c * c) := by
    rw [Fq2.ofBase_triple]
    exact eq_neg_of_add_eq_zero_right hsum
  apply ht
  apply Fq2.eq_zero_of_norm_nonResidue_mul (k := c * c + c * c + c * c)
  rw [htwist, Fq2.norm_neg, Fq2.norm_ofBase]

end TreeProver.Fq12
