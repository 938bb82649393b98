import TreeProver.Proofs.Field.Squares

/-!
# Square roots in the coordinate fields

A square has two roots, which are negatives of each other, and the square root functions find one of
them. Of the two, exactly one counts as larger unless both are the same, so a root is determined by
its square and by whether it is the larger one.
-/

namespace TreeProver

open scoped Fin.CommRing

/-- Square roots are found up to sign, and an element and its negative differ in whether they are
larger, unless they are the same. -/
class HasRoots (F : Type) [CoordinateField F] : Prop where
  sqrt?_mul_self : ∀ y : F, ∃ s, CoordinateField.sqrt? (y * y) = some s ∧ (s = y ∨ s = -y)
  isLarger_neg : ∀ y : F, -y ≠ y → CoordinateField.isLarger (-y) = !CoordinateField.isLarger y
  neg_neg : ∀ y : F, - -y = y

namespace Fq

/-- Elements with the same square are equal up to sign. -/
theorem eq_or_eq_neg {x y : Fq} (h : x * x = y * y) : x = y ∨ x = -y := by
  have : NoZeroDivisors Fq := ⟨fun h ↦ or_iff_not_imp_left.2 fun hx ↦ eq_zero_of_mul hx h⟩
  exact mul_self_eq_mul_self_iff.1 h

/-- The candidate for a square root is a power. -/
theorem sqrt?_eq (x : Fq) : Residue.sqrt? x =
    if Residue.pow x ((baseModulus + 1) / 4) * Residue.pow x ((baseModulus + 1) / 4) = x then
      some (Residue.pow x ((baseModulus + 1) / 4)) else none := rfl

/-- The square root of a square is found. -/
theorem sqrt?_mul_self (y : Fq) : ∃ s, Residue.sqrt? (y * y) = some s ∧ (s = y ∨ s = -y) := by
  have hexp : 2 * ((baseModulus + 1) / 4 + (baseModulus + 1) / 4) = baseModulus - 1 + 2 := by decide
  have hroot :
      Residue.pow (y * y) ((baseModulus + 1) / 4) * Residue.pow (y * y) ((baseModulus + 1) / 4)
      = y * y := by
    rw [Residue.pow_eq, ← pow_add, ← pow_two, ← pow_mul, hexp, pow_add]
    by_cases hy : y = 0
    · rw [hy, pow_two, mul_zero, mul_zero]
    · rw [pow_card_sub_one hy, one_mul]
  refine ⟨Residue.pow (y * y) ((baseModulus + 1) / 4), ?_, eq_or_eq_neg hroot⟩
  rw [sqrt?_eq, if_pos hroot]

/-- What is found as a square root is one. -/
theorem mul_self_of_sqrt? {x s : Fq} (h : Residue.sqrt? x = some s) : s * s = x := by
  rw [sqrt?_eq] at h
  split at h
  · next hs =>
    obtain rfl := Option.some.inj h
    exact hs
  · cases h

/-- The negative of an element that is not zero is larger exactly when the element is not. -/
theorem isLarger_neg {x : Fq} (hx : x ≠ 0) : Residue.isLarger (-x) = !Residue.isLarger x := by
  have hneg : (-x).val = baseModulus - x.val := by rw [Fin.val_neg, if_neg hx]
  have hlt : x.val < baseModulus := x.isLt
  have hodd : baseModulus % 2 = 1 := by decide
  -- The modulus is odd, so an element and its negative are never the same number.
  have hiff : x.val < baseModulus - x.val ↔ ¬ baseModulus - x.val < x.val := by omega
  rw [Residue.isLarger, Residue.isLarger, neg_neg, hneg, decide_eq_decide.2 hiff, decide_not]

instance : HasRoots Fq where
  sqrt?_mul_self := sqrt?_mul_self
  isLarger_neg y hy := by
    apply isLarger_neg
    rintro rfl
    exact hy neg_zero
  neg_neg := neg_neg

end Fq

namespace Fq2

/-- Elements with the same square are equal up to sign. -/
theorem eq_or_eq_neg {x y : Fq2} (h : x * x = y * y) : x = y ∨ x = -y := by
  have : NoZeroDivisors Fq2 := ⟨fun h ↦ or_iff_not_imp_left.2 fun hx ↦ eq_zero_of_mul hx h⟩
  exact mul_self_eq_mul_self_iff.1 h

/-- A root of half the sum that a square root starts from determines the square root. -/
theorem rootWith_eq {a : Fq2} {t x : Fq} (h : Residue.sqrt? t = some x) :
    a.rootWith t
      = if (⟨x, a.c1 * Residue.inv (x + x)⟩ : Fq2) * ⟨x, a.c1 * Residue.inv (x + x)⟩ = a then
        some ⟨x, a.c1 * Residue.inv (x + x)⟩ else none := by
  simp only [rootWith, h, bind, Option.bind]

/-- What is found as a square root with a given real part is one. -/
theorem mul_self_of_rootWith {a s : Fq2} {t : Fq} (h : a.rootWith t = some s) : s * s = a := by
  cases hx : Residue.sqrt? t with
  | none =>
    rw [rootWith, hx] at h
    cases h
  | some x =>
    rw [rootWith_eq hx] at h
    split at h
    · next hs =>
      obtain rfl := Option.some.inj h
      exact hs
    · cases h

/-- A square root is found from the square of its real part, unless that is zero. -/
theorem exists_rootWith {y : Fq2} (h0 : y.c0 ≠ 0) {t : Fq} (ht : t = y.c0 * y.c0) :
    ∃ s, (y * y).rootWith t = some s := by
  obtain ⟨x, hx, -⟩ := Fq.sqrt?_mul_self y.c0
  have hsq := Fq.mul_self_of_sqrt? hx
  have hinv : (x + x) * Residue.inv (x + x) = 1 := by
    apply Fq.mul_inv
    intro hd
    have hx0 : x = 0 := Fq.eq_zero_of_mul (x := 2) (by decide) (by linear_combination hd)
    apply h0
    apply Fq.eq_zero_of_mul h0
    rw [← hsq, hx0, mul_zero]
  have hroot : (⟨x, (y * y).c1 * Residue.inv (x + x)⟩ : Fq2)
      * ⟨x, (y * y).c1 * Residue.inv (x + x)⟩ = y * y := by
    apply ext
    · simp only [c0_mul, c1_mul]
      linear_combination (1 + 4 * y.c1 ^ 2 * Residue.inv (x + x) ^ 2) * hsq
        - y.c1 ^ 2 * ((x + x) * Residue.inv (x + x) + 1) * hinv
    · simp only [c1_mul]
      linear_combination (y.c0 * y.c1 + y.c1 * y.c0) * hinv
  rw [ht, rootWith_eq hx]
  exact ⟨_, if_pos hroot⟩

/-- What is found as a square root is one. -/
theorem mul_self_of_sqrt? {a s : Fq2} (h : a.sqrt? = some s) : s * s = a := by
  rw [sqrt?] at h
  split at h
  · next h1 =>
    cases h0 : Residue.sqrt? a.c0 with
    | some r =>
      rw [h0] at h
      obtain rfl := Option.some.inj h
      have hr := Fq.mul_self_of_sqrt? h0
      apply ext
      · simp only [c0_mul]
        linear_combination hr
      · simp only [c1_mul]
        linear_combination -h1
    | none =>
      rw [h0] at h
      obtain ⟨r, hr, rfl⟩ := Option.map_eq_some_iff.1 h
      have hr := Fq.mul_self_of_sqrt? hr
      apply ext
      · simp only [c0_mul]
        linear_combination -hr
      · simp only [c1_mul]
        linear_combination -h1
  · obtain ⟨n, -, h⟩ := Option.bind_eq_some_iff.1 h
    rcases Option.or_eq_some_iff.1 h with h | ⟨-, h⟩
    · exact mul_self_of_rootWith h
    · exact mul_self_of_rootWith h

/-- The square root of a square is found. -/
theorem exists_sqrt? (y : Fq2) : ∃ s, (y * y).sqrt? = some s := by
  rw [sqrt?]
  split
  · next h1 =>
    -- One part of the root is zero, so the square is a square or the negative of one.
    rw [c1_mul] at h1
    by_cases hy : y.c1 = 0
    · obtain ⟨s, hs, -⟩ := Fq.sqrt?_mul_self y.c0
      rw [c0_mul, hy, mul_zero, sub_zero, hs]
      exact ⟨_, rfl⟩
    · have hy0 : y.c0 = 0 := by
        apply Fq.eq_zero_of_mul hy
        apply Fq.eq_zero_of_mul (x := 2) (by decide)
        linear_combination h1
      obtain ⟨s, hs, -⟩ := Fq.sqrt?_mul_self y.c1
      rw [c0_mul, hy0, mul_zero, zero_sub, neg_neg, hs]
      cases Residue.sqrt? (-(y.c1 * y.c1)) with
      | some r => exact ⟨_, rfl⟩
      | none => exact ⟨_, rfl⟩
  · next h1 =>
    have hy0 : y.c0 ≠ 0 := by
      intro hy0
      rw [c1_mul, hy0, zero_mul, mul_zero, add_zero] at h1
      exact h1 rfl
    have hhalf : 2 * Residue.inv (2 : Fq) = 1 := Fq.mul_inv (by decide)
    obtain ⟨n, hn, hsign⟩ := Fq.sqrt?_mul_self y.norm
    rw [norm_mul, hn, Option.bind_eq_bind, Option.bind_some, ← Option.isSome_iff_exists,
      Option.isSome_or, Bool.or_eq_true, Option.isSome_iff_exists, Option.isSome_iff_exists, c0_mul]
    -- The real part of the root squares to half the sum for one root of the norm, and to half the
    -- difference for the other.
    rcases hsign with rfl | rfl
    · refine .inl (exists_rootWith hy0 ?_)
      rw [norm]
      linear_combination y.c0 * y.c0 * hhalf
    · refine .inr (exists_rootWith hy0 ?_)
      rw [norm]
      linear_combination y.c0 * y.c0 * hhalf

/-- The negative of an element that is not zero is larger exactly when the element is not. -/
theorem isLarger_neg {a : Fq2} (ha : a ≠ 0) : isLarger (-a) = !isLarger a := by
  have h0 : (-a).c0 = -a.c0 := rfl
  have h1 : (-a).c1 = -a.c1 := rfl
  rw [isLarger, isLarger, h0, h1]
  by_cases hc : a.c1 = 0
  · rw [if_pos hc, if_pos (by rw [hc, neg_zero])]
    exact Fq.isLarger_neg fun hz ↦ ha (ext hz hc)
  · rw [if_neg hc, if_neg (neg_ne_zero.2 hc)]
    exact Fq.isLarger_neg hc

instance : HasRoots Fq2 where
  sqrt?_mul_self y := by
    obtain ⟨s, hs⟩ := exists_sqrt? y
    exact ⟨s, hs, eq_or_eq_neg (mul_self_of_sqrt? hs)⟩
  isLarger_neg y hy := by
    apply isLarger_neg
    rintro rfl
    exact hy neg_zero
  neg_neg := neg_neg

end Fq2

end TreeProver
