import TreeProver.Curve.Pairing
import TreeProver.Proofs.Field.Dodecic

/-!
# Products of pairings

The pairs of a product take the same steps side by side, and every step multiplies the shared value
by one factor for each pair, so the product is the one of the pairings. Along the negative of the
first point every factor is replaced by its conjugate, up to the sign, which the final power
removes. The factors have norms that are not zero, and the final power of the product of such an
element and its conjugate is one, so the pairing of the negative is the inverse.
-/

namespace TreeProver

open scoped Fin.CommRing

/-! ### Points of the subgroup -/

/-- Doubling a point on the axis or the identity gives the identity. -/
theorem Projective.double_z {p : Projective Fq2} (h : p.y = 0 ∨ p.z = 0) : p.double.z = 0 := by
  show p.y * p.z + p.y * p.z = 0
  rcases h with h | h
  · rw [h, zero_mul, add_zero]
  · rw [h, mul_zero, add_zero]

/-- The odd multiples of a point on the axis are the point. -/
theorem Projective.mulOver_of_y_eq_zero {p : Projective Fq2} (h : p.y = 0) {bits n : Nat}
    (hn : n < 2 ^ bits) :
    (n % 2 = 1 → p.mulOver bits n = p) ∧ (n % 2 ≠ 1 → (p.mulOver bits n).z = 0) := by
  induction bits generalizing n with
  | zero =>
    obtain rfl : n = 0 := by omega
    exact ⟨fun hodd ↦ by omega, fun _ ↦ rfl⟩
  | succ bits ih =>
    have hhalf : n / 2 < 2 ^ bits := by
      rw [Nat.pow_succ] at hn
      omega
    have hd : (p.mulOver bits (n / 2)).double.z = 0 := by
      apply double_z
      by_cases hodd : n / 2 % 2 = 1
      · rw [(ih hhalf).1 hodd]
        exact .inl h
      · exact .inr ((ih hhalf).2 hodd)
    constructor
    · intro hodd
      rw [mulOver, if_pos hodd]
      exact if_pos hd
    · intro heven
      rw [mulOver, if_neg heven, hd]

/-- No point of the subgroup but the identity lies on the axis, since the order of the subgroup is
odd. -/
theorem G2.y_ne_zero {x y : Fq2} (h : G2.isMember (.affine x y) = true) : y ≠ 0 := by
  rintro rfl
  rw [isMember, Bool.and_eq_true, decide_eq_true_eq] at h
  have hr : Projective.mul scalarModulus (Projective.ofPoint (.affine x (0 : Fq2)))
      = Projective.ofPoint (.affine x 0) := by
    rw [Projective.mul, if_neg (by decide)]
    exact (Projective.mulOver_of_y_eq_zero rfl Nat.lt_log2_self).1 (by decide)
  have hid := h.2
  rw [mul, Point.mul, hr, Projective.toPoint] at hid
  split at hid
  · next hz =>
    exact absurd hz (by decide : (1 : Fq2) ≠ 0)
  · cases hid

namespace Pairing

open Fq12

/-! ### The factors of a step -/

/-- The step of the negative of the first point. -/
def Step.mirror (s : Step) : Step :=
  { s with py := -s.py, reached := s.reached.map fun p ↦ (p.1, -p.2) }

/-- One element is the conjugate of the other, up to the sign. -/
def Mirrors (l l' : Fq12) : Prop := l' = l.conj ∨ l' = minusOne * l.conj

/-- What a step of the walk does with a pair: it multiplies by a factor. The step of the negative
multiplies by the mirrored factor, and the factor has a norm that is not zero unless the second
point lies on the axis. -/
structure Move (step : Fq12 → Step → Fq12 × Step) (s t : Step) (l l' : Fq12) : Prop where
  run : ∀ f, step f s = (f * l, t)
  mirrored : ∀ f, step f s.mirror = (f * l', t.mirror)
  mirrors : Mirrors l l'
  norm_ne_zero : s.qy ≠ 0 → l.norm ≠ 0
  kept : t.qy = s.qy

theorem mirrors_one : Mirrors 1 1 := .inl conj_one.symm

theorem norm_one : (1 : Fq12).norm ≠ 0 := by decide +kernel

theorem mulSlope_eq (f : Fq12) (s : Step) (x y slope : Fq) :
    mulSlope f s x y slope = f * line (slope * x - y) (-(s.qx.scale slope)) s.qy :=
  mulLine_eq _ _ _ _

/-- The line along the negative is mirrored. -/
theorem mulSlope_mirror (f : Fq12) (s : Step) (x y slope : Fq) :
    mulSlope f s.mirror x (-y) (-slope)
      = f * (minusOne * (line (slope * x - y) (-(s.qx.scale slope)) s.qy).conj) := by
  have hc : -slope * x - -y = -(slope * x - y) := by ring
  have hs : -(s.qx.scale (-slope)) = - -(s.qx.scale slope) := by
    apply Fq2.ext
    · show -(-slope * s.qx.c0) = - -(slope * s.qx.c0)
      ring
    · show -(-slope * s.qx.c1) = - -(slope * s.qx.c1)
      ring
  rw [mulSlope_eq, hc, ← line_neg, ← hs]
  rfl

/-- The step along the line of a slope through `(x, y)`, which meets the curve also above `x2`. -/
def along (f : Fq12) (s : Step) (x y x2 slope : Fq) : Fq12 × Step :=
  let x' := slope * slope - x - x2
  (mulSlope f s x y slope, { s with reached := some (x', slope * (x - x') - y) })

/-- A step along a line is a move. -/
theorem exists_move_along {step : Fq12 → Step → Fq12 × Step} {s : Step} (x y x2 slope : Fq)
    (h : ∀ f, step f s = along f s x y x2 slope)
    (h' : ∀ f, step f s.mirror = along f s.mirror x (-y) x2 (-slope)) :
    ∃ t l l', Move step s t l l' := by
  refine ⟨(along 1 s x y x2 slope).2, line (slope * x - y) (-(s.qx.scale slope)) s.qy,
    minusOne * (line (slope * x - y) (-(s.qx.scale slope)) s.qy).conj, fun f ↦ ?_, fun f ↦ ?_,
    .inr rfl, norm_line_ne_zero _ _, rfl⟩
  · rw [h, along, mulSlope_eq]
    rfl
  · have hx : -slope * -slope - x - x2 = slope * slope - x - x2 := by ring
    have hy : ∀ x' : Fq, -slope * (x - x') - -y = -(slope * (x - x') - y) := fun x' ↦ by ring
    rw [h', along, mulSlope_mirror, hx, hy]
    rfl

/-- A step that leaves the value is a move. -/
theorem exists_move_rest {step : Fq12 → Step → Fq12 × Step} {s : Step} (t : Step)
    (h : ∀ f, step f s = (f, t)) (h' : ∀ f, step f s.mirror = (f, t.mirror)) (ht : t.qy = s.qy) :
    ∃ t l l', Move step s t l l' := by
  refine ⟨t, 1, 1, fun f ↦ ?_, fun f ↦ ?_, mirrors_one, fun _ ↦ norm_one, ht⟩
  · rw [h, mul_one]
  · rw [h', mul_one]

/-- Doubling is a move. -/
theorem exists_move_double (s : Step) : ∃ t l l', Move (fun f s ↦ s.double f) s t l l' := by
  cases hs : s.reached with
  | none =>
    apply exists_move_rest s (fun f ↦ ?_) (fun f ↦ ?_) rfl
    · simp only [Step.double, hs]
    · simp only [Step.double, Step.mirror, hs, Option.map_none]
  | some p =>
    obtain ⟨x, y⟩ := p
    by_cases hy : y = 0
    · apply exists_move_rest (s := s) { s with reached := none } (fun f ↦ ?_) (fun f ↦ ?_) rfl
      · simp only [Step.double, hs, if_pos hy]
      · simp only [Step.double, Step.mirror, hs, Option.map_some, neg_eq_zero, if_pos hy,
          Option.map_none]
    · have hslope : (x * x + x * x + x * x) * Residue.inv (-y + -y)
          = -((x * x + x * x + x * x) * Residue.inv (y + y)) := by
        rw [← neg_add, Fq.inv_neg, mul_neg]
      apply exists_move_along x y x ((x * x + x * x + x * x) * Residue.inv (y + y))
        (fun f ↦ ?_) (fun f ↦ ?_)
      · simp only [Step.double, hs, if_neg hy, along]
      · rw [← hslope]
        simp only [Step.double, Step.mirror, hs, Option.map_some, neg_eq_zero, if_neg hy, along]

/-- Adding the first point is a move. -/
theorem exists_move_add (s : Step) : ∃ t l l', Move (fun f s ↦ s.add f) s t l l' := by
  cases hs : s.reached with
  | none =>
    apply exists_move_rest (s := s) { s with reached := some (s.px, s.py) }
      (fun f ↦ ?_) (fun f ↦ ?_) rfl
    · simp only [Step.add, hs]
    · simp only [Step.add, Step.mirror, hs, Option.map_none, Option.map_some]
  | some p =>
    obtain ⟨x, y⟩ := p
    by_cases hx : x = s.px
    · by_cases hy : y = s.py
      · obtain ⟨t, l, l', hd⟩ := exists_move_double s
        refine ⟨t, l, l', fun f ↦ (Eq.trans ?_ (hd.run f)), fun f ↦ (Eq.trans ?_ (hd.mirrored f)),
          hd.mirrors, hd.norm_ne_zero, hd.kept⟩
        · simp only [Step.add, hs, if_pos hx, if_pos hy]
        · simp only [Step.add, Step.mirror, hs, Option.map_some, if_pos hx, neg_inj, if_pos hy]
      · apply exists_move_rest (s := s) { s with reached := none } (fun f ↦ ?_) (fun f ↦ ?_) rfl
        · simp only [Step.add, hs, if_pos hx, if_neg hy]
        · simp only [Step.add, Step.mirror, hs, Option.map_some, if_pos hx, neg_inj, if_neg hy,
            Option.map_none]
    · have hslope : (-y - -s.py) * Residue.inv (x - s.px)
          = -((y - s.py) * Residue.inv (x - s.px)) := by ring
      apply exists_move_along x y s.px ((y - s.py) * Residue.inv (x - s.px))
        (fun f ↦ ?_) (fun f ↦ ?_)
      · simp only [Step.add, hs, if_neg hx, along]
      · rw [← hslope]
        simp only [Step.add, Step.mirror, hs, Option.map_some, if_neg hx, along]

/-! ### The walk of one pair -/

/-- The steps of a pair on its own. -/
def Step.walk (s : Step) : (bits n : Nat) → Fq12 × Step
  | 0, _ => (1, s)
  | bits + 1, n =>
    let w := s.walk bits (n / 2)
    let d := w.2.double 1
    let f := w.1 * w.1 * d.1
    if n % 2 = 1 then (f * (d.2.add 1).1, (d.2.add 1).2) else (f, d.2)

/-- Squaring a mirrored value and multiplying by a mirrored factor gives a mirrored value. -/
theorem Mirrors.mul {f f' l l' : Fq12} (hf : Mirrors f f') (hl : Mirrors l l') :
    Mirrors (f * l) (f' * l') := by
  have hsign : minusOne * minusOne = 1 := by decide +kernel
  rcases hf with rfl | rfl <;> rcases hl with rfl | rfl
  · exact .inl (conj_mul _ _).symm
  · right
    rw [conj_mul, mul_left_comm]
  · right
    rw [conj_mul, mul_assoc]
  · left
    rw [conj_mul, mul_mul_mul_comm, hsign, one_mul]

/-- What holds of the walk of a pair. -/
theorem walk_spec (s : Step) (bits n : Nat) :
    ∃ t f f', s.walk bits n = (f, t) ∧ s.mirror.walk bits n = (f', t.mirror) ∧ Mirrors f f' ∧
      (s.qy ≠ 0 → f.norm ≠ 0) ∧ t.qy = s.qy := by
  induction bits generalizing n with
  | zero => exact ⟨s, 1, 1, rfl, rfl, mirrors_one, fun _ ↦ norm_one, rfl⟩
  | succ bits ih =>
    obtain ⟨t, f, f', hw, hw', hf, hn, ht⟩ := ih (n / 2)
    obtain ⟨t₁, l, l', hd⟩ := exists_move_double t
    have hf₁ := (hf.mul hf).mul hd.mirrors
    have hn₁ (h : s.qy ≠ 0) : (f * f * l).norm ≠ 0 :=
      norm_mul_ne_zero (norm_mul_ne_zero (hn h) (hn h)) (hd.norm_ne_zero (by rwa [ht]))
    by_cases hodd : n % 2 = 1
    · obtain ⟨t₂, k, k', ha⟩ := exists_move_add t₁
      refine ⟨t₂, f * f * l * k, f' * f' * l' * k', ?_, ?_, hf₁.mul ha.mirrors, fun h ↦ ?_, ?_⟩
      · simp only [Step.walk, hw, hd.run, if_pos hodd, ha.run, one_mul]
      · simp only [Step.walk, hw', hd.mirrored, if_pos hodd, ha.mirrored, one_mul]
      · exact norm_mul_ne_zero (hn₁ h) (ha.norm_ne_zero (by rwa [hd.kept, ht]))
      · rw [ha.kept, hd.kept, ht]
    · refine ⟨t₁, f * f * l, f' * f' * l', ?_, ?_, hf₁, hn₁, ?_⟩
      · simp only [Step.walk, hw, hd.run, if_neg hodd, one_mul]
      · simp only [Step.walk, hw', hd.mirrored, if_neg hodd, one_mul]
      · rw [hd.kept, ht]

/-! ### Pairs side by side -/

/-- Steps that multiply by a factor for each pair multiply the shared value by all of them. -/
theorem forEach_eq {step : Fq12 → Step → Fq12 × Step}
    (h : ∀ s, ∃ t l l', Move step s t l l') (f : Fq12) (steps : List Step) :
    forEach step f steps
      = (f * (steps.map fun s ↦ (step 1 s).1).prod, steps.map fun s ↦ (step 1 s).2) := by
  induction steps generalizing f with
  | nil => rw [forEach, List.map_nil, List.map_nil, List.prod_nil, mul_one]
  | cons s rest ih =>
    obtain ⟨t, l, l', hm⟩ := h s
    simp only [forEach, hm.run, ih, List.map_cons, List.prod_cons, one_mul, mul_assoc]

/-- The pairs of a product walk side by side. -/
theorem productOver_eq (steps : List Step) (bits n : Nat) :
    productOver steps bits n
      = ((steps.map fun s ↦ (s.walk bits n).1).prod, steps.map fun s ↦ (s.walk bits n).2) := by
  induction bits generalizing n with
  | zero =>
    simp only [productOver, Step.walk, List.map_const', List.prod_replicate, List.map_id']
    rw [one_pow]
    rfl
  | succ bits ih =>
    rw [productOver, ih]
    simp only [forEach_eq exists_move_double, forEach_eq exists_move_add, Step.walk, List.map_map,
      ← mul_def]
    split
    · simp only [List.prod_map_mul, Function.comp_def]
    · simp only [List.prod_map_mul, Function.comp_def]

/-! ### The final power -/

theorem reduce_eq (f : Fq12) :
    reduce f = ((f.conj * f.inv).frobenius * (f.conj * f.inv)) ^ finalFactor := by
  simp only [reduce, ← mul_def, pow_eq]

/-- The final power of a product is the product of the final powers. -/
theorem reduce_mul (f g : Fq12) : reduce (f * g) = reduce f * reduce g := by
  have hpart : (f * g).conj * (f * g).inv = f.conj * f.inv * (g.conj * g.inv) := by
    rw [conj_mul, inv_mul, mul_mul_mul_comm]
  rw [reduce_eq, reduce_eq, reduce_eq, hpart, frobenius_mul, mul_mul_mul_comm, mul_pow]

/-- The final power of an element is one when its first factor is. -/
theorem reduce_eq_one {f : Fq12} (h : f.conj * f.inv = 1) : reduce f = 1 := by
  have hfrob : (1 : Fq12).frobenius = 1 := by decide +kernel
  rw [reduce_eq, h, hfrob, mul_one, one_pow]

theorem reduce_one : reduce 1 = 1 := reduce_eq_one (by decide +kernel)

/-- The final powers of an element and of its mirror are inverse. -/
theorem reduce_mul_mirror {f f' : Fq12} (hf : Mirrors f f') (h : f.norm ≠ 0) :
    reduce f * reduce f' = 1 := by
  have hconj : reduce f * reduce f.conj = 1 := by
    rw [← reduce_mul]
    apply reduce_eq_one
    calc (f * f.conj).conj * (f * f.conj).inv
        = (f * f.inv).conj * (f * f.inv) := by
          rw [conj_mul, conj_mul, inv_mul, inv_conj, conj_conj, mul_comm f.inv, mul_mul_mul_comm]
      _ = 1 := by rw [mul_inv h, conj_one, mul_one]
  rcases hf with rfl | rfl
  · exact hconj
  · have hsign : reduce minusOne = 1 := reduce_eq_one (by decide +kernel)
    rw [reduce_mul, hsign, one_mul, hconj]

/-! ### The pairing -/

/-- The value for a pair before the final power. -/
def value (p : G1 × G2) : Fq12 :=
  match Step.ofPair? p with
  | none => 1
  | some s => (s.walk scalarModulus.log2 scalarModulus).1

theorem value_of_none {p : G1 × G2} (h : Step.ofPair? p = none) : value p = 1 := by
  rw [value, h]

theorem value_of_some {p : G1 × G2} {s : Step} (h : Step.ofPair? p = some s) :
    value p = (s.walk scalarModulus.log2 scalarModulus).1 := by
  rw [value, h]

theorem product_eq_reduce (pairs : List (G1 × G2)) :
    product pairs = reduce (pairs.map value).prod := by
  rw [product, productOver_eq]
  apply congrArg reduce
  show (List.map _ _).prod = _
  induction pairs with
  | nil => rfl
  | cons p pairs ih =>
    rw [List.map_cons, List.prod_cons, ← ih]
    cases h : Step.ofPair? p with
    | none => rw [List.filterMap_cons_none h, value_of_none h, one_mul]
    | some s => rw [List.filterMap_cons_some h, value_of_some h, List.map_cons, List.prod_cons]

theorem pairing_eq (p : G1) (q : G2) : pairing p q = reduce (value (p, q)) := by
  rw [pairing, product_eq_reduce, List.map_singleton, List.prod_singleton]

/-- The product of the pairings of pairs is the product of their pairings. -/
theorem product_eq_prod (pairs : List (G1 × G2)) :
    product pairs = (pairs.map fun p ↦ pairing p.1 p.2).prod := by
  rw [product_eq_reduce]
  induction pairs with
  | nil => exact reduce_one
  | cons p pairs ih =>
    rw [List.map_cons, List.prod_cons, List.map_cons, List.prod_cons, reduce_mul, ih, pairing_eq]

/-- The pairing of the identity with any point is one. -/
theorem pairing_identity (q : G2) : pairing .identity q = 1 := by
  rw [pairing_eq, value_of_none rfl, reduce_one]

/-- The product of the pairings of the identity with any points is one. -/
theorem product_of_identity {pairs : List (G1 × G2)} (h : ∀ p ∈ pairs, p.1 = .identity) :
    product pairs = 1 := by
  rw [product_eq_prod]
  apply List.prod_eq_one
  intro x hx
  obtain ⟨p, hp, rfl⟩ := List.mem_map.1 hx
  rw [h p hp, pairing_identity]

/-- The values for a point and for its negative are mirrored, and the first one has a norm that is
not zero. -/
theorem value_spec (p : G1) {q : G2} (hq : q.isMember = true) :
    Mirrors (value (p, q)) (value (p.neg, q)) ∧ (value (p, q)).norm ≠ 0 := by
  cases p with
  | identity => exact ⟨mirrors_one, norm_one⟩
  | affine px py =>
    cases q with
    | identity => exact ⟨mirrors_one, norm_one⟩
    | affine qx qy =>
      have h : Step.ofPair? (.affine px py, .affine qx qy)
          = some ⟨px, py, qx, qy, some (px, py)⟩ := rfl
      have h' : Step.ofPair? (Point.neg (.affine px py), .affine qx qy)
          = some (Step.mirror ⟨px, py, qx, qy, some (px, py)⟩) := rfl
      rw [value_of_some h, value_of_some h']
      generalize scalarModulus.log2 = bits
      generalize scalarModulus = n
      obtain ⟨t, f, f', hw, hw', hf, hn, -⟩ := walk_spec ⟨px, py, qx, qy, some (px, py)⟩ bits n
      rw [hw, hw']
      exact ⟨hf, hn (G2.y_ne_zero hq)⟩

/-- The pairing of the negative is the inverse. -/
theorem pairing_mul_neg (p : G1) {q : G2} (hq : q.isMember = true) :
    pairing p q * pairing p.neg q = 1 := by
  rw [pairing_eq, pairing_eq]
  exact reduce_mul_mirror (value_spec p hq).1 (value_spec p hq).2

/-- Factors with inverses may be taken to the other side. -/
theorem mul_inverses_eq_one_iff {M : Type} [CommMonoid M] {x y z x' y' z' : M} (hx : x * x' = 1)
    (hy : y * y' = 1) (hz : z * z' = 1) (a : M) :
    a * (x' * (y' * z')) = 1 ↔ a = x * y * z := by
  have hinv : x * y * z * (x' * (y' * z')) = 1 := by
    calc x * y * z * (x' * (y' * z')) = (x * x') * (y * y') * (z * z') := by ac_rfl
      _ = 1 := by rw [hx, hy, hz, one_mul, one_mul]
  constructor
  · intro h
    calc a = a * (x * y * z * (x' * (y' * z'))) := by rw [hinv, mul_one]
      _ = x * y * z * (a * (x' * (y' * z'))) := by ac_rfl
      _ = x * y * z := by rw [h, mul_one]
  · rintro rfl
    exact hinv

/-- The product of pairings of one pair with those of negatives is one exactly when the pairing of
that pair is the product of the others. -/
theorem product_negs_eq_one_iff (a α l c : G1) (b : G2) {β γ δ : G2} (hβ : β.isMember = true)
    (hγ : γ.isMember = true) (hδ : δ.isMember = true) :
    product [(a, b), (α.neg, β), (l.neg, γ), (c.neg, δ)] = 1
      ↔ pairing a b = pairing α β * pairing l γ * pairing c δ := by
  have h := mul_inverses_eq_one_iff (pairing_mul_neg α hβ) (pairing_mul_neg l hγ)
    (pairing_mul_neg c hδ) (pairing a b)
  rw [product_eq_prod, ← h]
  rw [List.map_cons, List.map_cons, List.map_cons, List.map_cons, List.map_nil, List.prod_cons,
    List.prod_cons, List.prod_cons, List.prod_cons, List.prod_nil, mul_one]

end Pairing

end TreeProver
