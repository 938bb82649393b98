import TreeProver.Groth16.Backend
import TreeProver.Proofs.Groth16.Prove
import TreeProver.Proofs.Lowering.Rows
import TreeProver.Proofs.Pairing

/-!
# Complete proof systems

A proof system is complete when it finds a proof for every assignment that satisfies the system of a
key, and the key accepts it for the public part of the assignment.

Groth16 keeps this contract in every pair of subgroups that its generators span. In the trivial ones
it can be seen without the laws of the pairing: all points are the identity, whose pairings are one.
-/

namespace TreeProver

open CoordinateField
open scoped Fin.CommRing

/-- For a key of a well-formed system, every satisfying assignment has a proof under any blinding.
Its points lie in the groups, and the key accepts them for the public columns behind the one.

The only proof system that this is shown for here is Groth16 over the trivial subgroups; over those
of the curve it rests on the bilinearity of the pairing. -/
def Backend.IsComplete [Backend] : Prop :=
  ∀ {r : R1cs} {random : Stream} {k : ProvingKey} {z : Array Fr} (x y : Fr), r.WellFormed →
    (Backend.setup r random).1 = .ok k → z.size = r.instances + r.witnesses → z[0]? = some 1 →
    r.isSatisfiedBy z = true →
    ∃ points, Backend.prove k r x y z = .ok points ∧
      (points.a.isMember = true ∧ points.b.isMember = true ∧ points.c.isMember = true) ∧
      Backend.verify k.verifying ((z.toList.take r.instances).drop 1) points = .ok true

/-! ### Sums of identities -/

namespace Projective

variable {F : Type} [CoordinateField F] [DecidableEq F]

/-- Adding to the identity gives the other point. -/
theorem add_of_z_eq_zero {p : Projective F} (h : p.z = zero) (q : Projective F) : p.add q = q :=
  if_pos h

/-- Multiples of the identity are the identity, where products with zero are zero. -/
theorem mul_identity_z (hz : ∀ y : F, y * zero + y * zero = zero) (n : Nat) :
    (mul n (identity : Projective F)).z = zero := by
  have hover : ∀ bits n, (mulOver (identity : Projective F) bits n).z = zero := by
    intro bits
    induction bits with
    | zero => exact fun _ ↦ rfl
    | succ bits ih =>
      intro n
      have hd : (mulOver (identity : Projective F) bits (n / 2)).double.z = zero := by
        simp only [double, ih]
        exact hz _
      simp only [mulOver]
      split
      · rw [add_of_z_eq_zero hd]
        rfl
      · exact hd
  rw [mul]
  split
  · rfl
  · exact hover _ _

end Projective

namespace Point

variable {F : Type} [CoordinateField F] [DecidableEq F]

/-- A multiple of the identity is the identity. -/
theorem mul_identity (hz : ∀ y : F, y * zero + y * zero = zero) (n : Nat) :
    mul n (identity : Point F) = identity := if_pos (Projective.mul_identity_z hz n)

/-- A sum of multiples of identities is the identity. -/
theorem linearSum_eq_identity (hz : ∀ y : F, y * zero + y * zero = zero)
    {ts : List (Nat × Point F)} (h : ∀ t ∈ ts, t.2 = identity) :
    (linearSum ts).toPoint = identity := by
  have hsum : ∀ acc : Projective F, acc.z = zero →
      (ts.foldl (fun acc t ↦ acc.add ((Projective.ofPoint t.2).mul t.1)) acc).z = zero := by
    induction ts with
    | nil => exact fun _ ha ↦ ha
    | cons t ts ih =>
      intro acc ha
      refine ih (fun t' ht' ↦ h t' (by simp [ht'])) _ ?_
      simp only [Projective.add_of_z_eq_zero ha, h t (by simp)]
      exact Projective.mul_identity_z hz t.1
  exact if_pos (hsum _ rfl)

end Point

/-- In the coordinate field products with zero are zero. -/
theorem Fq.mul_zero_add (y : Fq) : y * zero + y * zero = (zero : Fq) := by
  show y * 0 + y * 0 = (0 : Fq)
  rw [mul_zero, add_zero]

/-- In the quadratic extension products with zero are zero. -/
theorem Fq2.mul_zero_add (y : Fq2) : y * zero + y * zero = (zero : Fq2) := by
  show y * 0 + y * 0 = (0 : Fq2)
  rw [mul_zero, add_zero]

/-- A list of points all of which are the identity. -/
def AllIdentity {F : Type} (ps : List (Point F)) : Prop := ∀ p ∈ ps, p = .identity

namespace Groth16

/-- Multipliers of identities are multipliers of the identity. -/
theorem terms_eq_identity {F : Type} {xs : List Fr} {ps : List (Point F)} (h : AllIdentity ps) :
    ∀ t ∈ terms xs ps, t.2 = .identity := by
  intro t ht
  rw [terms, List.mem_iff_getElem] at ht
  obtain ⟨i, hi, rfl⟩ := ht
  rw [List.getElem_zipWith]
  exact h _ (List.getElem_mem _)

/-- All points of a verifying key are the identity. -/
structure IdleVerifying (k : VerifyingKey) : Prop where
  alpha : k.alpha = .identity
  beta : k.beta = .identity
  gamma : k.gamma = .identity
  delta : k.delta = .identity
  inputs : AllIdentity k.inputs

/-- All points of a proving key are the identity. -/
structure Idle (k : ProvingKey) : Prop where
  verifying : IdleVerifying k.verifying
  beta : k.beta = .identity
  delta : k.delta = .identity
  aColumns : AllIdentity k.aColumns
  bColumns : AllIdentity k.bColumns
  bColumns2 : AllIdentity k.bColumns2
  quotient : AllIdentity k.quotient
  witnesses : AllIdentity k.witnesses

/-- The points of a proof from a key of identities. -/
def idlePoints : Points := ⟨.identity, .identity, .identity⟩

/-- From a key of identities only identities are combined. -/
theorem Idle.combine_eq {k : ProvingKey} (h : Idle k) (hp : HasPoints k) (x y : Fr)
    (q inputs witnesses : List Fr) : combine k x y q inputs witnesses = .ok idlePoints := by
  obtain ⟨a, as, ha⟩ := List.exists_cons_of_ne_nil hp.a
  obtain ⟨b, bs, hb⟩ := List.exists_cons_of_ne_nil hp.b
  obtain ⟨b2, b2s, hb2⟩ := List.exists_cons_of_ne_nil hp.b2
  obtain ⟨rfl, has⟩ := List.forall_mem_cons.1 (ha ▸ h.aColumns)
  obtain ⟨rfl, hbs⟩ := List.forall_mem_cons.1 (hb ▸ h.bColumns)
  obtain ⟨rfl, hb2s⟩ := List.forall_mem_cons.1 (hb2 ▸ h.bColumns2)
  have h1 {l : List (Nat × G1)} (ht : ∀ t ∈ l, t.2 = .identity) :
      G1.linearSum l = .identity := Point.linearSum_eq_identity Fq.mul_zero_add ht
  have h2 {l : List (Nat × G2)} (ht : ∀ t ∈ l, t.2 = .identity) :
      G2.linearSum l = .identity := Point.linearSum_eq_identity Fq2.mul_zero_add ht
  have hA := h1 (l := (x.val, k.delta) :: (1, .identity) :: (1, k.verifying.alpha)
      :: terms (inputs ++ witnesses) as) (by
    simpa [h.delta, h.verifying.alpha] using terms_eq_identity has)
  have hB1 := h1 (l := (y.val, k.delta) :: (1, .identity) :: (1, k.beta)
      :: terms (inputs ++ witnesses) bs) (by
    simpa [h.delta, h.beta] using terms_eq_identity hbs)
  have hB := h2 (l := (y.val, k.verifying.delta) :: (1, .identity) :: (1, k.verifying.beta)
      :: terms (inputs ++ witnesses) b2s) (by
    simpa [h.verifying.delta, h.verifying.beta] using terms_eq_identity hb2s)
  have hC := h1 (l := (y.val, .identity) :: (x.val, .identity) :: ((-(x * y)).val, k.delta)
      :: (terms witnesses k.witnesses ++ terms q k.quotient)) (by
    simp only [List.forall_mem_cons, List.forall_mem_append, h.delta, true_and]
    exact ⟨terms_eq_identity h.witnesses, terms_eq_identity h.quotient⟩)
  have hsecond : secondInFirst k x y (inputs ++ witnesses) = .ok .identity := by
    rw [secondInFirst, hb]
    simp only [hB1, ite_self]
  simp only [combine, ha, hb2, hsecond, hA, hB, hC, bind, Except.bind]
  rfl

/-- A key of identities accepts identities for as many public inputs as it has points. -/
theorem IdleVerifying.verify_eq {k : VerifyingKey} (h : IdleVerifying k) {inputs : List Fr}
    (hl : k.inputs.length = inputs.length + 1) : verify k inputs idlePoints = .ok true := by
  obtain ⟨first, rest, hk⟩ := List.exists_cons_of_length_eq_add_one hl
  rw [hk] at hl
  obtain ⟨rfl, hrest⟩ := List.forall_mem_cons.1 (hk ▸ h.inputs)
  have hi : inputPoint .identity rest inputs = .identity := by
    rw [inputPoint, G1.linearSum, Point.linearSum_eq_identity Fq.mul_zero_add]
    exact List.forall_mem_cons.2 ⟨rfl, terms_eq_identity hrest⟩
  have hp : Pairing.product [(idlePoints.a, idlePoints.b), (k.alpha.neg, k.beta),
      ((inputPoint .identity rest inputs).neg, k.gamma), (idlePoints.c.neg, k.delta)]
        = Fq12.one := by
    rw [hi, h.alpha]
    apply Pairing.product_of_identity
    simp [idlePoints, Point.neg]
  have hle : ¬ rest.length ≠ inputs.length := by simpa using hl
  simp only [verify, hk, if_neg hle, hp, decide_true]

/-! ### Keys over the identity -/

/-- Adding a row to sums keeps their number. -/
theorem size_addRow (sums : Array Fr) (scale : Fr) (row : Row) :
    (addRow sums scale row).size = sums.size := by
  rw [addRow]
  induction row generalizing sums with
  | nil => rfl
  | cons e row ih => rw [List.foldl_cons, ih, Array.size_modify]

/-- There is a value for every column. -/
theorem size_columnValues (columns : Nat) (lagrange : List Fr) (rows : List Row) :
    (columnValues columns lagrange rows).size = columns := by
  have h (ps : List (Fr × Row)) (sums : Array Fr) :
      (ps.foldl (fun sums r ↦ addRow sums r.1 r.2) sums).size = sums.size := by
    induction ps generalizing sums with
    | nil => rfl
    | cons p ps ih => rw [List.foldl_cons, ih, size_addRow]
  rw [columnValues, h, Array.size_replicate]

/-- There is a value for every column of the first matrix. -/
theorem size_firstColumnValues (r : R1cs) (lagrange : List Fr) :
    (firstColumnValues r lagrange).size = r.instances + r.witnesses := by
  have h (es : List (Fr × Nat)) (sums : Array Fr) :
      (es.foldl (fun sums e ↦ sums.modify e.2 (· + e.1)) sums).size = sums.size := by
    induction es generalizing sums with
    | nil => rfl
    | cons e es ih => rw [List.foldl_cons, ih, Array.size_modify]
  rw [firstColumnValues, h, size_columnValues]

/-- A key has points for all columns of its system, and for every public one a point to verify
with. -/
theorem keyOf_length {r : R1cs} {d : Domain} {s : Secrets} {k : ProvingKey}
    (h : keyOf r d s = .ok k) (hr : 0 < r.instances) :
    HasPoints k ∧ k.verifying.inputs.length = r.instances := by
  rw [keyOf] at h
  split at h
  · contradiction
  · obtain rfl := Except.ok.inj h
    refine ⟨⟨?_, ?_, ?_⟩, ?_⟩
    · exact List.ne_nil_of_length_pos (by simp [size_firstColumnValues, hr])
    · exact List.ne_nil_of_length_pos (by simp [size_columnValues, hr])
    · exact List.ne_nil_of_length_pos (by simp [size_columnValues, hr])
    · simp [size_firstColumnValues, size_columnValues]

/-- A key whose generators are the identity consists of identities. -/
theorem keyOf_idle {r : R1cs} {d : Domain} {s : Secrets} {k : ProvingKey}
    (h : keyOf r d s = .ok k) (hg1 : s.g1 = .identity) (hg2 : s.g2 = .identity) : Idle k := by
  have h1 (n : Nat) : G1.mul n s.g1 = .identity := by
    rw [hg1, G1.mul, Point.mul_identity Fq.mul_zero_add]
  have h2 (n : Nat) : G2.mul n s.g2 = .identity := by
    rw [hg2, G2.mul, Point.mul_identity Fq2.mul_zero_add]
  have hm {α F : Type} {f : α → Point F} (hf : ∀ x, f x = .identity) (xs : List α) :
      AllIdentity (xs.map f) := List.forall_mem_map.2 fun x _ ↦ hf x
  rw [keyOf] at h
  split at h
  · contradiction
  · obtain rfl := Except.ok.inj h
    exact ⟨⟨h1 _, h2 _, h2 _, h2 _, hm (fun _ ↦ h1 _) _⟩, h1 _, h1 _, hm (fun _ ↦ h1 _) _,
      hm (fun _ ↦ h1 _) _, hm (fun _ ↦ h2 _) _, hm (fun _ ↦ h1 _) _, hm (fun _ ↦ h1 _) _⟩

/-- Draws a proving key over the trivial subgroups: scalars are drawn as always, the generators are
the identity. -/
def trivialSetup (r : R1cs) : Draw (Except SynthesisError ProvingKey) := do
  match Domain.ofSize? (r.constraints + r.instances) with
  | none => pure (.error .polynomialDegreeTooLarge)
  | some domain =>
    let secrets ← Secrets.draw domain
    pure (keyOf r domain { secrets with g1 := .identity, g2 := .identity })

/-- Groth16 over the trivial subgroups. Everything verifies, so this is no proof system to use, but
it keeps the contract. -/
@[reducible] def trivialBackend : Backend := ⟨trivialSetup, prove, verify⟩

/-- A satisfied system of as many rows as its count says is in range. -/
theorem inRange_of_isSatisfiedBy {r : R1cs} {z : Array Fr} (hw : r.WellFormed)
    (h : r.isSatisfiedBy z = true) : InRange r z := by
  rw [R1cs.isSatisfiedBy, List.all_eq_true] at h
  have hrow {i : Nat} (hi : i < r.constraints) (ha : i < r.a.length) (hb : i < r.b.length)
      (hc : i < r.c.length) : (∃ x, r.a[i].eval? z = some x) ∧ (∃ x, r.b[i].eval? z = some x) ∧
        ∃ x, r.c[i].eval? z = some x := by
    have hm := h (r.a[i], r.b[i], r.c[i]) (List.mem_iff_getElem.2
      ⟨i, by simp [hw.a, hw.b, hw.c, hi], by simp⟩)
    rw [R1cs.rowHolds] at hm
    split at hm
    · next x y p hx hy hp => exact ⟨⟨x, hx⟩, ⟨y, hy⟩, ⟨p, hp⟩⟩
    · contradiction
  intro row hr
  rw [List.mem_append, List.mem_append] at hr
  rcases hr with (hr | hr) | hr
  all_goals
    obtain ⟨i, hi, rfl⟩ := List.mem_iff_getElem.1 hr
    have hlt : i < r.constraints := by simpa [hw.a, hw.b, hw.c] using hi
    obtain ⟨ha, hb, hc⟩ := hrow hlt (hw.a ▸ hlt) (hw.b ▸ hlt) (hw.c ▸ hlt)
  · exact ha
  · exact hb
  · exact hc

/-- One draw after another. In brackets, so that no rewriting with it makes the kernel carry out a
draw. -/
theorem draw_bind {α β : Type} (x : Draw α) (f : α → Draw β) (s : Stream) :
    (x >>= f) s = f (x s).1 (x s).2 := (rfl)

/-- What is there without a draw. -/
theorem draw_pure {α : Type} (a : α) (s : Stream) : (pure a : Draw α) s = (a, s) := (rfl)

/-- With room in a domain the key is the one for the drawn secrets. -/
theorem setup_eq {r : R1cs} {d : Domain}
    (hd : Domain.ofSize? (r.constraints + r.instances) = some d)
    (random : Stream) : (setup r random).1 = keyOf r d (Secrets.draw d random).1 := by
  simp only [setup, hd, draw_bind, draw_pure]

/-- With room in a domain the key over the trivial subgroups is the one for the drawn scalars. -/
theorem trivialSetup_eq {r : R1cs} {d : Domain}
    (hd : Domain.ofSize? (r.constraints + r.instances) = some d) (random : Stream) :
    (trivialSetup r random).1
      = keyOf r d { (Secrets.draw d random).1 with g1 := .identity, g2 := .identity } := by
  simp only [trivialSetup, hd, draw_bind, draw_pure]

/-- A key is one for a domain with room for the system, from drawn secrets. -/
theorem setup_ok {r : R1cs} {random : Stream} {k : ProvingKey} (h : (setup r random).1 = .ok k) :
    ∃ d s, Domain.ofSize? (r.constraints + r.instances) = some d ∧ keyOf r d s = .ok k := by
  cases hd : Domain.ofSize? (r.constraints + r.instances) with
  | none => simp [setup, hd, draw_pure] at h
  | some d => exact ⟨d, _, rfl, setup_eq hd random ▸ h⟩

/-- A key over the trivial subgroups is one for a domain with room for the system, from secrets
whose generators are the identity. -/
theorem trivialSetup_ok {r : R1cs} {random : Stream} {k : ProvingKey}
    (h : (trivialSetup r random).1 = .ok k) :
    ∃ d s, Domain.ofSize? (r.constraints + r.instances) = some d ∧ s.g1 = .identity ∧
      s.g2 = .identity ∧ keyOf r d s = .ok k := by
  cases hd : Domain.ofSize? (r.constraints + r.instances) with
  | none => simp [trivialSetup, hd, draw_pure] at h
  | some d => exact ⟨d, _, rfl, rfl, rfl, trivialSetup_eq hd random ▸ h⟩

/-- The third and the fourth scalar of the stream of seed zero are not zero, so they are drawn for a
key. -/
theorem draw_seed_zero (d : Domain) : (Secrets.draw d (Stream.ofSeed 0)).1.gamma ≠ 0 ∧
    (Secrets.draw d (Stream.ofSeed 0)).1.delta ≠ 0 := by
  simp only [Secrets.draw, draw_bind, draw_pure]
  decide +kernel

/-- There is a key for secrets that can be divided by, with a point for every public column. -/
theorem exists_keyOf {r : R1cs} {s : Secrets} (d : Domain) (hgamma : s.gamma ≠ 0)
    (hdelta : s.delta ≠ 0) (hr : 0 < r.instances) :
    ∃ k, keyOf r d s = .ok k ∧ k.verifying.inputs.length = r.instances := by
  have hkey : ∃ k, keyOf r d s = .ok k := by
    simp only [keyOf, hgamma, hdelta, or_self, ↓reduceIte]
    exact ⟨_, rfl⟩
  obtain ⟨k, hk⟩ := hkey
  exact ⟨k, hk, (keyOf_length hk hr).2⟩

/-- From the stream of seed zero a key is drawn for every system with a public column and with room
in the largest domain, and it has a point for every public column. -/
def DrawsFromSeedZero (draw : R1cs → Draw (Except SynthesisError ProvingKey)) : Prop :=
  ∀ r : R1cs, r.constraints + r.instances ≤ 2 ^ Domain.maxLevels → 0 < r.instances →
    ∃ k, (draw r (Stream.ofSeed 0)).1 = .ok k ∧ k.verifying.inputs.length = r.instances

/-- Keys for what is made of the drawn secrets are drawn from the stream of seed zero, if the two
scalars that are divided by stay as they are. -/
theorem drawsFromSeedZero_of {draw : R1cs → Draw (Except SynthesisError ProvingKey)}
    {f : Secrets → Secrets} (hf : ∀ s, (f s).gamma = s.gamma ∧ (f s).delta = s.delta)
    (hdraw : ∀ {r : R1cs} {d : Domain}, Domain.ofSize? (r.constraints + r.instances) = some d →
      ∀ random, (draw r random).1 = keyOf r d (f (Secrets.draw d random).1)) :
    DrawsFromSeedZero draw := by
  intro r h hr
  obtain ⟨d, hd⟩ := Domain.exists_ofSize h
  obtain ⟨hgamma, hdelta⟩ := draw_seed_zero d
  rw [hdraw hd]
  generalize (Secrets.draw d (Stream.ofSeed 0)).1 = s at hgamma hdelta
  rw [← (hf s).1] at hgamma
  rw [← (hf s).2] at hdelta
  exact exists_keyOf d hgamma hdelta hr

/-- Keys are drawn from the stream of seed zero. -/
theorem setup_drawsFromSeedZero : DrawsFromSeedZero setup :=
  drawsFromSeedZero_of (f := fun s ↦ s) (fun _ ↦ ⟨rfl, rfl⟩) setup_eq

/-- Keys over the trivial subgroups are drawn from the stream of seed zero. -/
theorem trivialSetup_drawsFromSeedZero : DrawsFromSeedZero trivialSetup :=
  drawsFromSeedZero_of (f := fun s ↦ { s with g1 := .identity, g2 := .identity })
    (fun _ ↦ ⟨rfl, rfl⟩) trivialSetup_eq

/-- From a key of identities an assignment that satisfies the system has a proof of identities. -/
theorem Idle.prove_eq {k : ProvingKey} (h : Idle k) (hp : HasPoints k) {r : R1cs} {z : Array Fr}
    (x y : Fr) {d : Domain} (hd : Domain.ofSize? (r.constraints + r.instances) = some d)
    (hw : r.WellFormed) (hz : r.instances ≤ z.size) (hs : r.isSatisfiedBy z = true) :
    prove k r x y z = .ok idlePoints := by
  obtain ⟨q, hq⟩ := prove_eq_combine (k := k) x y hd (inRange_of_isSatisfiedBy hw hs)
    (Nat.le_of_eq hw.c.symm) hz
  rw [hq, h.combine_eq hp]
  rfl

/-- The points of a proof of identities lie in the groups. -/
theorem isMember_idlePoints : idlePoints.a.isMember = true ∧ idlePoints.b.isMember = true ∧
    idlePoints.c.isMember = true := by
  decide +kernel

/-- Groth16 over the trivial subgroups is complete. -/
theorem trivialBackend_isComplete : @Backend.IsComplete trivialBackend := by
  intro r random k z x y hw hk hz hone hs
  obtain ⟨d, s, hd, hg1, hg2, hkey⟩ := trivialSetup_ok hk
  obtain ⟨hp, hl⟩ := keyOf_length hkey hw.instances
  have hidle := keyOf_idle hkey hg1 hg2
  have hq := hidle.prove_eq hp x y hd hw (by omega) hs
  have hin : k.verifying.inputs.length = ((z.toList.take r.instances).drop 1).length + 1 := by
    have hlt := hw.instances
    simp [hl, hz]
    omega
  exact ⟨idlePoints, hq, isMember_idlePoints, hidle.verifying.verify_eq hin⟩

end Groth16

end TreeProver
