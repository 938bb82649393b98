import Mathlib.Tactic.Tauto
import TreeProver.Proof.Basic
import TreeProver.Proofs.Traversal

/-!
# The exchanged form of proofs

A coordinate is written as its least residue, which has at most 32 bytes and is read back as the
same element; no other number is read as that element. The zeros that stand for the identity are on
neither curve. So the points of a proof are read back from the exchanged form that is written for
them, and no other exchanged form of the same commitments is read as these points. What is not
written for points of the two groups is malformed: a number at or past the modulus, or numbers that
are neither the zeros of the identity nor the coordinates of a point of the group.
-/

namespace TreeProver

theorem G1.isMember_generator : G1.generator.isMember = true := by decide +kernel

theorem G2.isMember_generator : G2.generator.isMember = true := by decide +kernel

/-- The identity is in the first group. -/
theorem G1.isMember_identity : G1.isMember .identity = true := rfl

/-- The identity is in the second group. -/
theorem G2.isMember_identity : G2.isMember .identity = true := by decide +kernel

namespace Coordinate

/-- A field element is read back from its coordinate. -/
theorem toFq_ofFq (x : Fq) : (ofFq x).toFq = .ok x := by
  have hw : byteWidth x.val ≤ Word.size := by
    rw [byteWidth]
    split
    · decide
    · next h =>
      have hlt : x.val.log2 < 256 :=
        (Nat.log2_lt h).2 (Nat.lt_trans x.isLt (by decide +kernel))
      have hs : Word.size = 32 := rfl
      omega
  have hc : (ofFq x).toWord = .ok (Word.ofNat x.val) := if_pos hw
  rw [toFq, hc]
  simp only [bind, Except.bind, ofFq, Residue.ofNat?_val]

/-- A coordinate is read as a field element exactly when it is the one that is written for it. -/
theorem toFq_ok_iff {c : Coordinate} {x : Fq} : c.toFq = .ok x ↔ c = ofFq x := by
  constructor
  · intro h
    obtain ⟨word, -, h⟩ := Except.bind_eq_ok_iff.1 h
    cases hr : (Residue.ofNat? c.value : Option Fq) with
    | none => simp [hr] at h
    | some y =>
      obtain rfl : y = x := by simpa [hr] using h
      obtain ⟨n⟩ := c
      exact congrArg Coordinate.mk (Residue.ofNat?_eq_some_iff.1 hr)
  · rintro rfl
    exact toFq_ofFq x

/-- A number below the modulus is written for its own residue. -/
theorem ofFq_ofNat {c : Coordinate} (h : c.value < baseModulus) :
    ofFq (Residue.ofNat c.value) = c :=
  congrArg Coordinate.mk (Residue.val_ofNat h)

/-- A coordinate that is too wide for a word makes a proof malformed. -/
theorem toWord_error {c : Coordinate} {e : Error} (h : c.toWord = .error e) :
    ∃ why, e = .malformedProof why := by
  rw [toWord] at h
  split at h
  · contradiction
  · exact ⟨_, (Except.error.inj h).symm⟩

/-- A number that is no coordinate makes a proof malformed. -/
theorem toFq_error {c : Coordinate} {e : Error} (h : c.toFq = .error e) :
    ∃ why, e = .malformedProof why := by
  refine Except.bind_error (fun e ↦ toWord_error) (fun w e h ↦ ?_) e h
  split at h
  · contradiction
  · exact ⟨_, (Except.error.inj h).symm⟩

end Coordinate

namespace Proof

/-! ### Points of the first group -/

/-- Two numbers stand for a point of the first group: for the identity, as zeros, or for the point
whose coordinates they are, modulo the field. -/
def Stands1 (c : CoordinatePair) : Prop :=
  (c.1.value = 0 ∧ c.2.value = 0) ∨
    G1.isMember (.affine (Residue.ofNat c.1.value) (Residue.ofNat c.2.value)) = true

/-- A point of the first group is read back from its coordinates. -/
theorem point1_coordinates (name : String) {p : G1} (h : p.isMember = true) :
    point1 name (coordinates1 p) = .ok p := by
  cases p with
  | identity =>
    have hz : (⟨0⟩ : Coordinate).toFq = .ok 0 := Coordinate.toFq_ofFq 0
    simp [point1, coordinates1, hz, bind, Except.bind]
  | affine x y =>
    have hne : ¬ (x = 0 ∧ y = 0) := by
      rintro ⟨rfl, rfl⟩
      exact absurd h (by decide)
    simp only [point1, coordinates1, Coordinate.toFq_ofFq, bind, Except.bind, hne, h, ↓reduceIte]

/-- Two numbers are read as a point of the first group exactly when they are written for it. -/
theorem point1_ok_iff {name : String} {c : CoordinatePair} {p : G1} :
    point1 name c = .ok p ↔ p.isMember = true ∧ c = coordinates1 p := by
  constructor
  · intro h
    obtain ⟨x, hx, h⟩ := Except.bind_eq_ok_iff.1 h
    obtain ⟨y, hy, h⟩ := Except.bind_eq_ok_iff.1 h
    have hc : c = (.ofFq x, .ofFq y) :=
      Prod.ext (Coordinate.toFq_ok_iff.1 hx) (Coordinate.toFq_ok_iff.1 hy)
    split at h
    · next hz =>
      obtain rfl := Except.ok.inj h
      exact ⟨rfl, by rw [hc, hz.1, hz.2]; rfl⟩
    · split at h
      · next hm =>
        obtain rfl := Except.ok.inj h
        exact ⟨hm, hc⟩
      · contradiction
  · rintro ⟨h, rfl⟩
    exact point1_coordinates name h

/-- Two numbers are read as some point of the first group exactly when they are least residues that
stand for one. -/
theorem exists_point1_iff {name : String} {c : CoordinatePair} :
    (∃ p, point1 name c = .ok p) ↔
      c.1.value < baseModulus ∧ c.2.value < baseModulus ∧ Stands1 c := by
  simp only [point1_ok_iff]
  constructor
  · rintro ⟨p, hp, rfl⟩
    cases p with
    | identity => exact ⟨by decide, by decide, .inl ⟨rfl, rfl⟩⟩
    | affine x y =>
      refine ⟨x.isLt, y.isLt, .inr ?_⟩
      simpa [coordinates1, Coordinate.ofFq] using hp
  · rintro ⟨hx, hy, ⟨h0, h1⟩ | h⟩
    · obtain ⟨⟨x⟩, ⟨y⟩⟩ := c
      obtain rfl : x = 0 := h0
      obtain rfl : y = 0 := h1
      exact ⟨.identity, rfl, rfl⟩
    · exact ⟨_, h, (Prod.ext (Coordinate.ofFq_ofNat hx) (Coordinate.ofFq_ofNat hy)).symm⟩

/-- Coordinates that are not those of a point of the first group make a proof malformed. -/
theorem point1_error {name : String} {p : CoordinatePair} :
    ∀ e, point1 name p = .error e → ∃ why, e = .malformedProof why := by
  refine Except.bind_error (fun e ↦ Coordinate.toFq_error) fun x ↦
    Except.bind_error (fun e ↦ Coordinate.toFq_error) fun y e h ↦ ?_
  split at h
  · contradiction
  · split at h
    · contradiction
    · exact ⟨_, (Except.error.inj h).symm⟩

/-! ### Points of the second group -/

/-- Four numbers, the imaginary parts first, stand for a point of the second group: for the
identity, as zeros, or for the point whose coordinates they are, modulo the field. -/
def Stands2 (c : CoordinatePair × CoordinatePair) : Prop :=
  (c.1.1.value = 0 ∧ c.1.2.value = 0 ∧ c.2.1.value = 0 ∧ c.2.2.value = 0) ∨
    G2.isMember (.affine ⟨Residue.ofNat c.1.2.value, Residue.ofNat c.1.1.value⟩
      ⟨Residue.ofNat c.2.2.value, Residue.ofNat c.2.1.value⟩) = true

/-- A point of the second group is read back from its coordinates. -/
theorem point2_coordinates {p : G2} (h : p.isMember = true) :
    point2 (coordinates2 p) = .ok p := by
  cases p with
  | identity =>
    have hz : (⟨0⟩ : Coordinate).toFq = .ok 0 := Coordinate.toFq_ofFq 0
    simp [point2, coordinates2, hz, bind, Except.bind]
  | affine x y =>
    obtain ⟨x0, x1⟩ := x
    obtain ⟨y0, y1⟩ := y
    have hne : ¬ (x0 = 0 ∧ x1 = 0 ∧ y0 = 0 ∧ y1 = 0) := by
      rintro ⟨rfl, rfl, rfl, rfl⟩
      have hon : Point.isOnCurve G2.constant (.affine ⟨0, 0⟩ ⟨0, 0⟩) = false := by
        decide +kernel
      simp [G2.isMember, hon] at h
    simp only [point2, coordinates2, Coordinate.toFq_ofFq, bind, Except.bind, hne, h, ↓reduceIte]

/-- Four numbers are read as a point of the second group exactly when they are written for it. -/
theorem point2_ok_iff {c : CoordinatePair × CoordinatePair} {p : G2} :
    point2 c = .ok p ↔ p.isMember = true ∧ c = coordinates2 p := by
  constructor
  · intro h
    obtain ⟨x0, hx0, h⟩ := Except.bind_eq_ok_iff.1 h
    obtain ⟨x1, hx1, h⟩ := Except.bind_eq_ok_iff.1 h
    obtain ⟨y0, hy0, h⟩ := Except.bind_eq_ok_iff.1 h
    obtain ⟨y1, hy1, h⟩ := Except.bind_eq_ok_iff.1 h
    have hc : c = ((.ofFq x1, .ofFq x0), (.ofFq y1, .ofFq y0)) :=
      Prod.ext (Prod.ext (Coordinate.toFq_ok_iff.1 hx1) (Coordinate.toFq_ok_iff.1 hx0))
        (Prod.ext (Coordinate.toFq_ok_iff.1 hy1) (Coordinate.toFq_ok_iff.1 hy0))
    split at h
    · next hz =>
      obtain rfl := Except.ok.inj h
      exact ⟨by decide +kernel, by rw [hc, hz.1, hz.2.1, hz.2.2.1, hz.2.2.2]; rfl⟩
    · split at h
      · next hm =>
        obtain rfl := Except.ok.inj h
        exact ⟨hm, hc⟩
      · contradiction
  · rintro ⟨h, rfl⟩
    exact point2_coordinates h

/-- Four numbers are read as some point of the second group exactly when they are least residues
that stand for one. -/
theorem exists_point2_iff {c : CoordinatePair × CoordinatePair} :
    (∃ p, point2 c = .ok p) ↔
      (c.1.1.value < baseModulus ∧ c.1.2.value < baseModulus ∧ c.2.1.value < baseModulus ∧
        c.2.2.value < baseModulus) ∧ Stands2 c := by
  simp only [point2_ok_iff]
  constructor
  · rintro ⟨p, hp, rfl⟩
    cases p with
    | identity => exact ⟨⟨by decide, by decide, by decide, by decide⟩, .inl ⟨rfl, rfl, rfl, rfl⟩⟩
    | affine x y =>
      refine ⟨⟨x.c1.isLt, x.c0.isLt, y.c1.isLt, y.c0.isLt⟩, .inr ?_⟩
      simpa [coordinates2, Coordinate.ofFq] using hp
  · rintro ⟨⟨hx1, hx0, hy1, hy0⟩, ⟨h0, h1, h2, h3⟩ | h⟩
    · obtain ⟨⟨⟨x1⟩, ⟨x0⟩⟩, ⟨⟨y1⟩, ⟨y0⟩⟩⟩ := c
      obtain rfl : x1 = 0 := h0
      obtain rfl : x0 = 0 := h1
      obtain rfl : y1 = 0 := h2
      obtain rfl : y0 = 0 := h3
      exact ⟨.identity, by decide +kernel, rfl⟩
    · refine ⟨_, h, (Prod.ext ?_ ?_).symm⟩
      · exact Prod.ext (Coordinate.ofFq_ofNat hx1) (Coordinate.ofFq_ofNat hx0)
      · exact Prod.ext (Coordinate.ofFq_ofNat hy1) (Coordinate.ofFq_ofNat hy0)

/-- Coordinates that are not those of a point of the second group make a proof malformed. -/
theorem point2_error {p : CoordinatePair × CoordinatePair} :
    ∀ e, point2 p = .error e → ∃ why, e = .malformedProof why := by
  refine Except.bind_error (fun e ↦ Coordinate.toFq_error) fun x0 ↦
    Except.bind_error (fun e ↦ Coordinate.toFq_error) fun x1 ↦
    Except.bind_error (fun e ↦ Coordinate.toFq_error) fun y0 ↦
    Except.bind_error (fun e ↦ Coordinate.toFq_error) fun y1 e h ↦ ?_
  split at h
  · contradiction
  · split at h
    · contradiction
    · exact ⟨_, (Except.error.inj h).symm⟩

/-! ### Proofs -/

/-- Every coordinate of a proof is below the modulus. -/
def IsLeast (p : Proof) : Prop := ∀ c ∈ p.coordinates, c.value < baseModulus

/-- The numbers of a proof stand for points of the two groups. -/
def Stands (p : Proof) : Prop := Stands1 p.a ∧ Stands2 p.b ∧ Stands1 p.c

/-- Points of the two groups are read back from the proof that they are written to. -/
theorem toPoints_ofPoints {points : Groth16.Points} (ha : points.a.isMember = true)
    (hb : points.b.isMember = true) (hc : points.c.isMember = true) (inputHash outputHash : Word) :
    (ofPoints points inputHash outputHash).toPoints = .ok points := by
  simp only [toPoints, ofPoints, point1_coordinates _ ha, point2_coordinates hb,
    point1_coordinates _ hc, bind, Except.bind]

/-- A proof is read as points exactly when it is written for them and they lie in the groups. -/
theorem toPoints_ok_iff {p : Proof} {points : Groth16.Points} :
    p.toPoints = .ok points ↔
      (points.a.isMember = true ∧ points.b.isMember = true ∧ points.c.isMember = true) ∧
        p = ofPoints points p.inputHash p.outputHash := by
  constructor
  · intro h
    obtain ⟨a, ha, h⟩ := Except.bind_eq_ok_iff.1 h
    obtain ⟨b, hb, h⟩ := Except.bind_eq_ok_iff.1 h
    obtain ⟨c, hc, h⟩ := Except.bind_eq_ok_iff.1 h
    obtain rfl := Except.ok.inj h
    obtain ⟨hma, ha⟩ := point1_ok_iff.1 ha
    obtain ⟨hmb, hb⟩ := point2_ok_iff.1 hb
    obtain ⟨hmc, hc⟩ := point1_ok_iff.1 hc
    refine ⟨⟨hma, hmb, hmc⟩, ?_⟩
    rw [ofPoints, ← ha, ← hb, ← hc]
  · rintro ⟨⟨ha, hb, hc⟩, h⟩
    rw [h]
    exact toPoints_ofPoints ha hb hc _ _

/-- A proof is read as some points exactly when its numbers are least residues that stand for points
of the two groups. -/
theorem exists_toPoints_iff {p : Proof} :
    (∃ points, p.toPoints = .ok points) ↔ p.IsLeast ∧ p.Stands := by
  have hsplit : (∃ points, p.toPoints = .ok points) ↔ (∃ a, point1 "A" p.a = .ok a) ∧
      (∃ b, point2 p.b = .ok b) ∧ ∃ c, point1 "C" p.c = .ok c := by
    constructor
    · rintro ⟨points, h⟩
      obtain ⟨a, ha, h⟩ := Except.bind_eq_ok_iff.1 h
      obtain ⟨b, hb, h⟩ := Except.bind_eq_ok_iff.1 h
      obtain ⟨c, hc, -⟩ := Except.bind_eq_ok_iff.1 h
      exact ⟨⟨a, ha⟩, ⟨b, hb⟩, c, hc⟩
    · rintro ⟨⟨a, ha⟩, ⟨b, hb⟩, c, hc⟩
      exact ⟨⟨a, b, c⟩, by simp only [toPoints, ha, hb, hc, bind, Except.bind]⟩
  rw [hsplit, exists_point1_iff, exists_point2_iff, exists_point1_iff]
  simp only [IsLeast, coordinates, List.forall_mem_cons, List.not_mem_nil, Stands]
  tauto

/-- A proof without points is malformed. -/
theorem toPoints_error {p : Proof} :
    ∀ e, p.toPoints = .error e → ∃ why, e = .malformedProof why :=
  Except.bind_error point1_error fun _ ↦ Except.bind_error point2_error fun _ ↦
    Except.bind_error point1_error fun _ e h ↦ by contradiction

/-- What can only fail because a proof is malformed fails for that exactly when it gives nothing. -/
theorem malformed_iff {α : Type} {r : Except Error α}
    (h : ∀ e, r = .error e → ∃ why, e = .malformedProof why) :
    (∃ why, r = .error (.malformedProof why)) ↔ ¬ ∃ x, r = .ok x := by
  cases r with
  | ok x => simp
  | error e =>
    obtain ⟨why, rfl⟩ := h e rfl
    simp

/-- A proof is malformed exactly when one of its numbers is at or past the modulus or the numbers
for one of its points do not stand for a point of its group. -/
theorem toPoints_malformed_iff {p : Proof} :
    (∃ why, p.toPoints = .error (.malformedProof why)) ↔
      (∃ c ∈ p.coordinates, baseModulus ≤ c.value) ∨ ¬ Stands1 p.a ∨ ¬ Stands2 p.b
        ∨ ¬ Stands1 p.c := by
  have hleast : ¬ p.IsLeast ↔ ∃ c ∈ p.coordinates, baseModulus ≤ c.value := by
    simp only [IsLeast, not_forall, Nat.not_lt, exists_prop]
  have hstands : ¬ p.Stands ↔ ¬ Stands1 p.a ∨ ¬ Stands2 p.b ∨ ¬ Stands1 p.c := by
    simp only [Stands, not_and_or]
  rw [← hleast, ← hstands, ← not_and_or, ← exists_toPoints_iff]
  exact malformed_iff toPoints_error

/-- The exchanged form is canonical. Points of the two groups, whichever of them are the identity,
are read back from the proof that is written for them with any commitments; a proof that is read as
points is the one that is written for them with its own commitments. So what is read as points is
exactly what is written for points of the two groups, and no two proofs with the same commitments
are read as the same points. Every other proof is malformed: when a number is at or past the
modulus, or when numbers are neither the zeros of the identity nor the coordinates of a point of
their group. -/
theorem exchanged_form_canonical :
    (∀ (points : Groth16.Points) (inputHash outputHash : Word), points.a.isMember = true →
      points.b.isMember = true → points.c.isMember = true →
        (ofPoints points inputHash outputHash).toPoints = .ok points) ∧
    (∀ (p : Proof) (points : Groth16.Points), p.toPoints = .ok points →
      ofPoints points p.inputHash p.outputHash = p) ∧
    (∀ p : Proof, (∃ points, p.toPoints = .ok points) ↔
      ∃ (points : Groth16.Points) (inputHash outputHash : Word), points.a.isMember = true ∧
        points.b.isMember = true ∧ points.c.isMember = true ∧
          p = ofPoints points inputHash outputHash) ∧
    (∀ (p q : Proof) (points : Groth16.Points), p.inputHash = q.inputHash →
      p.outputHash = q.outputHash → p.toPoints = .ok points → q.toPoints = .ok points → p = q) ∧
    ∀ p : Proof, (∃ why, p.toPoints = .error (.malformedProof why)) ↔
      (∃ c ∈ p.coordinates, baseModulus ≤ c.value) ∨ ¬ Stands1 p.a ∨ ¬ Stands2 p.b
        ∨ ¬ Stands1 p.c := by
  refine ⟨fun points h₁ h₂ ha hb hc ↦ toPoints_ofPoints ha hb hc h₁ h₂, fun p points h ↦
    (toPoints_ok_iff.1 h).2.symm, fun p ↦ ⟨?_, ?_⟩, fun p q points hi ho hp hq ↦ ?_, fun p ↦
    toPoints_malformed_iff⟩
  · rintro ⟨points, h⟩
    obtain ⟨⟨ha, hb, hc⟩, hp⟩ := toPoints_ok_iff.1 h
    exact ⟨points, p.inputHash, p.outputHash, ha, hb, hc, hp⟩
  · rintro ⟨points, h₁, h₂, ha, hb, hc, rfl⟩
    exact ⟨points, toPoints_ofPoints ha hb hc h₁ h₂⟩
  · rw [(toPoints_ok_iff.1 hp).2, (toPoints_ok_iff.1 hq).2, hi, ho]

/-- The generators and the identity are read back from the proof that is written for them, which is
the only one with its commitments that is read as these points. -/
theorem exchanged_form_canonical_generators :
    (G1.generator.isMember = true ∧ G2.generator.isMember = true ∧
      G1.isMember .identity = true) ∧
    (ofPoints ⟨G1.generator, G2.generator, .identity⟩ default default).toPoints
      = .ok ⟨G1.generator, G2.generator, .identity⟩ ∧
    ∀ p : Proof, p.inputHash = default → p.outputHash = default →
      p.toPoints = .ok ⟨G1.generator, G2.generator, .identity⟩ →
        p = ofPoints ⟨G1.generator, G2.generator, .identity⟩ default default := by
  have ha := G1.isMember_generator
  have hb := G2.isMember_generator
  have hc := G1.isMember_identity
  obtain ⟨hread, -, -, hunique, -⟩ := exchanged_form_canonical
  have hp := hread ⟨G1.generator, G2.generator, .identity⟩ default default ha hb hc
  exact ⟨⟨ha, hb, hc⟩, hp, fun p hi ho h ↦ hunique p _ _ hi ho h hp⟩

end Proof

end TreeProver
