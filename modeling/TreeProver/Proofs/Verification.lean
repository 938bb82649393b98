import Mathlib.Data.List.Basic
import TreeProver.Proofs.Binary.Truncation
import TreeProver.Proofs.Exchange
import TreeProver.Proofs.Pairing
import TreeProver.Verification

/-!
# What a key decides about proofs

A proof is refused for its public inputs exactly when one of its commitments has more than 253 bits,
whatever the key. Then it is refused as malformed exactly when its numbers are not the coordinates
of points of the two groups. Then the key is refused unless it has three points for the public
inputs. What remains is decided by the equation of the proof system, in which the commitments count
as the numbers that they spell.
-/

namespace TreeProver

/-! ### Commitments as public inputs -/

/-- A word of more bits than a commitment has is no public input. -/
theorem checkCommitment_error (name : String) {w : Word}
    (h : ¬ w.toNat < 2 ^ commitmentBits) :
    ∃ why, checkCommitment name w = .error (.invalidPublicInput why) := by
  rw [← Word.truncate_eq_self_iff] at h
  exact ⟨_, if_neg h⟩

/-- A word of as many bits as a commitment has is its own scalar. -/
theorem Word.val_toScalar {w : Word} (h : w.toNat < 2 ^ commitmentBits) :
    w.toScalar.val = w.toNat :=
  Residue.val_ofNat (Nat.lt_trans h capacity_lt_scalarModulus)

/-- Both commitments of a proof have at most 253 bits. -/
def Proof.InRange (p : Proof) : Prop :=
  p.inputHash.toNat < 2 ^ commitmentBits ∧ p.outputHash.toNat < 2 ^ commitmentBits

namespace VerifyingKey

/-! ### The order of the decisions -/

/-- A proof with a commitment out of range is refused for it. -/
theorem verify_of_not_inRange [Backend] (k : VerifyingKey) {p : Proof} (h : ¬ p.InRange) :
    ∃ why, k.verify p = .error (.invalidPublicInput why) := by
  by_cases hi : p.inputHash.toNat < 2 ^ commitmentBits
  · have ho : ¬ p.outputHash.toNat < 2 ^ commitmentBits := fun ho ↦ h ⟨hi, ho⟩
    obtain ⟨why, hw⟩ := checkCommitment_error "output hash" ho
    have hp := (checkCommitment_ok_iff "input hash" p.inputHash).2 hi
    exact ⟨why, by simp only [verify, hp, hw, bind, Except.bind]⟩
  · obtain ⟨why, hw⟩ := checkCommitment_error "input hash" hi
    exact ⟨why, by simp only [verify, hw, bind, Except.bind]⟩

/-- With both commitments in range, a proof without points is refused for what they lack. -/
theorem verify_of_no_points [Backend] (k : VerifyingKey) {p : Proof} {e : Error} (h : p.InRange)
    (hp : p.toPoints = .error e) : k.verify p = .error e := by
  have hi := (checkCommitment_ok_iff "input hash" p.inputHash).2 h.1
  have ho := (checkCommitment_ok_iff "output hash" p.outputHash).2 h.2
  simp only [verify, hi, ho, hp, bind, Except.bind]

/-- With both commitments in range, the points of a proof are decided about. -/
theorem verify_of_points [Backend] (k : VerifyingKey) {p : Proof} {points : Groth16.Points}
    (h : p.InRange) (hp : p.toPoints = .ok points) :
    k.verify p = (Backend.verify k [p.inputHash.toScalar, p.outputHash.toScalar]
      points).mapError .verification := by
  have hi := (checkCommitment_ok_iff "input hash" p.inputHash).2 h.1
  have ho := (checkCommitment_ok_iff "output hash" p.outputHash).2 h.2
  simp only [verify, hi, ho, hp, bind, Except.bind]
  cases Backend.verify k [p.inputHash.toScalar, p.outputHash.toScalar] points with
  | error e => rfl
  | ok accepted => rfl

/-- A key refuses a proof for its public inputs exactly when they are not both of at most 253
bits. -/
theorem verify_invalidPublicInput_iff [Backend] (k : VerifyingKey) (p : Proof) :
    (∃ why, k.verify p = .error (.invalidPublicInput why)) ↔
      ¬ (p.inputHash.toNat < 2 ^ commitmentBits ∧ p.outputHash.toNat < 2 ^ commitmentBits) := by
  constructor
  · rintro ⟨why, hv⟩ h
    -- What follows the checks complains differently.
    cases hp : p.toPoints with
    | error e =>
      obtain ⟨why', rfl⟩ := Proof.toPoints_error e hp
      simp [verify_of_no_points k h hp] at hv
    | ok points =>
      rw [verify_of_points k h hp] at hv
      cases hb : Backend.verify k [p.inputHash.toScalar, p.outputHash.toScalar] points with
      | error e => simp [hb, Except.mapError] at hv
      | ok accepted => simp [hb, Except.mapError] at hv
  · intro h
    exact verify_of_not_inRange k h

/-! ### The equation -/

/-- The points of a key are points of their groups. -/
structure HasMembers (k : VerifyingKey) : Prop where
  alpha : k.alpha.isMember = true
  beta : k.beta.isMember = true
  gamma : k.gamma.isMember = true
  delta : k.delta.isMember = true
  inputs : ∀ p ∈ k.inputs, G1.isMember p = true

/-- The equation that decides about points, with two numbers as the public inputs:
`e(A, B) = e(alpha, beta) * e(first + input * second + output * third, gamma) * e(C, delta)`. -/
def Balances (k : VerifyingKey) (first second third : G1) (points : Groth16.Points)
    (input output : Nat) : Prop :=
  Pairing.pairing points.a points.b =
    ((Pairing.pairing k.alpha k.beta).mul
      (Pairing.pairing (G1.linearSum [(1, first), (input, second), (output, third)]) k.gamma)).mul
      (Pairing.pairing points.c k.delta)

instance (k : VerifyingKey) (first second third : G1) (points : Groth16.Points)
    (input output : Nat) : Decidable (k.Balances first second third points input output) :=
  inferInstanceAs (Decidable (_ = _))

/-- Points are decided about only by a key with three points for the public inputs. -/
theorem verify_two_inputs_error (k : VerifyingKey) (x y : Fr) (points : Groth16.Points)
    (h : k.inputs.length ≠ 3) :
    Groth16.verify k [x, y] points = .error .malformedVerifyingKey := by
  rw [Groth16.verify]
  split
  · next first rest hk =>
    have hr : rest.length ≠ [x, y].length := fun hr ↦ h (by rw [hk, List.length_cons, hr]; rfl)
    exact if_pos hr
  · rfl

/-- A key with three points for the public inputs decides by the equation. -/
theorem verify_two_inputs {k : VerifyingKey} (hk : k.HasMembers) (x y : Fr)
    (points : Groth16.Points) {first second third : G1} (h : k.inputs = [first, second, third]) :
    Groth16.verify k [x, y] points
      = .ok (decide (k.Balances first second third points x.val y.val)) := by
  have hl : ¬ [second, third].length ≠ [x, y].length := fun hl ↦ hl rfl
  have he := Pairing.product_negs_eq_one_iff points.a k.alpha
    (Groth16.inputPoint first [second, third] [x, y]) points.c points.b hk.beta hk.gamma hk.delta
  rw [Groth16.verify, h]
  exact (if_neg hl).trans (congrArg Except.ok (decide_eq_decide.2 he))

/-- The four ways in which a key decides about a proof. -/
theorem verify_cases {k : VerifyingKey} (hk : k.HasMembers) (p : Proof) :
    (¬ p.InRange ∧ ∃ why, k.verify p = .error (.invalidPublicInput why)) ∨
    (p.InRange ∧ ∃ why, p.toPoints = .error (.malformedProof why) ∧
      k.verify p = .error (.malformedProof why)) ∨
    (p.InRange ∧ ∃ points, p.toPoints = .ok points ∧ k.inputs.length ≠ 3 ∧
      k.verify p = .error (.verification .malformedVerifyingKey)) ∨
    (p.InRange ∧ ∃ points first second third, p.toPoints = .ok points ∧
      k.inputs = [first, second, third] ∧ k.verify p = .ok (decide
        (k.Balances first second third points p.inputHash.toNat p.outputHash.toNat))) := by
  by_cases h : p.InRange
  · cases hp : p.toPoints with
    | error e =>
      obtain ⟨why, rfl⟩ := Proof.toPoints_error e hp
      exact .inr (.inl ⟨h, why, rfl, verify_of_no_points k h hp⟩)
    | ok points =>
      have hv := verify_of_points k h hp
      by_cases hl : k.inputs.length = 3
      · obtain ⟨first, second, third, hl⟩ := List.length_eq_three.1 hl
        refine .inr (.inr (.inr ⟨h, points, first, second, third, rfl, hl, ?_⟩))
        have hb := verify_two_inputs hk p.inputHash.toScalar p.outputHash.toScalar points hl
        rw [Word.val_toScalar h.1, Word.val_toScalar h.2] at hb
        exact hv.trans (congrArg (Except.mapError Error.verification) hb)
      · refine .inr (.inr (.inl ⟨h, points, rfl, hl, ?_⟩))
        have hb := verify_two_inputs_error k p.inputHash.toScalar p.outputHash.toScalar points hl
        exact hv.trans (congrArg (Except.mapError Error.verification) hb)
  · exact .inl ⟨h, verify_of_not_inRange k h⟩

/-- What a key of points of the groups decides about a proof, in this order. A commitment of more
than 253 bits is no public input. Then a proof is malformed exactly when one of its numbers is at or
past the modulus or the numbers for one of its points do not stand for a point of its group. Then
the key is malformed exactly when it does not have three points for the public inputs. Every other
proof is decided about, by whether the equation holds of its points and of the numbers that its
commitments spell. -/
theorem verify_decides {k : VerifyingKey} (hk : k.HasMembers) (p : Proof) :
    ((∃ why, k.verify p = .error (.invalidPublicInput why)) ↔ ¬ p.InRange) ∧
    ((∃ why, k.verify p = .error (.malformedProof why)) ↔ p.InRange ∧
      ((∃ c ∈ p.coordinates, baseModulus ≤ c.value) ∨ ¬ Proof.Stands1 p.a ∨ ¬ Proof.Stands2 p.b
        ∨ ¬ Proof.Stands1 p.c)) ∧
    (k.verify p = .error (.verification .malformedVerifyingKey) ↔ p.InRange ∧
      (p.IsLeast ∧ p.Stands) ∧ k.inputs.length ≠ 3) ∧
    ((∃ accepted, k.verify p = .ok accepted) ↔ p.InRange ∧ (p.IsLeast ∧ p.Stands) ∧
      k.inputs.length = 3) ∧
    ∀ accepted, k.verify p = .ok accepted ↔ p.InRange ∧
      ∃ points first second third, p.toPoints = .ok points ∧ k.inputs = [first, second, third] ∧
        accepted = decide (k.Balances first second third points p.inputHash.toNat
          p.outputHash.toNat) := by
  rw [← Proof.toPoints_malformed_iff, ← Proof.exists_toPoints_iff]
  rcases verify_cases hk p with ⟨h, why, hv⟩ | ⟨h, why, hp, hv⟩ | ⟨h, points, hp, hl, hv⟩ |
    ⟨h, points, first, second, third, hp, hl, hv⟩
  · simp [h, hv]
  · simp [h, hp, hv]
  · have hl' : ∀ first second third, k.inputs ≠ [first, second, third] := by
      rintro first second third he
      exact hl (by rw [he]; rfl)
    simp [h, hp, hl, hl', hv]
  · simp [h, hp, hl, hv, eq_comm, and_assoc]

/-- A key whose points for the public inputs are the identity. -/
def blind : VerifyingKey :=
  ⟨G1.generator, G2.generator, G2.generator, G2.generator, [.identity, .identity, .identity]⟩

/-- The key accepts the generators and the identity, with commitments in range. -/
theorem verify_decides_generators :
    blind.HasMembers ∧
    blind.verify (Proof.ofPoints ⟨G1.generator, G2.generator, .identity⟩ default default)
      = .ok true := by
  have h1 := G1.isMember_generator
  have h2 := G2.isMember_generator
  have hk : blind.HasMembers := ⟨h1, h2, h2, h2, by decide⟩
  have hp : (Proof.ofPoints ⟨G1.generator, G2.generator, .identity⟩ default default).toPoints
      = .ok ⟨G1.generator, G2.generator, .identity⟩ :=
    @Proof.toPoints_ofPoints ⟨G1.generator, G2.generator, .identity⟩ h1 h2 rfl default default
  have hb : blind.Balances .identity .identity .identity ⟨G1.generator, G2.generator, .identity⟩
      (default : Word).toNat (default : Word).toNat := by
    have hsum : G1.linearSum [(1, .identity), ((default : Word).toNat, .identity),
        ((default : Word).toNat, .identity)] = .identity := by decide +kernel
    rw [Balances, hsum, Pairing.pairing_identity, Pairing.pairing_identity, ← Fq12.mul_def,
      ← Fq12.mul_def, mul_one, mul_one]
    rfl
  obtain ⟨-, -, -, -, haccepted⟩ := verify_decides hk
    (Proof.ofPoints ⟨G1.generator, G2.generator, .identity⟩ default default)
  refine ⟨hk, (haccepted true).2 ⟨⟨by decide, by decide⟩, _, _, _, _, hp, rfl, ?_⟩⟩
  exact (decide_eq_true hb).symm

end VerifyingKey

end TreeProver
