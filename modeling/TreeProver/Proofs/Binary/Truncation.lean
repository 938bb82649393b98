import TreeProver.Commitment
import TreeProver.Proofs.Binary.Digits

/-!
# Truncation as reduction

Clearing the first bits of a word is reduction of its number modulo a power of two. Commitments are
therefore below `2 ^ 253`, which is below the scalar modulus: as scalars they are not reduced, and
the words that are taken for commitments are those below `2 ^ 253`.
-/

namespace TreeProver

namespace Word

/-- Clearing every bit of the first byte, or more, leaves the number of the other bytes. -/
private theorem mod_of_byte_cleared {b x n e : Nat} (he : e ≤ 8 * n) :
    (b * 256 ^ n + x) % 2 ^ e = x % 2 ^ e := by
  have hp : 256 ^ n = 2 ^ e * 2 ^ (8 * n - e) := by
    rw [show 256 = 2 ^ 8 from rfl, ← Nat.pow_mul, ← Nat.pow_add, Nat.add_sub_cancel' he]
  rw [hp, Nat.mul_left_comm, Nat.mul_add_mod]

/-- Clearing some bits of the first byte reduces that byte and keeps the other bytes. -/
private theorem mod_of_byte_masked {b x n k : Nat} (hx : x < 256 ^ n) :
    (b * 256 ^ n + x) % 2 ^ (8 * n + k) = b % 2 ^ k * 256 ^ n + x := by
  have hp : 2 ^ (8 * n + k) = 256 ^ n * 2 ^ k := by
    rw [show 256 = 2 ^ 8 from rfl, ← Nat.pow_mul, ← Nat.pow_add]
  have hn : 0 < 256 ^ n := Nat.pow_pos (by decide)
  rw [hp, Nat.mod_mul, Nat.mul_comm b, Nat.mul_add_mod, Nat.mod_eq_of_lt hx,
    Nat.mul_add_div hn, Nat.div_eq_of_lt hx, Nat.add_zero, Nat.mul_comm, Nat.add_comm]

/-- Clearing the bits before `cleared` keeps the number modulo the power of two of the others. -/
theorem toNatBE_clearFrom (cleared start : Nat) (bs : Bytes) :
    Bytes.toNatBE (clearFrom cleared start bs)
      = Bytes.toNatBE bs % 2 ^ (8 * bs.length - (cleared - start)) := by
  induction bs generalizing start with
  | nil => simp [clearFrom, Bytes.toNatBE, Bytes.toNatLE]
  | cons b bs ih =>
    have hx := Bytes.toNatBE_lt bs
    rw [clearFrom, Bytes.toNatBE_cons, Bytes.toNatBE_cons, length_clearFrom, ih, clearByte,
      List.length_cons]
    split
    · next h =>
      have he : 8 * (bs.length + 1) - (cleared - start)
          = 8 * bs.length - (cleared - (start + 8)) := by omega
      rw [he, mod_of_byte_cleared (by omega)]
      simp
    · next h =>
      have hr : 8 * bs.length - (cleared - (start + 8)) = 8 * bs.length := by omega
      have hk : Bytes.toNatBE bs % 2 ^ (8 * bs.length) = Bytes.toNatBE bs := by
        rw [Nat.pow_mul, Nat.mod_eq_of_lt hx]
      rw [hr, hk]
      split
      · next hs =>
        have he : 8 * (bs.length + 1) - (cleared - start)
            = 8 * bs.length + (8 - (cleared - start)) := by omega
        have hb : b.toNat % 2 ^ (8 - (cleared - start)) < 256 :=
          Nat.lt_of_le_of_lt (Nat.mod_le _ _) b.toNat_lt
        rw [he, mod_of_byte_masked hx, UInt8.toNat_ofNat', Nat.mod_eq_of_lt hb]
      · next hs =>
        have he : 8 * (bs.length + 1) - (cleared - start) = 8 * bs.length + 8 := by omega
        rw [he, mod_of_byte_masked hx, Nat.mod_eq_of_lt b.toNat_lt]

/-- Truncation keeps the number modulo a power of two; a width past 256 keeps it all. -/
theorem toNat_truncate (w : Word) (bits : Nat) :
    (w.truncate bits).toNat = w.toNat % 2 ^ min bits 256 := by
  have he : 8 * w.bytes.length - (256 - min bits 256 - 0) = min bits 256 := by
    rw [w.length_bytes]
    omega
  have h := toNatBE_clearFrom (256 - min bits 256) 0 w.bytes
  rwa [he] at h

/-- Truncation is reduction modulo the power of two of the width, also where that exceeds every
word. -/
theorem toNat_truncate_eq_mod (w : Word) (bits : Nat) :
    (w.truncate bits).toNat = w.toNat % 2 ^ bits := by
  rw [toNat_truncate]
  by_cases hb : bits ≤ 256
  · rw [Nat.min_eq_left hb]
  · have hw := w.toNat_lt
    have hle : 2 ^ (256 : Nat) ≤ 2 ^ bits := Nat.pow_le_pow_right (by decide) (by omega)
    rw [Nat.min_eq_right (by omega), Nat.mod_eq_of_lt hw, Nat.mod_eq_of_lt (by omega)]

/-- A word is its own truncation exactly when its number fits into the width. -/
theorem truncate_eq_self_iff (w : Word) (bits : Nat) :
    w.truncate bits = w ↔ w.toNat < 2 ^ bits := by
  have ht := toNat_truncate_eq_mod w bits
  constructor
  · intro h
    rw [h] at ht
    rw [ht]
    exact Nat.mod_lt _ (Nat.pow_pos (by decide))
  · intro h
    rw [Nat.mod_eq_of_lt h] at ht
    exact toNat_inj ht

end Word

/-- Numbers of as many bits as a commitment are below the scalar modulus. -/
theorem capacity_lt_scalarModulus : 2 ^ commitmentBits < scalarModulus := by
  decide +kernel

/-- A commitment is the number of the digest modulo `2 ^ 253`. -/
theorem toNat_commitment (data : Bytes) :
    (commitment data).toNat = (sha256 data).toNat % 2 ^ commitmentBits :=
  Word.toNat_truncate (sha256 data) commitmentBits

/-- A commitment has at most 253 bits. -/
theorem toNat_commitment_lt (data : Bytes) : (commitment data).toNat < 2 ^ commitmentBits := by
  rw [toNat_commitment]
  exact Nat.mod_lt _ (Nat.pow_pos (by decide))

/-- The words that pass for commitments are those of at most 253 bits. -/
theorem checkCommitment_ok_iff (name : String) (w : Word) :
    checkCommitment name w = .ok () ↔ w.toNat < 2 ^ commitmentBits := by
  rw [← Word.truncate_eq_self_iff, checkCommitment]
  split
  · next h => simp [h]
  · next h => simp [h]

/-- Two words are the same scalar exactly when their numbers leave the same remainder. -/
theorem Word.toScalar_eq_iff (a b : Word) :
    a.toScalar = b.toScalar ↔ a.toNat % scalarModulus = b.toNat % scalarModulus := by
  simp [Word.toScalar, Residue.ofNat]

/-- A word is the same scalar as a commitment exactly when its remainder is the commitment. -/
theorem Word.toScalar_eq_commitment_iff (w : Word) (data : Bytes) :
    w.toScalar = (commitment data).toScalar
      ↔ w.toNat % scalarModulus = (commitment data).toNat := by
  have h := Nat.lt_trans (toNat_commitment_lt data) capacity_lt_scalarModulus
  rw [toScalar_eq_iff, Nat.mod_eq_of_lt h]

end TreeProver
