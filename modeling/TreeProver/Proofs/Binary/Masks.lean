import TreeProver.Proofs.Binary.Truncation
import TreeProver.Proofs.Tree.Path

/-!
# Truncation step by step

A word is truncated here byte by byte with numbers of 64 bits, in steps that have no result where a
sum or a difference is out of range, or where a byte is shifted by eight bits or more. A byte that
is cut keeps its low bits under a mask, which is a byte of ones shifted to the right. For every word
and every width these steps have a result. It is the word that spells the number of the first one
modulo the power of two of the width.
-/

namespace TreeProver

namespace Word

open TreeProver.Tree (sum? sum?_of_lt)

/-! ### Checked steps -/

/-- The difference of two numbers of 64 bits, if it is one. -/
def difference? (a b : UInt64) : Option UInt64 := if b ≤ a then some (a - b) else none

/-- A byte of ones shifted to the right, if by fewer bits than it has. -/
def mask? (count : UInt64) : Option UInt8 :=
  if count < 8 then some (0xff >>> count.toUInt8) else none

/-- A byte of a value whose first `cleared` bits are set to zero, when the byte reaches from bit
`start` of that value to bit `stop`. -/
def clearByte? (cleared start stop : UInt64) (b : UInt8) : Option UInt8 :=
  if stop ≤ cleared then some 0
  else if start < cleared then do
    let count ← difference? cleared start
    let mask ← mask? count
    some (b &&& mask)
  else some b

/-- The bytes of a value with its first `cleared` bits set to zero, from bit `start` on. -/
def clearFrom? (cleared start : UInt64) : Bytes → Option Bytes
  | [] => some []
  | b :: bs => do
    let stop ← sum? start 8
    let b ← clearByte? cleared start stop b
    let bs ← clearFrom? cleared stop bs
    some (b :: bs)

/-- The bytes of a word with all but its low bits set to zero. -/
def truncate? (w : Word) (bits : UInt64) : Option Bytes := do
  let cleared ← difference? 256 (min bits 256)
  clearFrom? cleared 0 w.bytes

/-- A difference that is a number of 64 bits is not reduced. -/
theorem difference?_of_le {a b : UInt64} (h : b ≤ a) :
    difference? a b = some (a - b) ∧ (a - b).toNat = a.toNat - b.toNat :=
  ⟨if_pos h, UInt64.toNat_sub_of_le a b h⟩

/-- Under a mask a byte is reduced modulo the power of two of the bits that the mask leaves. -/
theorem and_mask?_of_lt (b : UInt8) {count : UInt64} (h : count.toNat < 8) : ∃ mask,
    mask? count = some mask ∧ b &&& mask = UInt8.ofNat (b.toNat % 2 ^ (8 - count.toNat)) := by
  have hcount : count.toUInt8.toNat % 8 = count.toNat := by
    rw [UInt64.toNat_toUInt8]
    omega
  have hones : ∀ k < 8, 255 >>> k = 2 ^ (8 - k) - 1 := by decide
  refine ⟨_, if_pos (UInt64.lt_iff_toNat_lt.2 h), UInt8.toNat_inj.1 ?_⟩
  have hlt : b.toNat % 2 ^ (8 - count.toNat) < 2 ^ 8 :=
    Nat.lt_of_le_of_lt (Nat.mod_le _ _) b.toNat_lt
  rw [UInt8.toNat_and, UInt8.toNat_shiftRight, hcount, UInt8.toNat_ofNat', Nat.mod_eq_of_lt hlt,
    ← Nat.and_two_pow_sub_one_eq_mod, ← hones _ h]
  rfl

/-- A byte is cleared without a difference or a shift that is out of range. -/
theorem clearByte?_eq {cleared start stop : UInt64} (h : stop.toNat = start.toNat + 8) (b : UInt8) :
    clearByte? cleared start stop b = some (clearByte cleared.toNat start.toNat b) := by
  simp only [clearByte?, clearByte, UInt64.le_iff_toNat_le, UInt64.lt_iff_toNat_lt, h]
  split
  · rfl
  · next hstop =>
    split
    · next hstart =>
      obtain ⟨hdiff, hcount⟩ := difference?_of_le (UInt64.le_iff_toNat_le.2 (Nat.le_of_lt hstart))
      obtain ⟨mask, hmask, hand⟩ := @and_mask?_of_lt b (cleared - start) (by omega)
      rw [hcount] at hand
      rw [hdiff, Option.bind_eq_bind, Option.bind_some, hmask, Option.bind_eq_bind,
        Option.bind_some, hand]
    · rfl

/-- Bytes that end within the range of 64 bits are cleared one after the other. -/
theorem clearFrom?_eq {cleared start : UInt64} {bs : Bytes}
    (h : start.toNat + 8 * bs.length < UInt64.size) :
    clearFrom? cleared start bs = some (clearFrom cleared.toNat start.toNat bs) := by
  induction bs generalizing start with
  | nil => rfl
  | cons b bs ih =>
    rw [List.length_cons] at h
    have height : (8 : UInt64).toNat = 8 := rfl
    obtain ⟨hsum, hstop⟩ := sum?_of_lt (a := start) (b := 8) (by omega)
    rw [height] at hstop
    have hrest := @ih (start + 8) (by omega)
    rw [hstop] at hrest
    rw [clearFrom?, hsum, clearFrom]
    simp only [Option.bind_eq_bind, Option.bind_some, clearByte?_eq hstop, hrest]

/-- A word is truncated without a number out of range. -/
theorem truncate?_eq (w : Word) (bits : UInt64) :
    w.truncate? bits = some (w.truncate bits.toNat).bytes := by
  have hfull : (256 : UInt64).toNat = 256 := rfl
  have hmin : (min bits 256).toNat = min bits.toNat 256 := by
    rw [UInt64.toNat_min, hfull]
  obtain ⟨hdiff, hcleared⟩ := difference?_of_le (a := 256) (b := min bits 256)
    (UInt64.le_iff_toNat_le.2 (by omega))
  rw [hfull, hmin] at hcleared
  have hend : (0 : UInt64).toNat + 8 * w.bytes.length < UInt64.size := by
    rw [w.length_bytes]
    decide
  rw [truncate?, hdiff, Option.bind_eq_bind, Option.bind_some, clearFrom?_eq hend, hcleared]
  rfl

/-! ### Truncation -/

/-- Truncation to one width and then to another is truncation to the smaller one. -/
theorem truncate_truncate (w : Word) (m n : Nat) :
    (w.truncate m).truncate n = w.truncate (min m n) := by
  apply toNat_inj
  rw [toNat_truncate_eq_mod, toNat_truncate_eq_mod, toNat_truncate_eq_mod]
  rcases Nat.le_total m n with h | h
  · rw [Nat.min_eq_left h, Nat.mod_eq_of_lt]
    exact Nat.lt_of_lt_of_le (Nat.mod_lt _ (Nat.pow_pos (by decide)))
      (Nat.pow_le_pow_right (by decide) h)
  · rw [Nat.min_eq_right h, Nat.mod_mod_of_dvd _ (Nat.pow_dvd_pow 2 h)]

/-- A truncated word is the big-endian word of the number modulo the power of two of the width. -/
theorem bytes_truncate (w : Word) (bits : Nat) :
    (w.truncate bits).bytes = Bytes.ofNatBE 32 (w.toNat % 2 ^ min bits 256) := by
  rw [← toNat_truncate, ← (w.truncate bits).length_bytes, toNat, Bytes.ofNatBE_toNatBE]

/-- Truncation is reduction modulo a power of two. For every word and every width of 64 bits the
checked steps have a result, the truncated word; it is the word of 32 bytes, most significant first,
that spells the number modulo `2 ^ min bits 256`. So truncation to two widths is truncation to the
smaller one, and a word is its own truncation exactly when its number fits into the width. -/
theorem truncation_is_reduction (w : Word) :
    (∀ bits : UInt64, w.truncate? bits = some (w.truncate bits.toNat).bytes) ∧
    (∀ bits : Nat, (w.truncate bits).bytes
      = Bytes.ofNatBE 32 (Bytes.toNatBE w.bytes % 2 ^ min bits 256)) ∧
    (∀ m n : Nat, (w.truncate m).truncate n = w.truncate (min m n)) ∧
    ∀ n : Nat, w.truncate n = w ↔ Bytes.toNatBE w.bytes < 2 ^ n :=
  ⟨w.truncate?_eq, w.bytes_truncate, w.truncate_truncate, w.truncate_eq_self_iff⟩

example : (truncate ⟨List.replicate 32 0xff, rfl⟩ 253).bytes = 0x1f :: List.replicate 31 0xff := by
  decide +kernel

end Word

end TreeProver
