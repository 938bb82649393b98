import TreeProver.Bytes.Octet
import TreeProver.Word

/-!
# Binary digits

The bits of numbers, bytes and words, the least significant first. `Octet.bitsToNat` reads bits and
`Octet.bitsOfNat` writes them in a fixed width; each undoes the other within the width. The bits of
a byte string, byte by byte from its low end, spell the same number as its bytes.
-/

namespace TreeProver

namespace Octet

/-- The lowest `width` binary digits of a number, the least significant first. -/
def bitsOfNat : (width : Nat) → Nat → List Bool
  | 0, _ => []
  | width + 1, n => decide (n % 2 = 1) :: bitsOfNat width (n / 2)

/-- Writing fills exactly the width asked for. -/
@[simp] theorem length_bitsOfNat (width n : Nat) : (bitsOfNat width n).length = width := by
  induction width generalizing n with
  | zero => rfl
  | succ width ih => simp [bitsOfNat, ih]

/-- Reading the digits that were written gives the number modulo the capacity of the width. -/
theorem bitsToNat_bitsOfNat (width n : Nat) : bitsToNat (bitsOfNat width n) = n % 2 ^ width := by
  induction width generalizing n with
  | zero => simp [bitsOfNat, bitsToNat, Nat.mod_one]
  | succ width ih =>
    have hb : (decide (n % 2 = 1)).toNat = n % 2 := by
      rcases Nat.mod_two_eq_zero_or_one n with h | h <;> simp [h]
    simp only [bitsOfNat, bitsToNat, ih, hb]
    rw [Nat.pow_succ, Nat.mul_comm (2 ^ width) 2, Nat.mod_mul]

/-- Writing the number that was read gives the bits back. -/
theorem bitsOfNat_bitsToNat (bs : List Bool) : bitsOfNat bs.length (bitsToNat bs) = bs := by
  induction bs with
  | nil => rfl
  | cons b bs ih =>
    have hd : (b.toNat + 2 * bitsToNat bs) / 2 = bitsToNat bs := by
      have hb := b.toNat_lt
      omega
    have hm : decide ((b.toNat + 2 * bitsToNat bs) % 2 = 1) = b := by cases b <;> simp
    simp only [List.length_cons, bitsToNat, bitsOfNat, hd, hm, ih]

/-- As many bits spell a number below that power of two. -/
theorem bitsToNat_lt (bs : List Bool) : bitsToNat bs < 2 ^ bs.length := by
  induction bs with
  | nil => simp [bitsToNat]
  | cons b bs ih =>
    have hb : b.toNat < 2 := b.toNat_lt
    simp only [bitsToNat, List.length_cons, Nat.pow_succ]
    omega

/-- Bits of equal number that spell the same number are equal. -/
theorem bitsToNat_inj {bs cs : List Bool} (hl : bs.length = cs.length)
    (h : bitsToNat bs = bitsToNat cs) : bs = cs := by
  rw [← bitsOfNat_bitsToNat bs, ← bitsOfNat_bitsToNat cs, hl, h]

/-- The bits of a concatenation count on from the end of the first part. -/
theorem bitsToNat_append (bs cs : List Bool) :
    bitsToNat (bs ++ cs) = bitsToNat bs + 2 ^ bs.length * bitsToNat cs := by
  induction bs with
  | nil => simp [bitsToNat]
  | cons b bs ih =>
    simp only [List.cons_append, bitsToNat, ih, List.length_cons, Nat.pow_succ]
    rw [Nat.mul_comm (2 ^ bs.length) 2, Nat.mul_assoc, Nat.mul_add]
    omega

/-- The low bits spell the number modulo a power of two. -/
theorem bitsToNat_take (k : Nat) (bs : List Bool) :
    bitsToNat (bs.take k) = bitsToNat bs % 2 ^ k := by
  by_cases hk : k ≤ bs.length
  · have ht : (bs.take k).length = k := by simp [hk]
    have hlt : bitsToNat (bs.take k) < 2 ^ k := by
      have h := bitsToNat_lt (bs.take k)
      rwa [ht] at h
    have ha := bitsToNat_append (bs.take k) (bs.drop k)
    rw [List.take_append_drop, ht] at ha
    rw [ha, Nat.add_mul_mod_self_left, Nat.mod_eq_of_lt hlt]
  · have hle : bs.length ≤ k := by omega
    rw [List.take_of_length_le hle, Nat.mod_eq_of_lt]
    exact Nat.lt_of_lt_of_le (bitsToNat_lt bs) (Nat.pow_le_pow_right (by decide) hle)

/-- Bits that are all zero spell zero. -/
theorem bitsToNat_replicate_false (n : Nat) : bitsToNat (List.replicate n false) = 0 := by
  induction n with
  | zero => rfl
  | succ n ih => simp [List.replicate_succ, bitsToNat, ih]

/-- Taking bits off the low end halves the number as often. -/
theorem drop_bitsOfNat (k width n : Nat) :
    (bitsOfNat width n).drop k = bitsOfNat (width - k) (n / 2 ^ k) := by
  induction k generalizing width n with
  | zero => simp
  | succ k ih =>
    cases width with
    | zero => simp [bitsOfNat]
    | succ width =>
      simp only [bitsOfNat, List.drop_succ_cons, ih, Nat.succ_sub_succ_eq_sub]
      rw [Nat.div_div_eq_div_mul, Nat.pow_succ, Nat.mul_comm 2]

/-- The bits of a byte spell its number. -/
theorem bitsToNat_ofByte (b : UInt8) : bitsToNat (ofByte b).toList = b.toNat := by
  have hl : (ofByte b).toList.length = 8 := rfl
  have h := bitsToNat_lt (ofByte b).toList
  have hb := congrArg UInt8.toNat (toByte_ofByte b)
  rw [toByte, UInt8.toNat_ofNat'] at hb
  rw [hl] at h
  omega

/-- Octets with the same list are equal. -/
theorem toList_inj {α : Type} {o p : Octet α} (h : o.toList = p.toList) : o = p := by
  obtain ⟨a0, a1, a2, a3, a4, a5, a6, a7⟩ := o
  obtain ⟨b0, b1, b2, b3, b4, b5, b6, b7⟩ := p
  simpa [toList] using h

end Octet

namespace Bytes

/-- The bits of a byte string from its low end spell its little-endian number. -/
theorem bitsToNat_flatMap (bs : Bytes) :
    Octet.bitsToNat (bs.flatMap fun b ↦ (Octet.ofByte b).toList) = toNatLE bs := by
  induction bs with
  | nil => rfl
  | cons b bs ih =>
    have hl : (Octet.ofByte b).toList.length = 8 := rfl
    rw [List.flatMap_cons, Octet.bitsToNat_append, ih, Octet.bitsToNat_ofByte, hl]
    rfl

/-- A byte in front counts for as many digits as follow it. -/
theorem toNatBE_cons (b : UInt8) (bs : Bytes) :
    toNatBE (b :: bs) = b.toNat * 256 ^ bs.length + toNatBE bs := by
  have h (xs : Bytes) : toNatLE (xs ++ [b]) = toNatLE xs + 256 ^ xs.length * b.toNat := by
    induction xs with
    | nil => simp [toNatLE]
    | cons x xs ih =>
      simp only [List.cons_append, toNatLE, ih, List.length_cons, Nat.pow_succ]
      rw [Nat.mul_comm (256 ^ xs.length) 256, Nat.mul_assoc, Nat.mul_add]
      omega
  rw [toNatBE, List.reverse_cons, h, List.length_reverse, toNatBE, Nat.mul_comm, Nat.add_comm]

/-- Byte strings of equal length that spell the same number are equal. -/
theorem toNatBE_inj {bs cs : Bytes} (hl : bs.length = cs.length)
    (h : toNatBE bs = toNatBE cs) : bs = cs := by
  rw [← ofNatBE_toNatBE bs, ← ofNatBE_toNatBE cs, hl, h]

end Bytes

namespace Word

/-- Words that spell the same number are equal. -/
theorem toNat_inj {a b : Word} (h : a.toNat = b.toNat) : a = b :=
  ext (Bytes.toNatBE_inj (a.length_bytes.trans b.length_bytes.symm) h)

/-- A word spells a number below `2 ^ 256`. -/
theorem toNat_lt (w : Word) : w.toNat < 2 ^ (256 : Nat) := by
  have h := Bytes.toNatBE_lt w.bytes
  rwa [w.length_bytes, show 256 = 2 ^ (8 : Nat) from rfl, ← Nat.pow_mul] at h

/-- The word that is written for the number of a word is that word. -/
theorem ofNat_toNat (w : Word) : ofNat w.toNat = w := by
  apply ext
  have h := Bytes.ofNatBE_toNatBE w.bytes
  rwa [w.length_bytes] at h

/-- The word of a number below `2 ^ 256` spells that number. -/
theorem toNat_ofNat {n : Nat} (h : n < 2 ^ (256 : Nat)) : (ofNat n).toNat = n := by
  have hcapacity : 256 ^ (32 : Nat) = 2 ^ (256 : Nat) := by decide
  rw [toNat, ofNat, Bytes.toNatBE_ofNatBE, hcapacity, Nat.mod_eq_of_lt h]

/-- Words side by side take 32 bytes each. -/
theorem length_flatMap_bytes (ws : List Word) : (ws.flatMap bytes).length = ws.length * size := by
  have hsize : (fun w : Word ↦ w.bytes.length) = fun _ ↦ size := funext length_bytes
  rw [List.length_flatMap, hsize, List.map_const', List.sum_replicate_nat]

/-- As many bytes as a number of words take are those words side by side. -/
theorem exists_flatMap_bytes (count : Nat) {bs : Bytes} (h : bs.length = count * size) :
    ∃ ws : List Word, ws.length = count ∧ ws.flatMap bytes = bs := by
  rw [size] at h
  induction count generalizing bs with
  | zero =>
    rw [Nat.zero_mul] at h
    exact ⟨[], rfl, (List.eq_nil_of_length_eq_zero h).symm⟩
  | succ count ih =>
    have hfirst : (bs.take 32).length = 32 := by
      rw [List.length_take]
      omega
    have hlength : (bs.drop 32).length = count * 32 := by
      rw [List.length_drop]
      omega
    obtain ⟨ws, hcount, hrest⟩ := ih hlength
    refine ⟨⟨bs.take 32, hfirst⟩ :: ws, by rw [List.length_cons, hcount], ?_⟩
    rw [List.flatMap_cons, hrest, List.take_append_drop]

/-- The bits of a word, the least significant first. -/
def bits (w : Word) : List Bool := w.bytes.reverse.flatMap fun b ↦ (Octet.ofByte b).toList

/-- The bits of a word spell its number. -/
theorem bitsToNat_bits (w : Word) : Octet.bitsToNat w.bits = w.toNat :=
  Bytes.bitsToNat_flatMap w.bytes.reverse

end Word

end TreeProver
