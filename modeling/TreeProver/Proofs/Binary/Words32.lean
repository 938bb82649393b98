import TreeProver.Hash.Sha256
import TreeProver.Proofs.Binary.Digits

/-!
# The bits of 32-bit words

What the operations of SHA-256 do to the bits of words, the least significant first. Rotations and
shifts move bits, the logical functions act place by place, and sums are those of the numbers that
the bits spell.
-/

namespace TreeProver

/-- The digits of a number are its tests at the places of the width. -/
theorem Octet.bitsOfNat_eq_map (width n : Nat) :
    bitsOfNat width n = (List.range width).map n.testBit := by
  induction width generalizing n with
  | zero => rfl
  | succ width ih =>
    rw [bitsOfNat, ih, List.range_succ_eq_map, List.map_cons, List.map_map]
    congr 1
    · simp [Nat.testBit_zero]
    · exact List.map_congr_left fun i _ ↦ by simp [Nat.testBit_succ]

namespace Sha256

/-- The bits of a word, the least significant first. -/
def bits (x : UInt32) : List Bool := (List.range 32).map x.toNat.testBit

/-- A word has thirty-two bits. -/
@[simp] theorem length_bits (x : UInt32) : (bits x).length = 32 := by simp [bits]

/-- The bits of a word spell its number. -/
theorem bitsToNat_bits (x : UInt32) : Octet.bitsToNat (bits x) = x.toNat := by
  rw [bits, ← Octet.bitsOfNat_eq_map, Octet.bitsToNat_bitsOfNat]
  exact Nat.mod_eq_of_lt x.toNat_lt

/-- The word of a number has the low bits of the number. -/
theorem bits_ofNat (n : Nat) : bits (UInt32.ofNat n) = (List.range 32).map n.testBit := by
  refine List.map_congr_left fun i hi ↦ ?_
  rw [UInt32.toNat_ofNat', Nat.testBit_mod_two_pow, decide_eq_true (List.mem_range.1 hi),
    Bool.true_and]

/-- A bit of a word at one of its places. -/
theorem getElem_bits (x : UInt32) (i : Nat) (h : i < (bits x).length) :
    (bits x)[i] = x.toNat.testBit i := by
  simp [bits]

/-- Words with the same bits at their places are equal. -/
theorem bits_eq_of_getElem {x : UInt32} {bs : List Bool} (hl : bs.length = 32)
    (h : ∀ i (hi : i < bs.length), x.toNat.testBit i = bs[i]) : bits x = bs :=
  List.ext_getElem (by simp [hl]) fun i hi hi' ↦ by rw [getElem_bits, h i hi']

/-- A shift to the right moves bits down and fills up with zeros. -/
theorem bits_shiftRight (x : UInt32) {n : UInt32} {k : Nat} (hn : n.toNat = k) (hk : k < 32) :
    bits (x >>> n) = (bits x).drop k ++ List.replicate k false := by
  refine bits_eq_of_getElem (by simp; omega) fun i hi ↦ ?_
  have hm : n.toNat % 32 = k := by omega
  rw [UInt32.toNat_shiftRight, hm, Nat.testBit_shiftRight]
  by_cases h : i < 32 - k
  · rw [List.getElem_append_left (by simpa using h), List.getElem_drop, getElem_bits]
  · rw [List.getElem_append_right (by simpa using h), List.getElem_replicate]
    refine Nat.testBit_lt_two_pow (Nat.lt_of_lt_of_le x.toNat_lt ?_)
    exact Nat.pow_le_pow_right (by decide) (by omega)

/-- A rotation to the right moves the low bits behind the others. -/
theorem bits_rotr (x : UInt32) {n : UInt32} {k : Nat} (hn : n.toNat = k) (h0 : 0 < k)
    (hk : k < 32) : bits (rotr x n) = (bits x).drop k ++ (bits x).take k := by
  refine bits_eq_of_getElem (by simp; omega) fun i hi ↦ ?_
  have hi32 : i < 32 := by
    simp at hi
    omega
  have hm : n.toNat % 32 = k := by omega
  have hm' : (32 - n).toNat % 32 = 32 - k := by
    rw [UInt32.toNat_sub, hn]
    show (2 ^ 32 - k + 32) % 2 ^ 32 % 32 = 32 - k
    omega
  rw [rotr, UInt32.toNat_or, Nat.testBit_or, UInt32.toNat_shiftRight, UInt32.toNat_shiftLeft, hm,
    hm', Nat.testBit_shiftRight, Nat.testBit_mod_two_pow, decide_eq_true hi32, Bool.true_and,
    Nat.testBit_shiftLeft]
  by_cases h : i < 32 - k
  · rw [List.getElem_append_left (by simpa using h), List.getElem_drop, getElem_bits]
    simp [Nat.not_le.2 h]
  · rw [List.getElem_append_right (by simpa using h), List.getElem_take, getElem_bits]
    have hz : x.toNat.testBit (k + i) = false := by
      refine Nat.testBit_lt_two_pow (Nat.lt_of_lt_of_le x.toNat_lt ?_)
      exact Nat.pow_le_pow_right (by decide) (by omega)
    simp [hz, Nat.not_lt.1 h]

/-- A function of the places of two words, where its value at every place is that of the bits. -/
private theorem bits_zip {x y z : UInt32} {f : Bool × Bool → Bool}
    (h : ∀ i < 32, x.toNat.testBit i = f (y.toNat.testBit i, z.toNat.testBit i)) :
    bits x = ((bits y).zip (bits z)).map f := by
  refine bits_eq_of_getElem (by simp) fun i hi ↦ ?_
  rw [List.getElem_map, List.getElem_zip, getElem_bits, getElem_bits]
  exact h i (by simpa using hi)

/-- A function of the places of three words, where its value at every place is that of the bits. -/
private theorem bits_zip₃ {w x y z : UInt32} {f : Bool × Bool × Bool → Bool}
    (h : ∀ i < 32, w.toNat.testBit i
      = f (x.toNat.testBit i, y.toNat.testBit i, z.toNat.testBit i)) :
    bits w = ((bits x).zip ((bits y).zip (bits z))).map f := by
  refine bits_eq_of_getElem (by simp) fun i hi ↦ ?_
  rw [List.getElem_map, List.getElem_zip, List.getElem_zip, getElem_bits, getElem_bits,
    getElem_bits]
  exact h i (by simpa using hi)

/-- Exclusive or acts place by place. -/
theorem bits_xor (x y : UInt32) :
    bits (x ^^^ y) = ((bits x).zip (bits y)).map fun p ↦ p.1 != p.2 :=
  bits_zip fun i _ ↦ by rw [UInt32.toNat_xor, Nat.testBit_xor]

/-- Choice takes the second or the third bit, as the first says. -/
theorem bits_choose (e f g : UInt32) :
    bits (choose e f g)
      = ((bits e).zip ((bits f).zip (bits g))).map fun p ↦ if p.1 then p.2.1 else p.2.2 :=
  bits_zip₃ fun i hi ↦ by
    have hn : (~~~e).toNat.testBit i = !e.toNat.testBit i := by
      show (~~~e.toBitVec).getLsbD i = !e.toBitVec.getLsbD i
      simp only [BitVec.getLsbD_not, hi, decide_true, Bool.true_and]
    rw [choose, UInt32.toNat_xor, UInt32.toNat_and, UInt32.toNat_and, Nat.testBit_xor,
      Nat.testBit_and, Nat.testBit_and, hn]
    cases e.toNat.testBit i <;> simp

/-- Majority takes the third bit where the first two differ, and else the first. -/
theorem bits_majority (a b c : UInt32) :
    bits (majority a b c)
      = ((bits a).zip ((bits b).zip (bits c))).map fun p ↦
          if p.1 != p.2.1 then p.2.2 else p.1 :=
  bits_zip₃ fun i _ ↦ by
    simp only [majority, UInt32.toNat_xor, UInt32.toNat_and, Nat.testBit_xor, Nat.testBit_and]
    cases a.toNat.testBit i <;> cases b.toNat.testBit i <;> cases c.toNat.testBit i <;> rfl

/-- Four bytes that are shifted to their places in a word spell the number of the word. -/
theorem toNat_ofBytes (a b c d : UInt8) :
    ((a.toUInt32 <<< 24) ||| (b.toUInt32 <<< 16) ||| (c.toUInt32 <<< 8) ||| d.toUInt32).toNat
      = Bytes.toNatLE [d, c, b, a] := by
  have ha := a.toNat_lt
  have hb := b.toNat_lt
  have hc := c.toNat_lt
  have hd := d.toNat_lt
  have hs (x : UInt8) (n : UInt32) (k : Nat) (hn : n.toNat = k) (hk : k ≤ 24) :
      (x.toUInt32 <<< n).toNat = x.toNat <<< k := by
    have hx := x.toNat_lt
    have hm : n.toNat % 32 = k := by omega
    rw [UInt32.toNat_shiftLeft, hm, UInt8.toNat_toUInt32, Nat.mod_eq_of_lt]
    rw [Nat.shiftLeft_eq, show 2 ^ 32 = 2 ^ 8 * 2 ^ 24 from rfl]
    exact Nat.mul_lt_mul_of_lt_of_le hx (Nat.pow_le_pow_right (by decide) hk) (by decide)
  -- The four parts have no bits in common, so putting them together adds them up.
  have h₁ : c.toNat <<< 8 ||| d.toNat = c.toNat <<< 8 + d.toNat :=
    (Nat.shiftLeft_add_eq_or_of_lt hd c.toNat).symm
  have h₂ : b.toNat <<< 16 ||| (c.toNat <<< 8 + d.toNat)
      = b.toNat <<< 16 + (c.toNat <<< 8 + d.toNat) :=
    (Nat.shiftLeft_add_eq_or_of_lt (by rw [Nat.shiftLeft_eq]; omega) b.toNat).symm
  have h₃ : a.toNat <<< 24 ||| (b.toNat <<< 16 + (c.toNat <<< 8 + d.toNat))
      = a.toNat <<< 24 + (b.toNat <<< 16 + (c.toNat <<< 8 + d.toNat)) :=
    (Nat.shiftLeft_add_eq_or_of_lt (by simp only [Nat.shiftLeft_eq]; omega) a.toNat).symm
  rw [UInt32.toNat_or, UInt32.toNat_or, UInt32.toNat_or, UInt8.toNat_toUInt32,
    hs a 24 24 rfl (by decide), hs b 16 16 rfl (by decide), hs c 8 8 rfl (by decide),
    Nat.or_assoc, Nat.or_assoc, h₁, h₂, h₃]
  simp only [Nat.shiftLeft_eq, Bytes.toNatLE]
  omega

/-- The bits of the word of four bytes are those of the bytes from the low end. -/
theorem bits_ofBytes (a b c d : UInt8) :
    bits ((a.toUInt32 <<< 24) ||| (b.toUInt32 <<< 16) ||| (c.toUInt32 <<< 8) ||| d.toUInt32)
      = [a, b, c, d].reverse.flatMap fun x ↦ (Octet.ofByte x).toList := by
  refine Octet.bitsToNat_inj rfl ?_
  rw [bitsToNat_bits, toNat_ofBytes, Bytes.bitsToNat_flatMap]
  rfl

/-- The low byte of a shifted word has eight of its bits. -/
private theorem toList_ofByte_shiftRight (x : UInt32) {n : UInt32} {k : Nat} (hn : n.toNat = k)
    (hk : k ≤ 24) :
    (Octet.ofByte (x >>> n).toUInt8).toList = ((bits x).drop k).take 8 := by
  have hm : n.toNat % 32 = k := by omega
  have ho (b : UInt8) : (Octet.ofByte b).toList = (List.range 8).map b.toNat.testBit := rfl
  refine List.ext_getElem (by simp [ho]; omega) fun i hi hi' ↦ ?_
  have hi8 : i < 8 := hi
  simp only [ho, List.getElem_map, List.getElem_range, List.getElem_take, List.getElem_drop,
    getElem_bits]
  rw [UInt32.toNat_toUInt8, UInt32.toNat_shiftRight, hm, Nat.testBit_mod_two_pow,
    decide_eq_true hi8, Bool.true_and, Nat.testBit_shiftRight]

/-- The bytes of a word have its bits, the highest eight first. -/
theorem bits_wordBytes (x : UInt32) :
    ((wordBytes x).flatMap fun b ↦ (Octet.ofByte b).toList)
      = (bits x).drop 24 ++ ((bits x).drop 16).take 8 ++ ((bits x).drop 8).take 8
        ++ (bits x).take 8 := by
  have h24 := toList_ofByte_shiftRight x (n := 24) (k := 24) rfl (by decide)
  have h16 := toList_ofByte_shiftRight x (n := 16) (k := 16) rfl (by decide)
  have h8 := toList_ofByte_shiftRight x (n := 8) (k := 8) rfl (by decide)
  have h0 := toList_ofByte_shiftRight x (n := 0) (k := 0) rfl (by decide)
  rw [UInt32.shiftRight_zero, List.drop_zero] at h0
  rw [List.take_of_length_le (by simp)] at h24
  simp only [wordBytes, List.flatMap_cons, List.flatMap_nil, List.append_nil, h24, h16, h8, h0,
    List.append_assoc]

end Sha256

end TreeProver
