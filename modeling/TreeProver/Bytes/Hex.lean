import TreeProver.Bytes

/-!
# Hexadecimal text

A byte is two hexadecimal digits, the high half first. Writing uses lower-case digits; reading a
digit accepts either case.
-/

namespace TreeProver.Hex

/-- The digits in order of value. -/
def digits : List Char :=
  ['0', '1', '2', '3', '4', '5', '6', '7', '8', '9', 'a', 'b', 'c', 'd', 'e', 'f']

/-- The lower-case digit of a value below sixteen. -/
def digit (n : Nat) : Char := digits.getD n '0'

/-- The value of a digit of either case. -/
def digit? (c : Char) : Option Nat :=
  if '0' ≤ c ∧ c ≤ '9' then some (c.toNat - '0'.toNat)
  else if 'a' ≤ c ∧ c ≤ 'f' then some (c.toNat - 'a'.toNat + 10)
  else if 'A' ≤ c ∧ c ≤ 'F' then some (c.toNat - 'A'.toNat + 10)
  else none

/-- The two digits of every byte, in order. -/
def encodeChars : Bytes → List Char
  | [] => []
  | b :: bs => digit (b.toNat / 16) :: digit (b.toNat % 16) :: encodeChars bs

/-- Lower-case hexadecimal text of a byte string. -/
def encode (bs : Bytes) : String := String.ofList (encodeChars bs)

/-- The bytes spelled by pairs of digits; none when a digit is bad or stands alone. -/
def decodeChars? : List Char → Option Bytes
  | [] => some []
  | [_] => none
  | hi :: lo :: rest => do
    let h ← digit? hi
    let l ← digit? lo
    let bs ← decodeChars? rest
    some (UInt8.ofNat (16 * h + l) :: bs)

/-- The bytes spelled by a text of hexadecimal digits. -/
def decode? (s : String) : Option Bytes := decodeChars? s.toList

/-- Every digit that is written is read back. -/
theorem digit?_digit {n : Nat} (h : n < 16) : digit? (digit n) = some n := by
  have : ∀ m : Fin 16, digit? (digit m.val) = some m.val := by decide
  exact this ⟨n, h⟩

/-- Two digits are written per byte. -/
@[simp] theorem length_encodeChars (bs : Bytes) : (encodeChars bs).length = 2 * bs.length := by
  induction bs with
  | nil => rfl
  | cons b bs ih => simp only [encodeChars, List.length_cons, ih]; omega

/-- Reading undoes writing. -/
theorem decodeChars?_encodeChars (bs : Bytes) : decodeChars? (encodeChars bs) = some bs := by
  induction bs with
  | nil => rfl
  | cons b bs ih =>
    have hb : b.toNat < 256 := b.toNat_lt
    have hd : UInt8.ofNat (16 * (b.toNat / 16) + b.toNat % 16) = b := by
      apply UInt8.toNat_inj.1
      rw [UInt8.toNat_ofNat']
      omega
    rw [encodeChars, decodeChars?, digit?_digit (show b.toNat / 16 < 16 by omega),
      digit?_digit (show b.toNat % 16 < 16 by omega), ih]
    simp only [bind, Option.bind, hd]

end TreeProver.Hex
