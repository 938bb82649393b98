import TreeProver.Bytes.Hex

/-!
# 32-byte words

A word is the common currency of the library: a digest, a tree node, a commitment and the written
form of a curve coordinate are all words. Read as one big-endian number a word is a natural number
below `2 ^ 256`. `Word.truncate` keeps the low bits of that number.
-/

namespace TreeProver

/-- Exactly 32 bytes. -/
structure Word where
  bytes : Bytes
  length_bytes : bytes.length = 32
  deriving DecidableEq

namespace Word

/-- The number of bytes in a word. -/
def size : Nat := 32

/-- Words with the same bytes are equal. -/
@[ext] theorem ext {a b : Word} (h : a.bytes = b.bytes) : a = b := by
  cases a
  cases b
  cases h
  rfl

/-- The word made of the given bytes, if there are 32 of them. -/
def ofBytes? (bs : Bytes) : Option Word :=
  if h : bs.length = 32 then some ⟨bs, h⟩ else none

/-- The big-endian word of a number, reduced modulo `2 ^ 256`. -/
def ofNat (n : Nat) : Word := ⟨Bytes.ofNatBE 32 n, Bytes.length_ofNatBE 32 n⟩

/-- The big-endian number that a word spells. -/
def toNat (w : Word) : Nat := Bytes.toNatBE w.bytes

/-- Lower-case hexadecimal text, without a mark in front. -/
def toHex (w : Word) : String := Hex.encode w.bytes

instance : Inhabited Word := ⟨ofNat 0⟩

/-- A byte of a value whose first `cleared` bits are set to zero, when the byte starts at bit
`start` of that value. -/
def clearByte (cleared start : Nat) (b : UInt8) : UInt8 :=
  if start + 8 ≤ cleared then 0
  else if start < cleared then UInt8.ofNat (b.toNat % 2 ^ (8 - (cleared - start)))
  else b

/-- The bytes of a value with its first `cleared` bits set to zero, from bit `start` on. -/
def clearFrom (cleared start : Nat) : Bytes → Bytes
  | [] => []
  | b :: bs => clearByte cleared start b :: clearFrom cleared (start + 8) bs

/-- Clearing keeps the number of bytes. -/
@[simp] theorem length_clearFrom (cleared start : Nat) (bs : Bytes) :
    (clearFrom cleared start bs).length = bs.length := by
  induction bs generalizing start with
  | nil => rfl
  | cons b bs ih => simp [clearFrom, ih]

/-- The word with all but its low `bits` bits cleared. A width past 256 keeps every bit. -/
def truncate (w : Word) (bits : Nat) : Word :=
  ⟨clearFrom (256 - min bits 256) 0 w.bytes, by simp [w.length_bytes]⟩

end Word

end TreeProver
