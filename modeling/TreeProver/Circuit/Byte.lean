import TreeProver.Circuit.Bit
import TreeProver.Tree.Gindex

/-!
# Bytes inside a circuit

Byte strings, 32-byte nodes and 64-bit indices inside a circuit. A comparison of bytes packs each
byte into one number, so it takes one gate per byte; bytes that consist of constants only are not
compared at all.
-/

namespace TreeProver.Circuit

namespace Byte

/-- A constant byte. -/
def constant (b : UInt8) : Byte := (Octet.ofByte b).map .constant

/-- Whether everybody knows the byte. -/
def isConstant (b : Byte) : Bool := b.toList.all Bit.isConstant

/-- The bits of a value that may be missing. -/
def optionalBits : Option UInt8 → Octet (Option Bool)
  | some b => (Octet.ofByte b).map some
  | none => Octet.replicate none

/-- A byte of the given value. -/
def alloc (how : Allocation) (value : Option UInt8) : Synth Byte :=
  (optionalBits value).mapM (Bit.alloc how)

/-- The byte with the bits flipped in which a mask has ones. -/
def mask (m : UInt8) (b : Byte) : Byte := Octet.zipWith Bit.flip (Octet.ofByte m) b

/-- One of two bytes, as a bit says. -/
def select (which : Bit) (yes no : Byte) : Synth Byte :=
  (Octet.zipWith Prod.mk yes no).mapM fun p ↦ Bit.select which p.1 p.2

/-- A byte as a number. -/
def form (b : Byte) : Form := Bit.sum b.toList

/-- Demands that two bytes are equal, unless both are constants. -/
def demandEqual (a b : Byte) : Synth Unit :=
  if a.isConstant && b.isConstant then pure () else Synth.equate a.form b.form

/-- The values of a byte string that may be missing as a whole. -/
def optionalBytes (length : Nat) : Option Bytes → List (Option UInt8)
  | some bs => bs.map some
  | none => List.replicate length none

/-- Bytes of the given values, of which there have to be as many as asked for. -/
def allocAll (how : Allocation) (length : Nat) (values : Option Bytes) : Synth (List Byte) := do
  if let some bs := values then
    if bs.length ≠ length then
      throw (.invalidLength "byte allocation" length bs.length)
  (optionalBytes length values).mapM (alloc how)

/-- Demands that byte strings of equal length are equal. -/
def demandAllEqual (as bs : List Byte) : Synth Unit := do
  if as.length ≠ bs.length then
    throw (.invalidLength "byte comparison" as.length bs.length)
  (as.zip bs).forM fun p ↦ demandEqual p.1 p.2

end Byte

/-- A tree node inside a circuit: exactly 32 bytes. -/
structure Node where
  bytes : List Byte
  length_bytes : bytes.length = 32
  deriving DecidableEq

namespace Node

/-- The node made of the given bytes, of which there have to be 32. -/
def ofBytes (bs : List Byte) : Except Error Node :=
  if h : bs.length = 32 then .ok ⟨bs, h⟩
  else .error (.invalidLength "digest" Word.size bs.length)

/-- A constant node. -/
def constant (w : Word) : Node := ⟨w.bytes.map Byte.constant, by simp [w.length_bytes]⟩

/-- A node of the given value. -/
def alloc (how : Allocation) (value : Option Word) : Synth Node := do
  ofBytes (← Byte.allocAll how Word.size (value.map Word.bytes))

/-- One of two nodes, as a bit says. -/
def select (which : Bit) (yes no : Node) : Synth Node := do
  ofBytes (← (yes.bytes.zip no.bytes).mapM fun p ↦ Byte.select which p.1 p.2)

/-- Demands that two nodes are equal. -/
def demandEqual (a b : Node) : Synth Unit := Byte.demandAllEqual a.bytes b.bytes

end Node

/-- A generalized index inside a circuit: exactly 64 bits, the least significant first. -/
structure Index where
  bits : List Bit
  length_bits : bits.length = 64
  deriving DecidableEq

namespace Index

/-- The number of bytes of an index. -/
def size : Nat := 8

/-- The index with the given low bits; bits that are not given are zero. -/
def ofBits (bits : List Bit) : Index :=
  ⟨(bits ++ List.replicate 64 (Bit.constant false)).take 64, by simp⟩

/-- The index that at most eight bytes spell, the most significant first. -/
def ofBytes (bs : List Byte) : Except Error Index :=
  if bs.length ≤ size then .ok (ofBits (bs.reverse.flatMap Octet.toList))
  else .error (.invalidLength "u64" size bs.length)

/-- An index of the given value. -/
def alloc (how : Allocation) (value : Option UInt64) : Synth Index := do
  let bytes := Byte.optionalBytes size (value.map fun g ↦ Bytes.ofNatLE size g.toNat)
  let octets ← bytes.mapM (Byte.alloc how)
  pure (ofBits (octets.flatMap Octet.toList))

/-- The value of an index, if all its bits have values. -/
def value? (s : Layout) (x : Index) : Option UInt64 :=
  (x.bits.mapM s.bit?).map fun bits ↦ UInt64.ofNat (Octet.bitsToNat bits)

end Index

end TreeProver.Circuit
