import TreeProver.Bytes

/-!
# Octets

An octet is eight things in the places of the bits of a byte, the least significant first. The bits
of a byte are an octet of truth values, and a byte inside a circuit is an octet of wires.
-/

namespace TreeProver

/-- Eight things in the places of the bits of a byte. -/
structure Octet (α : Type) where
  b0 : α
  b1 : α
  b2 : α
  b3 : α
  b4 : α
  b5 : α
  b6 : α
  b7 : α
  deriving DecidableEq, Repr

namespace Octet

variable {α β γ : Type}

/-- The same thing in every place. -/
def replicate (a : α) : Octet α := ⟨a, a, a, a, a, a, a, a⟩

/-- The eight things, the least significant first. -/
def toList (o : Octet α) : List α := [o.b0, o.b1, o.b2, o.b3, o.b4, o.b5, o.b6, o.b7]

/-- Applies a function in every place. -/
def map (f : α → β) (o : Octet α) : Octet β :=
  ⟨f o.b0, f o.b1, f o.b2, f o.b3, f o.b4, f o.b5, f o.b6, f o.b7⟩

/-- Applies a function of two arguments in every place. -/
def zipWith (f : α → β → γ) (o : Octet α) (p : Octet β) : Octet γ :=
  ⟨f o.b0 p.b0, f o.b1 p.b1, f o.b2 p.b2, f o.b3 p.b3, f o.b4 p.b4, f o.b5 p.b5, f o.b6 p.b6,
    f o.b7 p.b7⟩

/-- Runs an action in every place, the least significant first. -/
def mapM {m : Type → Type} [Monad m] (f : α → m β) (o : Octet α) : m (Octet β) := do
  let b0 ← f o.b0
  let b1 ← f o.b1
  let b2 ← f o.b2
  let b3 ← f o.b3
  let b4 ← f o.b4
  let b5 ← f o.b5
  let b6 ← f o.b6
  let b7 ← f o.b7
  pure ⟨b0, b1, b2, b3, b4, b5, b6, b7⟩

/-- The bits of a byte. -/
def ofByte (b : UInt8) : Octet Bool :=
  let bit (i : Nat) : Bool := b.toNat.testBit i
  ⟨bit 0, bit 1, bit 2, bit 3, bit 4, bit 5, bit 6, bit 7⟩

/-- The number that a list of bits spells, the least significant first. -/
def bitsToNat : List Bool → Nat
  | [] => 0
  | b :: bs => b.toNat + 2 * bitsToNat bs

/-- The byte with the given bits. -/
def toByte (o : Octet Bool) : UInt8 := UInt8.ofNat (bitsToNat o.toList)

/-- The byte of its own bits. -/
theorem toByte_ofByte (b : UInt8) : toByte (ofByte b) = b := by
  have h : ∀ n : Fin 256, toByte (ofByte (UInt8.ofNat n.val)) = UInt8.ofNat n.val := by
    decide +kernel
  simpa using h ⟨b.toNat, b.toNat_lt⟩

/-- The bits of the byte that they spell. -/
theorem ofByte_toByte (o : Octet Bool) : ofByte (toByte o) = o := by
  obtain ⟨b0, b1, b2, b3, b4, b5, b6, b7⟩ := o
  cases b0 <;> cases b1 <;> cases b2 <;> cases b3 <;> cases b4 <;> cases b5 <;> cases b6 <;>
    cases b7 <;> rfl

end Octet

end TreeProver
