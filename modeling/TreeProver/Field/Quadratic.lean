import TreeProver.Field.Prime

/-!
# The quadratic extension

`Fq2` adjoins a square root `u` of minus one to the coordinate field. It is the field of the
coordinates of the second curve group.
-/

namespace TreeProver

/-- The element `c0 + c1 * u`. -/
structure Fq2 where
  c0 : Fq
  c1 : Fq
  deriving DecidableEq

namespace Fq2

/-- An element of the coordinate field. -/
def ofBase (a : Fq) : Fq2 := ⟨a, 0⟩

instance : Inhabited Fq2 := ⟨⟨0, 0⟩⟩

instance : Zero Fq2 := ⟨⟨0, 0⟩⟩

instance : One Fq2 := ⟨⟨1, 0⟩⟩

instance : Add Fq2 := ⟨fun a b ↦ ⟨a.c0 + b.c0, a.c1 + b.c1⟩⟩

instance : Sub Fq2 := ⟨fun a b ↦ ⟨a.c0 - b.c0, a.c1 - b.c1⟩⟩

instance : Neg Fq2 := ⟨fun a ↦ ⟨-a.c0, -a.c1⟩⟩

instance : Mul Fq2 :=
  ⟨fun a b ↦ ⟨a.c0 * b.c0 - a.c1 * b.c1, a.c0 * b.c1 + a.c1 * b.c0⟩⟩

/-- The element with its `u` part negated. -/
def conj (a : Fq2) : Fq2 := ⟨a.c0, -a.c1⟩

/-- The product of an element and its conjugate, which lies in the coordinate field. -/
def norm (a : Fq2) : Fq := a.c0 * a.c0 + a.c1 * a.c1

/-- Multiplication by an element of the coordinate field. -/
def scale (a : Fq2) (k : Fq) : Fq2 := ⟨k * a.c0, k * a.c1⟩

/-- The multiplicative inverse; the inverse of zero is zero. -/
def inv (a : Fq2) : Fq2 := a.conj.scale (Residue.inv a.norm)

/-- The root whose real part squares to `t`, of an element with a `u` part. -/
def rootWith (a : Fq2) (t : Fq) : Option Fq2 := do
  let x ← Residue.sqrt? t
  let s : Fq2 := ⟨x, a.c1 * Residue.inv (x + x)⟩
  if s * s = a then some s else none

/-- A square root. An element of the coordinate field has a root there or a root that is a multiple
of `u`; otherwise the real part of a root squares to half the sum of the real part and a root of the
norm. -/
def sqrt? (a : Fq2) : Option Fq2 :=
  if a.c1 = 0 then
    match Residue.sqrt? a.c0 with
    | some s => some ⟨s, 0⟩
    | none => (Residue.sqrt? (-a.c0)).map fun s ↦ ⟨0, s⟩
  else do
    let n ← Residue.sqrt? a.norm
    let half : Fq := Residue.inv 2
    (rootWith a ((a.c0 + n) * half)).or (rootWith a ((a.c0 - n) * half))

/-- Whether an element is the larger of itself and its negative, by the `u` part first. -/
def isLarger (a : Fq2) : Bool :=
  if a.c1 = 0 then Residue.isLarger a.c0 else Residue.isLarger a.c1

end Fq2

end TreeProver
