import TreeProver.Binary
import TreeProver.Curve.Groups

/-!
# Compressed points

A point is written as its first coordinate alone. The two top bits of the last byte, which no
coordinate uses, say whether the second coordinate is the larger of its two possible values and
whether the point is the identity.
-/

namespace TreeProver

/-- What the top bits of the last byte say about a point. -/
inductive PointMark where
  | smaller
  | larger
  | identity
  deriving DecidableEq

namespace PointMark

/-- What the lower of the two top bits counts for in the number that 32 bytes write. -/
def unit : Nat := 2 ^ (254 : Nat)

/-- The top bits as a number. -/
def bits : PointMark → Nat
  | .smaller => 0
  | .larger => 2
  | .identity => 1

/-- The mark with the given top bits; both bits together are no mark. -/
def ofBits? : Nat → Option PointMark
  | 0 => some .smaller
  | 1 => some .identity
  | 2 => some .larger
  | _ => none

end PointMark

/-- A coordinate with nothing but zeros in its top bits. -/
def encodeFq (x : Fq) : Bytes := Bytes.ofNatLE 32 x.val

/-- A coordinate whose last byte carries a mark. -/
def encodeMarked (x : Fq) (mark : PointMark) : Bytes :=
  Bytes.ofNatLE 32 (x.val + PointMark.unit * mark.bits)

/-- A coordinate without a mark. -/
def readFq : Reader Fq := fun bs ↦ do
  let (n, rest) ← Reader.number 32 bs
  match Residue.ofNat? n with
  | some x => .ok (x, rest)
  | none => .error .invalidData

/-- A coordinate and the mark in its last byte. -/
def readMarked : Reader (Fq × PointMark) := fun bs ↦ do
  let (n, rest) ← Reader.number 32 bs
  match PointMark.ofBits? (n / PointMark.unit) with
  | none => .error .unexpectedFlags
  | some mark =>
    match Residue.ofNat? (n % PointMark.unit) with
    | some x => .ok ((x, mark), rest)
    | none => .error .invalidData

namespace G1

/-- The compressed form of a point. -/
def encode : G1 → Bytes
  | .identity => encodeMarked 0 .identity
  | .affine x y => encodeMarked x (if Residue.isLarger y then .larger else .smaller)

/-- A compressed point. Every point of this curve belongs to the group. -/
def read : Reader G1 := fun bs ↦ do
  let ((x, mark), rest) ← readMarked bs
  if mark = .identity then .ok (.identity, rest)
  else
    match Point.ofX? constant x (mark = .larger) with
    | some p => .ok (p, rest)
    | none => .error .invalidData

end G1

namespace G2

/-- The compressed form of a point. -/
def encode : G2 → Bytes
  | .identity => encodeFq 0 ++ encodeMarked 0 .identity
  | .affine x y =>
    encodeFq x.c0 ++ encodeMarked x.c1 (if Fq2.isLarger y then .larger else .smaller)

/-- A compressed point of the curve, which may lie outside the subgroup. -/
def readOnCurve : Reader G2 := fun bs ↦ do
  let (c0, rest) ← readFq bs
  let ((c1, mark), rest) ← readMarked rest
  if mark = .identity then .ok (.identity, rest)
  else
    match Point.ofX? constant ⟨c0, c1⟩ (mark = .larger) with
    | some p => .ok (p, rest)
    | none => .error .invalidData

/-- A compressed point of the subgroup. -/
def read : Reader G2 := Reader.checked readOnCurve isMember

/-- A list of compressed points; the subgroup is checked after the last of them is read. -/
def readList : Reader (List G2) := Reader.checked (Reader.list readOnCurve) (·.all isMember)

end G2

end TreeProver
