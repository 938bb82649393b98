import TreeProver.Groth16.Prove
import TreeProver.Proof.Coordinate

/-!
# Proofs as they are exchanged

A proof is eight coordinates and the commitments to the input and the output that it speaks of. It
has three written forms: raw bytes (eight words), calldata (raw bytes and both commitments) and
JSON. `Proof.ofPoints` writes down the points of a proof, and `Proof.toPoints` accepts exactly the
coordinates that it writes: least residues of points of the two groups, with the identity written
as zeros.
-/

namespace TreeProver

/-- A proof in exchanged form. -/
structure Proof where
  /-- The coordinates of `A`. -/
  a : CoordinatePair
  /-- The coordinates of `B`, each with the imaginary part first. -/
  b : CoordinatePair × CoordinatePair
  /-- The coordinates of `C`. -/
  c : CoordinatePair
  inputHash : Word
  outputHash : Word
  deriving DecidableEq

namespace Proof

/-- The number of bytes of the eight coordinates. -/
def rawSize : Nat := 256

/-- The number of bytes of the coordinates and the commitments. -/
def calldataSize : Nat := 320

/-- The coordinates of a point of the first group; zeros for the identity. -/
def coordinates1 : G1 → CoordinatePair
  | .identity => (⟨0⟩, ⟨0⟩)
  | .affine x y => (.ofFq x, .ofFq y)

/-- The coordinates of a point of the second group; zeros for the identity. -/
def coordinates2 : G2 → CoordinatePair × CoordinatePair
  | .identity => ((⟨0⟩, ⟨0⟩), (⟨0⟩, ⟨0⟩))
  | .affine x y => ((.ofFq x.c1, .ofFq x.c0), (.ofFq y.c1, .ofFq y.c0))

/-- The exchanged form of a proof for two commitments. -/
def ofPoints (p : Groth16.Points) (inputHash outputHash : Word) : Proof :=
  ⟨coordinates1 p.a, coordinates2 p.b, coordinates1 p.c, inputHash, outputHash⟩

/-- The point of the first group with the given coordinates. -/
def point1 (name : String) (p : CoordinatePair) : Except Error G1 := do
  let x ← p.1.toFq
  let y ← p.2.toFq
  if x = 0 ∧ y = 0 then .ok .identity
  else if G1.isMember (.affine x y) then .ok (.affine x y)
  else .error (.malformedProof s!"{name} is not a point of G1")

/-- The point of the second group with the given coordinates. -/
def point2 (p : CoordinatePair × CoordinatePair) : Except Error G2 := do
  let x0 ← p.1.2.toFq
  let x1 ← p.1.1.toFq
  let y0 ← p.2.2.toFq
  let y1 ← p.2.1.toFq
  if x0 = 0 ∧ x1 = 0 ∧ y0 = 0 ∧ y1 = 0 then .ok .identity
  else if G2.isMember (.affine ⟨x0, x1⟩ ⟨y0, y1⟩) then .ok (.affine ⟨x0, x1⟩ ⟨y0, y1⟩)
  else .error (.malformedProof "B is not a point of G2")

/-- The points of a proof. -/
def toPoints (p : Proof) : Except Error Groth16.Points := do
  let a ← point1 "A" p.a
  let b ← point2 p.b
  let c ← point1 "C" p.c
  .ok ⟨a, b, c⟩

/-- The eight coordinates in the order of the raw form. -/
def coordinates (p : Proof) : List Coordinate :=
  [p.a.1, p.a.2, p.b.1.1, p.b.1.2, p.b.2.1, p.b.2.2, p.c.1, p.c.2]

/-- The raw form. -/
def toRaw (p : Proof) : Except Error Bytes := do
  let words ← p.coordinates.mapM Coordinate.toWord
  .ok (words.flatMap Word.bytes)

/-- The calldata form. -/
def toCalldata (p : Proof) : Except Error Bytes := do
  .ok ((← p.toRaw) ++ p.inputHash.bytes ++ p.outputHash.bytes)

/-- The field elements that are written for a point of the first group; zeros for the identity. -/
def elements1 : G1 → List Fq
  | .identity => [0, 0]
  | .affine x y => [x, y]

/-- The field elements that are written for a point of the second group, the imaginary parts first;
zeros for the identity. -/
def elements2 : G2 → List Fq
  | .identity => [0, 0, 0, 0]
  | .affine x y => [x.c1, x.c0, y.c1, y.c0]

/-- The raw form of points: a word for each of their field elements, in order. -/
def rawOfPoints (p : Groth16.Points) : Bytes :=
  (elements1 p.a ++ elements2 p.b ++ elements1 p.c).flatMap fun x ↦ (Word.ofNat x.val).bytes

/-- The number spelled by the word at a position of a byte string, counted in words. -/
def coordinateAt (bs : Bytes) (i : Nat) : Coordinate :=
  ⟨Bytes.toNatBE ((bs.drop (Word.size * i)).take Word.size)⟩

/-- The proof with the given coordinates, in the order of the raw form. -/
def ofRaw (raw : Bytes) (inputHash outputHash : Word) : Except Error Proof :=
  if raw.length ≠ rawSize then .error (.invalidLength "raw proof" rawSize raw.length)
  else
    let c := coordinateAt raw
    .ok ⟨(c 0, c 1), ((c 2, c 3), (c 4, c 5)), (c 6, c 7), inputHash, outputHash⟩

/-- The proof with the given calldata. -/
def ofCalldata (bs : Bytes) : Except Error Proof :=
  if h : bs.length = calldataSize then
    let inputHash : Word := ⟨(bs.drop rawSize).take 32, by
      simp [h, calldataSize, rawSize]⟩
    let outputHash : Word := ⟨bs.drop (rawSize + 32), by
      simp [h, calldataSize, rawSize]⟩
    ofRaw (bs.take rawSize) inputHash outputHash
  else .error (.invalidLength "calldata" calldataSize bs.length)

/-- The fields of a proof that have been read. -/
structure Fields where
  a : Option CoordinatePair
  b : Option (CoordinatePair × CoordinatePair)
  c : Option CoordinatePair
  inputHash : Option Word
  outputHash : Option Word

/-- The fields of a proof in order. -/
def slots : List (Json.Slot Fields) :=
  [.kept "a" Fields.a (fun s x ↦ { s with a := some x }) CoordinatePair.json,
    .kept "b" Fields.b (fun s x ↦ { s with b := some x }) CoordinatePair.jsonTwice,
    .kept "c" Fields.c (fun s x ↦ { s with c := some x }) CoordinatePair.json,
    .kept "inputHash" Fields.inputHash (fun s x ↦ { s with inputHash := some x }) Word.json,
    .kept "outputHash" Fields.outputHash (fun s x ↦ { s with outputHash := some x }) Word.json]

/-- The proof with the given fields, none of which may be missing. -/
def ofFields (s : Fields) : Except Json.Fault Proof := do
  let a ← Json.required "a" s.a
  let b ← Json.required "b" s.b
  let c ← Json.required "c" s.c
  let inputHash ← Json.required "inputHash" s.inputHash
  let outputHash ← Json.required "outputHash" s.outputHash
  .ok ⟨a, b, c, inputHash, outputHash⟩

/-- A proof in a JSON text. -/
def json : Json.Reader Proof :=
  Json.record "Groth16Proof" slots ⟨none, none, none, none, none⟩ ofFields

/-- The proof that a JSON text holds. -/
def parse (text : String) : Except Error Proof :=
  match Json.parse json text with
  | .ok p => .ok p
  | .error e => .error (.json .proof e.message)

/-- The JSON form of a proof. -/
def toJson (p : Proof) : Json :=
  .object
    [("a", CoordinatePair.toJson p.a), ("b", CoordinatePair.twiceToJson p.b),
      ("c", CoordinatePair.toJson p.c), ("inputHash", p.inputHash.toJson),
      ("outputHash", p.outputHash.toJson)]

/-- The JSON text of a proof. -/
def format (p : Proof) : String := p.toJson.pretty

end Proof

end TreeProver
