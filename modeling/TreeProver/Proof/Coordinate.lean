import TreeProver.Error
import TreeProver.Field.Prime
import TreeProver.Word.Hex

/-!
# Written coordinates

A proof is exchanged as numbers that claim to be coordinates. A `Coordinate` may be any natural
number: whether it fits into a word, and whether it is the least residue of a field element, is
decided only when the proof is used.
-/

namespace TreeProver

/-- A number that claims to be a coordinate. -/
structure Coordinate where
  value : Nat
  deriving DecidableEq, Inhabited

namespace Coordinate

/-- The coordinate that a word spells. -/
def ofWord (w : Word) : Coordinate := ⟨w.toNat⟩

/-- The coordinate of a field element. -/
def ofFq (x : Fq) : Coordinate := ⟨x.val⟩

/-- The number of base-256 digits of a number; zero has one. -/
def byteWidth (n : Nat) : Nat := if n = 0 then 1 else n.log2 / 8 + 1

/-- The word that spells a coordinate, if it is not too wide for one. -/
def toWord (c : Coordinate) : Except Error Word :=
  if byteWidth c.value ≤ Word.size then .ok (Word.ofNat c.value)
  else .error (.malformedProof s!"coordinate is {byteWidth c.value} bytes wide")

/-- The field element with a coordinate, which has to be its least residue. -/
def toFq (c : Coordinate) : Except Error Fq := do
  let word ← c.toWord
  match Residue.ofNat? c.value with
  | some x => .ok x
  | none =>
    .error (.malformedProof s!"coordinate 0x{word.toHex} is not below the base field modulus")

/-- The number spelled by hexadecimal digits behind those already read; underscores between digits
do not count. -/
def digitsOnto : (n : Nat) → List Char → Option Nat
  | n, [] => some n
  | n, '_' :: rest => digitsOnto n rest
  | n, c :: rest => do
    let d ← Hex.digit? c
    digitsOnto (16 * n + d) rest

/-- A text without one plus sign in front; two of them stay. -/
def dropPlus : List Char → List Char
  | '+' :: '+' :: rest => '+' :: '+' :: rest
  | '+' :: rest => rest
  | cs => cs

/-- The number that a text without mark and sign spells. -/
def ofDigits? : List Char → Option Nat
  | [] => none
  | '_' :: _ => none
  | cs => digitsOnto 0 cs

/-- The coordinate that a text spells. -/
def parse (cs : List Char) : Except String Coordinate :=
  match ofDigits? (dropPlus (Hex.dropMark cs)) with
  | some n => .ok ⟨n⟩
  | none => .error s!"invalid hex coordinate: {String.ofList cs}"

/-- The hexadecimal digits of a number, filled up with zeros to sixty-four. -/
def paddedDigits (n : Nat) : List Char :=
  let digits := Nat.toDigits 16 n
  List.replicate (64 - digits.length) '0' ++ digits

/-- The written form of a coordinate. -/
def format (c : Coordinate) : String := "0x" ++ String.ofList (paddedDigits c.value)

/-- A coordinate in a JSON text. -/
def json : Json.Reader Coordinate := Json.converted Json.string parse

/-- The JSON form of a coordinate. -/
def toJson (c : Coordinate) : Json := .text c.format

end Coordinate

/-- Two coordinates: those of a point of the first group, or the two parts of one coordinate of a
point of the second group, the imaginary part first. -/
abbrev CoordinatePair := Coordinate × Coordinate

namespace CoordinatePair

/-- A pair of coordinates in a JSON text. -/
def json : Json.Reader CoordinatePair := Json.pair Coordinate.json

/-- The JSON form of a pair of coordinates. -/
def toJson (p : CoordinatePair) : Json := .list [p.1.toJson, p.2.toJson]

/-- Two pairs of coordinates in a JSON text. -/
def jsonTwice : Json.Reader (CoordinatePair × CoordinatePair) := Json.pair json

/-- The JSON form of two pairs of coordinates. -/
def twiceToJson (p : CoordinatePair × CoordinatePair) : Json := .list [toJson p.1, toJson p.2]

end CoordinatePair

end TreeProver
