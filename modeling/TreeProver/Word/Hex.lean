import TreeProver.Json.Reader
import TreeProver.Json.Writer
import TreeProver.Word

/-!
# Written words

In JSON a word is sixty-four hexadecimal digits of either case, with or without `0x` in front; it is
written with `0x` and lower-case digits. Complaints count bytes, so a text is looked at in its UTF-8
form.
-/

namespace TreeProver

namespace Hex

/-- A text without one `0x` in front. -/
def dropMark : List Char → List Char
  | '0' :: 'x' :: rest => rest
  | cs => cs

/-- The UTF-8 form of a text. -/
def utf8 (cs : List Char) : Bytes := cs.flatMap String.utf8EncodeChar

/-- The digit that a byte of a text spells; a byte that is no digit is named with its position. -/
def digitAt (position : Nat) (b : UInt8) : Except String Nat :=
  let c := Char.ofNat b.toNat
  match digit? c with
  | some d => .ok d
  | none => .error s!"Invalid character {Text.quotedChar c} at position {position}"

/-- The bytes spelled by pairs of digits from a position on. -/
def bytesFrom (position : Nat) : Bytes → Except String Bytes
  | hi :: lo :: rest => do
    let h ← digitAt position hi
    let l ← digitAt (position + 1) lo
    let bs ← bytesFrom (position + 2) rest
    .ok (UInt8.ofNat (16 * h + l) :: bs)
  | _ => .ok []

end Hex

namespace Word

/-- The word that a text spells. -/
def parse (cs : List Char) : Except String Word := do
  let digits := Hex.utf8 (Hex.dropMark cs)
  if digits.length % 2 ≠ 0 then .error "Odd number of digits"
  else if digits.length ≠ 2 * size then .error "Invalid string length"
  else
    match ofBytes? (← Hex.bytesFrom 0 digits) with
    | some w => .ok w
    | none => .error "Invalid string length"

/-- The written form of a word. -/
def format (w : Word) : String := "0x" ++ w.toHex

/-- A word in a JSON text. -/
def json : Json.Reader Word := Json.converted Json.string parse

/-- A list of words in a JSON text; the texts are all read before the first is converted. -/
def jsonList : Json.Reader (List Word) :=
  Json.converted (Json.array Json.string) (List.mapM parse)

/-- The JSON form of a word. -/
def toJson (w : Word) : Json := .text w.format

end Word

end TreeProver
