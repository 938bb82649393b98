import TreeProver.Bytes

/-!
# Binary artifacts

Artifacts are written as fixed-width little-endian numbers and as lists that start with their
length. A `Reader` takes a value off the front of a byte string and gives the rest, or says why it
cannot; it never looks past what it takes, so what follows an artifact does not matter.
-/

namespace TreeProver

/-- Why a byte string is not the written form of a value. -/
inductive DecodeError where
  /-- The last byte has no room for its marks. -/
  | notEnoughSpace
  /-- The bytes are those of no value. -/
  | invalidData
  /-- Marks that exclude each other are both set. -/
  | unexpectedFlags
  /-- The bytes end too early. -/
  | endOfInput
  deriving DecidableEq, Repr

/-- The wording of a decoding failure. -/
def DecodeError.message : DecodeError → String
  | .notEnoughSpace => "the last byte does not have enough space to encode the extra info bits"
  | .invalidData => "the input buffer contained invalid data"
  | .unexpectedFlags => "the call expects empty flags"
  | .endOfInput =>
    "I/O error: Error \x7b kind: UnexpectedEof, message: \"failed to fill whole buffer\" \x7d"

/-- Takes a value off the front of a byte string. -/
abbrev Reader (α : Type) := Bytes → Except DecodeError (α × Bytes)

namespace Reader

variable {α : Type}

/-- The next `count` bytes. -/
def take (count : Nat) : Reader Bytes := fun bs ↦
  let taken := bs.take count
  if taken.length < count then .error .endOfInput else .ok (taken, bs.drop count)

/-- A little-endian number of the given width. -/
def number (width : Nat) : Reader Nat := fun bs ↦ do
  let (taken, rest) ← take width bs
  .ok (Bytes.toNatLE taken, rest)

/-- A number of eight bytes, as all counts and positions are. -/
def count : Reader Nat := number 8

/-- A fixed number of values, put behind those already read, which are in reverse order. -/
def manyOnto (read : Reader α) : (count : Nat) → List α → Reader (List α)
  | 0, acc, bs => .ok (acc.reverse, bs)
  | count + 1, acc, bs =>
    match read bs with
    | .error e => .error e
    | .ok (value, rest) => manyOnto read count (value :: acc) rest

/-- A fixed number of values. -/
def many (read : Reader α) (count : Nat) : Reader (List α) := manyOnto read count []

/-- A length and then that many values. -/
def list (read : Reader α) : Reader (List α) := fun bs ↦ do
  let (length, rest) ← count bs
  many read length rest

/-- A value that has to pass a test. -/
def checked (read : Reader α) (test : α → Bool) : Reader α := fun bs ↦ do
  let (value, rest) ← read bs
  if test value then .ok (value, rest) else .error .invalidData

/-- The value at the front of a byte string, whatever follows it. -/
def run (read : Reader α) (bs : Bytes) : Except DecodeError α := (read bs).map Prod.fst

end Reader

/-- The written form of a count or a position. -/
def encodeCount (n : Nat) : Bytes := Bytes.ofNatLE 8 n

/-- The written form of a list: its length, then its elements. -/
def encodeList {α : Type} (encode : α → Bytes) (xs : List α) : Bytes :=
  encodeCount xs.length ++ xs.flatMap encode

end TreeProver
