import TreeProver.Json.Number
import TreeProver.Text.Quoted

/-!
# Reading JSON

A text is read from front to back into a value of a known shape, and the first problem met is the
one reported: a text that is not JSON is `malformed`, and a value of another shape is named in the
message. A `Reader` takes a value off the front of a text and gives the rest. An object reader goes
through the keys as they come; a key it does not know is skipped with its value, and missing keys
are reported when the object is closed. A structure may also be written as the array of its fields.
-/

namespace TreeProver.Json

/-- Why a text is not the JSON form of a value. -/
inductive Fault where
  /-- The text is not JSON, or holds more than one value. -/
  | malformed
  /-- The text is JSON of another shape. -/
  | mismatch (text : String)
  deriving DecidableEq, Repr

/-- The wording of a reading failure. -/
def Fault.message : Fault → String
  | malformed => "malformed JSON"
  | mismatch text => text

/-- Takes a value off the front of a text. -/
abbrev Reader (α : Type) := List Char → Except Fault (α × List Char)

/-- Whether a character may stand between the parts of a JSON text. -/
def isBlank (c : Char) : Bool := c = ' ' ∨ c = '\n' ∨ c = '\t' ∨ c = '\r'

/-- A text without the blanks at its front. -/
def skipBlanks (cs : List Char) : List Char := cs.dropWhile isBlank

/-- The text behind a fixed one. -/
def expect : (fixed : List Char) → List Char → Except Fault (List Char)
  | [], cs => .ok cs
  | f :: fixed, c :: cs => if f = c then expect fixed cs else .error .malformed
  | _ :: _, [] => .error .malformed

/-- The number spelled by four hexadecimal digits. -/
def hex4? (a b c d : Char) : Option Nat := do
  let a ← Hex.digit? a
  let b ← Hex.digit? b
  let c ← Hex.digit? c
  let d ← Hex.digit? d
  some (((16 * a + b) * 16 + c) * 16 + d)

/-- The character that a one-letter escape stands for. -/
def escaped? : Char → Option Char
  | '"' => some '"'
  | '\\' => some '\\'
  | '/' => some '/'
  | 'b' => some '\x08'
  | 'f' => some '\x0c'
  | 'n' => some '\n'
  | 'r' => some '\r'
  | 't' => some '\t'
  | _ => none

/-- The first code unit that is half of a pair, and the first that is the other half. -/
def leadingHalf : Nat := 0xd800

/-- The first code unit that is the second half of a pair. -/
def trailingHalf : Nat := 0xdc00

/-- The character of a pair of code units. -/
def pairChar (leading trailing : Nat) : Char :=
  Char.ofNat (0x10000 + (leading - leadingHalf) * 0x400 + (trailing - trailingHalf))

/-- The rest of a string behind its opening quote, put onto the characters read so far, which are in
reverse order. A code unit that is half of a pair has to be followed by the other half. -/
def stringOnto (acc : List Char) : Reader (List Char)
  | '"' :: rest => .ok (acc.reverse, rest)
  | '\\' :: 'u' :: a :: b :: c :: d :: rest =>
    match hex4? a b c d with
    | none => .error .malformed
    | some n =>
      if n < leadingHalf ∨ trailingHalf + 0x400 ≤ n then stringOnto (Char.ofNat n :: acc) rest
      else if trailingHalf ≤ n then .error .malformed
      else
        match rest with
        | '\\' :: 'u' :: e :: f :: g :: h :: rest =>
          match hex4? e f g h with
          | none => .error .malformed
          | some m =>
            if trailingHalf ≤ m ∧ m < trailingHalf + 0x400 then
              stringOnto (pairChar n m :: acc) rest
            else .error .malformed
        | _ => .error .malformed
  | '\\' :: c :: rest =>
    match escaped? c with
    | some c => stringOnto (c :: acc) rest
    | none => .error .malformed
  | c :: rest => if c.toNat < 0x20 then .error .malformed else stringOnto (c :: acc) rest
  | [] => .error .malformed

/-- The rest of a string behind its opening quote. -/
def readString : Reader (List Char) := stringOnto []

/-- What follows a string of which only the opening quote has been read. Code units are not paired
in a string that nobody reads. -/
def skipString : List Char → Except Fault (List Char)
  | '"' :: rest => .ok rest
  | '\\' :: 'u' :: a :: b :: c :: d :: rest =>
    match hex4? a b c d with
    | some _ => skipString rest
    | none => .error .malformed
  | '\\' :: c :: rest =>
    match escaped? c with
    | some _ => skipString rest
    | none => .error .malformed
  | c :: rest => if c.toNat < 0x20 then .error .malformed else skipString rest
  | [] => .error .malformed

/-- What follows one digit or more. -/
def skipDigits (cs : List Char) : Except Fault (List Char) :=
  if (cs.takeWhile Number.isDigit).isEmpty then .error .malformed
  else .ok (cs.dropWhile Number.isDigit)

/-- What follows an optional exponent. -/
def skipExponent : List Char → Except Fault (List Char)
  | 'e' :: rest | 'E' :: rest =>
    match rest with
    | '+' :: rest | '-' :: rest => skipDigits rest
    | rest => skipDigits rest
  | cs => .ok cs

/-- What follows an optional fraction and an optional exponent. -/
def skipFraction : List Char → Except Fault (List Char)
  | '.' :: rest => do skipExponent (← skipDigits rest)
  | cs => skipExponent cs

/-- What follows a number behind its sign. A number that nobody reads may have any size. -/
def skipUnsigned : List Char → Except Fault (List Char)
  | '0' :: rest =>
    match rest with
    | c :: _ => if Number.isDigit c then .error .malformed else skipFraction rest
    | [] => .ok []
  | cs => do skipFraction (← skipDigits cs)

/-- What follows a value that is neither an array nor an object. -/
def skipAtom : List Char → Except Fault (List Char)
  | '"' :: rest => skipString rest
  | 'n' :: rest => expect ['u', 'l', 'l'] rest
  | 't' :: rest => expect ['r', 'u', 'e'] rest
  | 'f' :: rest => expect ['a', 'l', 's', 'e'] rest
  | '-' :: rest => skipUnsigned rest
  | cs => skipUnsigned cs

/-- A bracket that is still open. -/
inductive Bracket where
  | array
  | object

/-- What may come next in a value that is skipped. -/
inductive Expecting where
  | value
  | key
  | delimiter

/-- What follows a value, whose open brackets are given innermost first. Every step but the last
takes a character, so `steps` is bounded by the length of the text. -/
def skipNested : (steps : Nat) → List Bracket → Expecting → List Char → Except Fault (List Char)
  | 0, _, _, _ => .error .malformed
  | steps + 1, opened, .value, cs =>
    match skipBlanks cs with
    | '[' :: rest =>
      match skipBlanks rest with
      | ']' :: rest => skipNested steps opened .delimiter rest
      | rest => skipNested steps (.array :: opened) .value rest
    | '\x7b' :: rest =>
      match skipBlanks rest with
      | '\x7d' :: rest => skipNested steps opened .delimiter rest
      | rest => skipNested steps (.object :: opened) .key rest
    | cs =>
      match skipAtom cs with
      | .ok rest => skipNested steps opened .delimiter rest
      | .error e => .error e
  | steps + 1, opened, .key, cs =>
    match skipBlanks cs with
    | '"' :: rest =>
      match skipString rest with
      | .error e => .error e
      | .ok rest =>
        match skipBlanks rest with
        | ':' :: rest => skipNested steps opened .value rest
        | _ => .error .malformed
    | _ => .error .malformed
  | _ + 1, [], .delimiter, cs => .ok cs
  | steps + 1, .array :: opened, .delimiter, cs =>
    match skipBlanks cs with
    | ',' :: rest => skipNested steps (.array :: opened) .value rest
    | ']' :: rest => skipNested steps opened .delimiter rest
    | _ => .error .malformed
  | steps + 1, .object :: opened, .delimiter, cs =>
    match skipBlanks cs with
    | ',' :: rest => skipNested steps (.object :: opened) .key rest
    | '\x7d' :: rest => skipNested steps opened .delimiter rest
    | _ => .error .malformed

/-- What follows a value of any shape. -/
def skipValue (cs : List Char) : Except Fault (List Char) :=
  skipNested (cs.length + 2) [] .value cs

/-- The failure for a value of the wrong shape: what is there, and what should be. A value that is
not even JSON is malformed. -/
def wrongShape (expected : String) (cs : List Char) : Fault :=
  let found (text : String) : Fault := .mismatch s!"invalid type: {text}, expected {expected}"
  let literal (fixed rest : List Char) (text : String) : Fault :=
    match expect fixed rest with
    | .ok _ => found text
    | .error e => e
  match cs with
  | '[' :: _ => found "sequence"
  | '\x7b' :: _ => found "map"
  | 'n' :: rest => literal ['u', 'l', 'l'] rest "null"
  | 't' :: rest => literal ['r', 'u', 'e'] rest "boolean `true`"
  | 'f' :: rest => literal ['a', 'l', 's', 'e'] rest "boolean `false`"
  | '"' :: rest =>
    match readString rest with
    | .ok (text, _) => found s!"string {Text.quoted (String.ofList text)}"
    | .error e => e
  | cs =>
    match Number.read? cs with
    | some (n, _) => found n.describe
    | none => .malformed

/-- A string. -/
def string : Reader (List Char) := fun cs ↦
  match skipBlanks cs with
  | '"' :: rest => readString rest
  | cs => .error (wrongShape "a string" cs)

/-- An integer of 64 bits. -/
def uint64 : Reader UInt64 := fun cs ↦
  match skipBlanks cs with
  | '"' :: rest => .error (wrongShape "u64" ('"' :: rest))
  | cs =>
    match Number.read? cs with
    | some (.natural n, rest) => .ok (UInt64.ofNat n, rest)
    | some (.negative n, _) =>
      .error (.mismatch s!"invalid value: {(Number.negative n).describe}, expected u64")
    | _ => .error (wrongShape "u64" cs)

/-- A value that is converted after it has been read. -/
def converted {α β : Type} (read : Reader α) (convert : α → Except String β) : Reader β := fun cs ↦
  match read cs with
  | .error e => .error e
  | .ok (x, rest) =>
    match convert x with
    | .ok y => .ok (y, rest)
    | .error text => .error (.mismatch text)

/-- What comes next in an array of which something may have been read: an element, or the end. -/
def nextElement? (first : Bool) (cs : List Char) : Except Fault (Option (List Char)) :=
  match skipBlanks cs with
  | ']' :: _ => .ok none
  | ',' :: rest =>
    if first then .ok (some (',' :: rest))
    else
      match skipBlanks rest with
      | ']' :: _ | [] => .error .malformed
      | rest => .ok (some rest)
  | [] => .error .malformed
  | rest => if first then .ok (some rest) else .error .malformed

/-- What follows the end of an array. -/
def endArray (cs : List Char) : Except Fault (List Char) := expect [']'] (skipBlanks cs)

/-- The elements of an array behind its opening bracket, put onto those already read, which are in
reverse order. Every element takes a character, so `steps` is bounded by the length of the text. -/
def elementsOnto {α : Type} (read : Reader α) : (steps : Nat) → List α → Reader (List α)
  | 0, _, _ => .error .malformed
  | steps + 1, acc, cs =>
    match nextElement? acc.isEmpty cs with
    | .error e => .error e
    | .ok none =>
      match endArray cs with
      | .ok rest => .ok (acc.reverse, rest)
      | .error e => .error e
    | .ok (some cs) =>
      match read cs with
      | .ok (x, rest) => elementsOnto read steps (x :: acc) rest
      | .error e => .error e

/-- An array of any length. -/
def array {α : Type} (read : Reader α) : Reader (List α) := fun cs ↦
  match skipBlanks cs with
  | '[' :: rest => elementsOnto read (rest.length + 1) [] rest
  | cs => .error (wrongShape "a sequence" cs)

/-- An array of two elements. -/
def pair {α : Type} (read : Reader α) : Reader (α × α) := fun cs ↦
  let tooShort (length : Nat) : Fault :=
    .mismatch s!"invalid length {length}, expected an array of length 2"
  match skipBlanks cs with
  | '[' :: rest => do
    match ← nextElement? true rest with
    | none => .error (tooShort 0)
    | some rest =>
      let (x, rest) ← read rest
      match ← nextElement? false rest with
      | none => .error (tooShort 1)
      | some rest =>
        let (y, rest) ← read rest
        .ok ((x, y), ← endArray rest)
  | cs => .error (wrongShape "an array of length 2" cs)

/-- A field of a structure that is being read into `σ`, where fields that have not been met are
still missing. -/
structure Slot (σ : Type) where
  name : String
  isFilled : σ → Bool
  fill : σ → Reader σ

/-- A field that is kept as an option. -/
def Slot.kept {σ α : Type} (name : String) (get : σ → Option α) (set : σ → α → σ)
    (read : Reader α) : Slot σ where
  name := name
  isFilled := fun s ↦ (get s).isSome
  fill := fun s cs ↦ do
    let (x, rest) ← read cs
    .ok (set s x, rest)

/-- What comes next in an object of which something may have been read: the text behind the opening
quote of a key, or the end. -/
def nextKey? (first : Bool) (cs : List Char) : Except Fault (Option (List Char)) :=
  match skipBlanks cs with
  | '\x7d' :: _ => .ok none
  | '"' :: rest => if first then .ok (some rest) else .error .malformed
  | ',' :: rest =>
    if first then .error .malformed
    else
      match skipBlanks rest with
      | '"' :: rest => .ok (some rest)
      | _ => .error .malformed
  | _ => .error .malformed

/-- The keys and values of an object behind its opening bracket, gathered in `s`. Every key takes a
character, so `steps` is bounded by the length of the text. -/
def gather {σ : Type} (slots : List (Slot σ)) :
    (steps : Nat) → (first : Bool) → σ → Reader σ
  | 0, _, _, _ => .error .malformed
  | steps + 1, first, s, cs =>
    match nextKey? first cs with
    | .error e => .error e
    | .ok none => .ok (s, cs)
    | .ok (some cs) =>
      match readString cs with
      | .error e => .error e
      | .ok (key, rest) =>
        match slots.find? (fun slot ↦ slot.name.toList = key) with
        | some slot =>
          if slot.isFilled s then .error (.mismatch s!"duplicate field `{slot.name}`")
          else
            match expect [':'] (skipBlanks rest) with
            | .error e => .error e
            | .ok rest =>
              match slot.fill s rest with
              | .ok (s, rest) => gather slots steps false s rest
              | .error e => .error e
        | none =>
          match expect [':'] (skipBlanks rest) with
          | .error e => .error e
          | .ok rest =>
            match skipValue rest with
            | .ok rest => gather slots steps false s rest
            | .error e => .error e

/-- The fields of a structure written as an array, behind its opening bracket. -/
def inOrder {σ : Type} (tooShort : Nat → Fault) :
    List (Slot σ) → (read : Nat) → σ → Reader σ
  | [], _, s, cs => .ok (s, cs)
  | slot :: slots, read, s, cs =>
    match nextElement? (read = 0) cs with
    | .error e => .error e
    | .ok none => .error (tooShort read)
    | .ok (some cs) =>
      match slot.fill s cs with
      | .ok (s, rest) => inOrder tooShort slots (read + 1) s rest
      | .error e => .error e

/-- A structure with the given name and fields. -/
def record {σ α : Type} (name : String) (slots : List (Slot σ)) (empty : σ)
    (finish : σ → Except Fault α) : Reader α := fun cs ↦
  match skipBlanks cs with
  | '\x7b' :: rest => do
    let (s, rest) ← gather slots (rest.length + 1) true empty rest
    let x ← finish s
    .ok (x, ← expect ['\x7d'] (skipBlanks rest))
  | '[' :: rest => do
    let elements := if slots.length = 1 then "1 element" else s!"{slots.length} elements"
    let tooShort (length : Nat) : Fault :=
      .mismatch s!"invalid length {length}, expected struct {name} with {elements}"
    let (s, rest) ← inOrder tooShort slots 0 empty rest
    let x ← finish s
    .ok (x, ← endArray rest)
  | cs => .error (wrongShape s!"struct {name}" cs)

/-- The value of a field that has to be there. -/
def required {α : Type} (name : String) : Option α → Except Fault α
  | some x => .ok x
  | none => .error (.mismatch s!"missing field `{name}`")

/-- The value that a whole text is the JSON form of. -/
def parse {α : Type} (read : Reader α) (text : String) : Except Fault α := do
  let (x, rest) ← read text.toList
  if (skipBlanks rest).isEmpty then .ok x else .error .malformed

end TreeProver.Json
