import TreeProver.Bytes.Hex
import TreeProver.Decimal.Binary64
import TreeProver.Toml.Value

/-!
# Reading TOML

A `Reader` takes a part of a document off the front of a text and gives the rest, or fails. `parse`
reads a whole document into its root table. Arrays and inline tables nest less than eighty deep, and
dotted keys have fewer than eighty parts.
-/

namespace TreeProver.Toml

/-- Takes a part of a document off the front of a text. -/
abbrev Reader (α : Type) := List Char → Option (α × List Char)

/-- The bound on the nesting of values and on the parts of keys. -/
def maxDepth : Nat := 80

/-- Whether a character may stand between the parts of a line. -/
def isBlank (c : Char) : Bool := c = ' ' ∨ c = '\t'

/-- A text without the blanks at its front. -/
def skipBlanks (cs : List Char) : List Char := cs.dropWhile isBlank

/-- Whether a character may stand in comments and strings as it is. -/
def isPlain (c : Char) : Bool := c = '\t' ∨ (' ' ≤ c ∧ c ≠ '\x7f')

/-- What follows a line end. -/
def newLine? : List Char → Option (List Char)
  | '\n' :: rest | '\r' :: '\n' :: rest => some rest
  | _ => none

/-- A text without the comment at its front. -/
def skipComment : List Char → List Char
  | '#' :: rest => rest.dropWhile isPlain
  | cs => cs

/-- What follows the line whose last part has been read. -/
def endLine? (cs : List Char) : Option (List Char) :=
  match skipComment (skipBlanks cs) with
  | [] => some []
  | cs => newLine? cs

/-- A text without the blanks, line ends and comments at its front. Each step takes a line end, so
`steps` is bounded by the length of the text. -/
def skipGaps : (steps : Nat) → List Char → List Char
  | 0, cs => cs
  | steps + 1, cs =>
    let cs := skipBlanks cs
    match newLine? (skipComment cs) with
    | some rest => skipGaps steps rest
    | none => cs

/-- A text without the gaps at its front. -/
def skipAllGaps (cs : List Char) : List Char := skipGaps cs.length cs

/-- The character that a one-letter escape stands for. -/
def escaped? : Char → Option Char
  | 'b' => some '\x08'
  | 't' => some '\t'
  | 'n' => some '\n'
  | 'f' => some '\x0c'
  | 'r' => some '\r'
  | '"' => some '"'
  | '\\' => some '\\'
  | _ => none

/-- The character whose number is spelled by hexadecimal digits. -/
def numbered? (digits : List Char) : Option Char := do
  let n ← digits.foldl (fun acc c ↦ do some (16 * (← acc) + (← Hex.digit? c))) (some 0)
  if n.isValidChar then some (Char.ofNat n) else none

/-- A string behind its opening quote, put onto the characters read so far, which are in reverse
order. -/
def basicOnto (acc : List Char) : Reader String
  | '"' :: rest => some (String.ofList acc.reverse, rest)
  | '\\' :: 'u' :: a :: b :: c :: d :: rest =>
    match numbered? [a, b, c, d] with
    | some x => basicOnto (x :: acc) rest
    | none => none
  | '\\' :: 'U' :: a :: b :: c :: d :: e :: f :: g :: h :: rest =>
    match numbered? [a, b, c, d, e, f, g, h] with
    | some x => basicOnto (x :: acc) rest
    | none => none
  | '\\' :: c :: rest =>
    match escaped? c with
    | some x => basicOnto (x :: acc) rest
    | none => none
  | c :: rest => if isPlain c then basicOnto (c :: acc) rest else none
  | [] => none

/-- A string without escapes behind its opening quote. -/
def literal (cs : List Char) : Option (String × List Char) :=
  match cs.dropWhile fun c ↦ isPlain c && c ≠ '\'' with
  | '\'' :: rest =>
    some (String.ofList (cs.takeWhile fun c ↦ isPlain c && c ≠ '\''), rest)
  | _ => none

/-- The end of a string of several lines behind three quotes: up to two more quotes belong to the
string. -/
def closing (quote : Char) (acc : List Char) : List Char → String × List Char
  | a :: b :: rest =>
    if a = quote then
      if b = quote then (String.ofList (quote :: quote :: acc).reverse, rest)
      else (String.ofList (quote :: acc).reverse, b :: rest)
    else (String.ofList acc.reverse, a :: b :: rest)
  | [a] =>
    if a = quote then (String.ofList (quote :: acc).reverse, [])
    else (String.ofList acc.reverse, [a])
  | [] => (String.ofList acc.reverse, [])

/-- Where in a string of several lines a character stands. -/
inductive Margin where
  | inside
  /-- Behind a backslash that ends a line: only blanks up to the line end. -/
  | lineEnd
  /-- Behind such a line end: blanks and line ends do not count. -/
  | indentation
  deriving DecidableEq

/-- A string of several lines behind its opening quotes. -/
def basicLinesOnto (acc : List Char) (margin : Margin) : Reader String
  | [] => none
  | '\r' :: '\n' :: rest =>
    match margin with
    | .inside => basicLinesOnto ('\n' :: acc) .inside rest
    | .lineEnd | .indentation => basicLinesOnto acc .indentation rest
  | '\n' :: rest =>
    match margin with
    | .inside => basicLinesOnto ('\n' :: acc) .inside rest
    | .lineEnd | .indentation => basicLinesOnto acc .indentation rest
  | ' ' :: rest =>
    if margin = .inside then basicLinesOnto (' ' :: acc) .inside rest
    else basicLinesOnto acc margin rest
  | '\t' :: rest =>
    if margin = .inside then basicLinesOnto ('\t' :: acc) .inside rest
    else basicLinesOnto acc margin rest
  | '"' :: '"' :: '"' :: rest => if margin = .lineEnd then none else some (closing '"' acc rest)
  | '\\' :: 'u' :: a :: b :: c :: d :: rest =>
    match numbered? [a, b, c, d] with
    | some x => if margin = .lineEnd then none else basicLinesOnto (x :: acc) .inside rest
    | none => none
  | '\\' :: 'U' :: a :: b :: c :: d :: e :: f :: g :: h :: rest =>
    match numbered? [a, b, c, d, e, f, g, h] with
    | some x => if margin = .lineEnd then none else basicLinesOnto (x :: acc) .inside rest
    | none => none
  | '\\' :: '\n' :: rest =>
    if margin = .lineEnd then none else basicLinesOnto acc .indentation rest
  | '\\' :: '\r' :: '\n' :: rest =>
    if margin = .lineEnd then none else basicLinesOnto acc .indentation rest
  | '\\' :: c :: rest =>
    if margin = .lineEnd then none
    else if isBlank c then basicLinesOnto acc .lineEnd rest
    else
      match escaped? c with
      | some x => basicLinesOnto (x :: acc) .inside rest
      | none => none
  | c :: rest =>
    if margin ≠ .lineEnd ∧ isPlain c then basicLinesOnto (c :: acc) .inside rest else none

/-- A string of several lines without escapes behind its opening quotes. -/
def literalLinesOnto (acc : List Char) : Reader String
  | [] => none
  | '\r' :: '\n' :: rest => literalLinesOnto ('\n' :: acc) rest
  | '\n' :: rest => literalLinesOnto ('\n' :: acc) rest
  | '\'' :: '\'' :: '\'' :: rest => some (closing '\'' acc rest)
  | c :: rest => if isPlain c then literalLinesOnto (c :: acc) rest else none

/-- A text without a line end at its front. -/
def skipNewLine (cs : List Char) : List Char := (newLine? cs).getD cs

/-- A string of any of the four forms. -/
def string : Reader String
  | '"' :: '"' :: '"' :: rest => basicLinesOnto [] .inside (skipNewLine rest)
  | '"' :: rest => basicOnto [] rest
  | '\'' :: '\'' :: '\'' :: rest => literalLinesOnto [] (skipNewLine rest)
  | '\'' :: rest => literal rest
  | _ => none

/-- Whether a character may stand in a key without quotes. -/
def isBare (c : Char) : Bool := c.isAlphanum || c = '_' || c = '-'

/-- One part of a key. -/
def keyPart : Reader String
  | '"' :: rest => basicOnto [] rest
  | '\'' :: rest => literal rest
  | cs =>
    match cs.takeWhile isBare with
    | [] => none
    | part => some (String.ofList part, cs.dropWhile isBare)

/-- The parts of a key with blanks around them. -/
def keyParts : (steps : Nat) → Reader (List String)
  | 0, _ => none
  | steps + 1, cs => do
    let (part, rest) ← keyPart (skipBlanks cs)
    match skipBlanks rest with
    | '.' :: rest => do
      let (parts, rest) ← keyParts steps rest
      some (part :: parts, rest)
    | rest => some ([part], rest)

/-- A key. -/
def key : Reader (List String) := keyParts (maxDepth - 1)

/-- Whether a character is a decimal digit. -/
def isDigit (c : Char) : Bool := '0' ≤ c ∧ c ≤ '9'

/-- Digits and single underscores between them, put onto the digits read so far, which are in
reverse order. -/
def digitsOnto (accept : Char → Bool) (acc : List Char) : List Char → List Char × List Char
  | '_' :: c :: rest =>
    if accept c then digitsOnto accept (c :: acc) rest else (acc.reverse, '_' :: c :: rest)
  | c :: rest => if accept c then digitsOnto accept (c :: acc) rest else (acc.reverse, c :: rest)
  | [] => (acc.reverse, [])

/-- One digit or more, with single underscores between them. -/
def digits (accept : Char → Bool) : Reader (List Char)
  | c :: rest => if accept c then some (digitsOnto accept [c] rest) else none
  | [] => none

/-- The digits of a whole number, which starts with a zero only if that is all of it. -/
def wholeDigits : Reader (List Char)
  | '0' :: rest => some (['0'], rest)
  | cs => digits isDigit cs

/-- The number that digits spell in a base of at most sixteen. -/
def valueOf (base : Nat) (digits : List Char) : Nat :=
  digits.foldl (fun n c ↦ base * n + (Hex.digit? c).getD 0) 0

/-- An optional sign: whether it is a minus. -/
def sign : List Char → Bool × List Char
  | '+' :: rest => (false, rest)
  | '-' :: rest => (true, rest)
  | cs => (false, cs)

/-- An integer of 64 bits. -/
def ofMagnitude? (minus : Bool) (n : Nat) : Option Value :=
  if minus then
    if n ≤ 2 ^ (63 : Nat) then some (.integer (-(n : Int))) else none
  else if n < 2 ^ (63 : Nat) then some (.integer n) else none

/-- Whether a character is a digit in a base of at most sixteen. -/
def isDigitOf (base : Nat) (c : Char) : Bool :=
  match Hex.digit? c with
  | some d => decide (d < base)
  | none => false

/-- An integer in a base other than ten. -/
def inBase (base : Nat) : Reader Value := fun cs ↦ do
  let (ds, rest) ← digits (isDigitOf base) cs
  some (← ofMagnitude? false (valueOf base ds), rest)

/-- An integer. -/
def integer : Reader Value
  | '0' :: 'x' :: rest => inBase 16 rest
  | '0' :: 'o' :: rest => inBase 8 rest
  | '0' :: 'b' :: rest => inBase 2 rest
  | cs => do
    let (minus, rest) := sign cs
    let (ds, rest) ← wholeDigits rest
    some (← ofMagnitude? minus (valueOf 10 ds), rest)

/-- Whether a decimal is past the largest magnitude of double precision. -/
def isInfinite (ds : List Char) (exponent : Int) : Bool :=
  let n := valueOf 10 ds
  let width : Int := (Nat.toDigits 10 n).length + exponent
  if n = 0 ∨ width < 308 then false
  else if 310 < width then true
  else
    match exponent with
    | .ofNat k => (Binary64.ofRatio? (n * 10 ^ k) 1).isNone
    | .negSucc k => (Binary64.ofRatio? n (10 ^ (k + 1))).isNone

/-- An optional exponent. -/
def exponent : Reader (Option Int)
  | 'e' :: rest | 'E' :: rest => do
    let (minus, rest) := sign rest
    let (ds, rest) ← digits isDigit rest
    let n : Int := valueOf 10 ds
    some (some (if minus then -n else n), rest)
  | cs => some (none, cs)

/-- The fraction and the exponent of a number, of which there has to be one: the digits of the
fraction and the power of ten. -/
def fraction : Reader (List Char × Int)
  | '.' :: rest => do
    let (ds, rest) ← digits isDigit rest
    let (e, rest) ← exponent rest
    some ((ds, e.getD 0), rest)
  | cs => do
    match ← exponent cs with
    | (some e, rest) => some (([], e), rest)
    | (none, _) => none

/-- A number that is not an integer. One that is too large is refused, unless it is negative. -/
def real : Reader Value := fun cs ↦
  let (minus, rest) := sign cs
  match rest with
  | 'i' :: 'n' :: 'f' :: rest | 'n' :: 'a' :: 'n' :: rest => some (.real, rest)
  | rest => do
    let (whole, rest) ← wholeDigits rest
    let ((ds, e), rest) ← fraction rest
    if !minus && isInfinite (whole ++ ds) (e - ds.length) then none else some (.real, rest)

/-- A number of exactly two digits in a range. -/
def twoDigits (lo hi : Nat) : Reader Nat
  | a :: b :: rest =>
    let n := valueOf 10 [a, b]
    if isDigit a ∧ isDigit b ∧ lo ≤ n ∧ n ≤ hi then some (n, rest) else none
  | _ => none

/-- What follows a fixed character. -/
def expect (c : Char) : List Char → Option (List Char)
  | d :: rest => if c = d then some rest else none
  | [] => none

/-- The number of days of a month. -/
def daysIn (year month : Nat) : Nat :=
  if month = 2 then
    if year % 4 = 0 ∧ (year % 100 ≠ 0 ∨ year % 400 = 0) then 29 else 28
  else if month = 4 ∨ month = 6 ∨ month = 9 ∨ month = 11 then 30
  else 31

/-- What follows a date. -/
def date : List Char → Option (List Char)
  | a :: b :: c :: d :: '-' :: rest =>
    if [a, b, c, d].all isDigit then do
      let (month, rest) ← twoDigits 1 12 rest
      let (_, rest) ← twoDigits 1 (daysIn (valueOf 10 [a, b, c, d]) month) (← expect '-' rest)
      some rest
    else none
  | _ => none

/-- What follows a time of day. -/
def time (cs : List Char) : Option (List Char) := do
  let (_, rest) ← twoDigits 0 23 cs
  let (_, rest) ← twoDigits 0 59 (← expect ':' rest)
  let (_, rest) ← twoDigits 0 60 (← expect ':' rest)
  match rest with
  | '.' :: rest => if (rest.takeWhile isDigit).isEmpty then none else some (rest.dropWhile isDigit)
  | rest => some rest

/-- What follows an optional distance from universal time. -/
def offset : List Char → Option (List Char)
  | 'Z' :: rest | 'z' :: rest => some rest
  | '+' :: rest | '-' :: rest => do
    let (_, rest) ← twoDigits 0 23 rest
    let (_, rest) ← twoDigits 0 59 (← expect ':' rest)
    some rest
  | cs => some cs

/-- What follows a date that may be followed by a time. -/
def dateAndTime (cs : List Char) : Option (List Char) := do
  let rest ← date cs
  match rest with
  | 'T' :: after | 't' :: after => do offset (← time after)
  | ' ' :: after =>
    match time after with
    | some after => offset after
    | none => some rest
  | rest => some rest

/-- A date, a time or both. -/
def moment (cs : List Char) : Option (Value × List Char) :=
  ((dateAndTime cs).or (time cs)).map fun rest ↦ (.moment, rest)

/-- A value that contains no other values. -/
def scalar : Reader Value
  | 't' :: 'r' :: 'u' :: 'e' :: rest => some (.boolean true, rest)
  | 'f' :: 'a' :: 'l' :: 's' :: 'e' :: rest => some (.boolean false, rest)
  | '"' :: rest => do
    let (s, rest) ← string ('"' :: rest)
    some (.text s, rest)
  | '\'' :: rest => do
    let (s, rest) ← string ('\'' :: rest)
    some (.text s, rest)
  | cs => (moment cs).or ((real cs).or (integer cs))

/-- The elements of an array behind its opening bracket. Every element takes a character, so `steps`
is bounded by the length of the text. -/
def elements (value : Reader Value) : (steps : Nat) → List Value → Reader (List Value)
  | 0, _, _ => none
  | steps + 1, acc, cs =>
    match skipAllGaps cs with
    | ']' :: rest => some (acc.reverse, rest)
    | cs => do
      let (v, rest) ← value cs
      match skipAllGaps rest with
      | ',' :: rest => elements value steps (v :: acc) rest
      | ']' :: rest => some ((v :: acc).reverse, rest)
      | _ => none

/-- A key and its value. -/
def assignment (value : Reader Value) : Reader (List String × Value) := fun cs ↦ do
  let (path, rest) ← key cs
  let rest ← expect '=' rest
  let (v, rest) ← value (skipBlanks rest)
  some ((path, v), rest)

/-- The fields of an inline table behind its opening brace. -/
def inlineFields (value : Reader Value) : (steps : Nat) → Fields → Reader Fields
  | 0, _, _ => none
  | steps + 1, fields, cs => do
    let ((path, v), rest) ← assignment value cs
    let fields ← fields.add path.dropLast (path.getLastD "") v
    match skipBlanks rest with
    | ',' :: rest => inlineFields value steps fields rest
    | '\x7d' :: rest => some (fields, rest)
    | _ => none

/-- A value that nests arrays and inline tables at most `depth` deep. -/
def valueWithin : (depth : Nat) → Reader Value
  | 0, cs => scalar cs
  | depth + 1, cs =>
    match cs with
    | '[' :: rest => do
      let (xs, rest) ← elements (valueWithin depth) (rest.length + 1) [] rest
      some (.array xs, rest)
    | '\x7b' :: rest =>
      match skipBlanks rest with
      | '\x7d' :: rest => some (.table .braces [], rest)
      | rest => do
        let (fields, rest) ← inlineFields (valueWithin depth) (rest.length + 1) [] rest
        some (.table .braces fields, rest)
    | cs => scalar cs

/-- A value. -/
def value : Reader Value := valueWithin (maxDepth - 1)

/-- What a line does to a document, and the lines behind it. -/
def line (d : Draft) (cs : List Char) : Option (Draft × List Char) :=
  match skipBlanks cs with
  | '[' :: '[' :: rest => do
    let (header, rest) ← key rest
    let rest ← endLine? (← expect ']' (← expect ']' rest))
    some (← d.openElement header, rest)
  | '[' :: rest => do
    let (header, rest) ← key rest
    let rest ← endLine? (← expect ']' rest)
    some (← d.openTable header, rest)
  | cs =>
    match endLine? cs with
    | some rest => some (d, rest)
    | none => do
      let ((path, v), rest) ← assignment value cs
      let d ← d.add path.dropLast (path.getLastD "") v
      some (d, ← endLine? rest)

/-- The lines of a document. Every line takes a character, so `steps` is bounded by the length of
the text. -/
def lines : (steps : Nat) → Draft → List Char → Option Draft
  | 0, _, _ => none
  | _ + 1, d, [] => some d
  | steps + 1, d, cs =>
    match line d cs with
    | some (d, rest) => lines steps d rest
    | none => none

/-- A text without the mark that some editors put in front. -/
def skipMark : List Char → List Char
  | '\ufeff' :: rest => rest
  | cs => cs

/-- The root table of a document. -/
def parse (text : String) : Option Fields := do
  let cs := skipMark text.toList
  (← lines (cs.length + 1) Draft.empty cs).finish

end TreeProver.Toml
