import TreeProver.Decimal.Shortest

/-!
# JSON numbers

A number without a fraction and an exponent is an integer as long as it fits 64 bits; every other
number is a real. A real is read digit by digit into a 64-bit significand and a power of ten, which
are then rounded one after the other; digits past the capacity of the significand only move the
power. Minus zero is a real.
-/

namespace TreeProver.Json

/-- A number as it is read. -/
inductive Number where
  /-- A non-negative integer below `2 ^ 64`. -/
  | natural (n : Nat)
  /-- The negative of a positive integer up to `2 ^ 63`. -/
  | negative (n : Nat)
  /-- A real with a sign. -/
  | real (minus : Bool) (magnitude : Binary64)
  deriving DecidableEq, Repr

namespace Number

/-- The largest power of ten, as an exponent, that one rounding step takes. -/
def maxTenfold : Nat := 308

/-- The magnitude of a significand times a power of ten: a power that is too small for one step is
taken in several, each rounded. Has no result when the magnitude is past the largest one; `steps`
bounds the number of steps. -/
def scaleTen? : (steps : Nat) → Binary64 → Int → Option Binary64
  | 0, _, _ => some Binary64.zero
  | steps + 1, x, exponent =>
    if x.units = 0 then some x
    else if 0 ≤ exponent then
      if exponent ≤ maxTenfold then do
        x.mul? (← Binary64.ofNat? (10 ^ exponent.toNat))
      else none
    else if -exponent ≤ maxTenfold then do
      x.div? (← Binary64.ofNat? (10 ^ (-exponent).toNat))
    else do
      let smaller ← x.div? (← Binary64.ofNat? (10 ^ maxTenfold))
      scaleTen? steps smaller (exponent + maxTenfold)

/-- The magnitude of a significand and a power of ten. Three steps take any magnitude to zero. -/
def magnitude? (significand : Nat) (exponent : Int) : Option Binary64 := do
  scaleTen? 4 (← Binary64.ofNat? significand) exponent

/-- The number of a whole significand with a sign. -/
def ofWhole (minus : Bool) (significand : Nat) : Number :=
  if minus then
    if significand = 0 then .real true Binary64.zero
    else if significand ≤ 2 ^ (63 : Nat) then .negative significand
    else .real true ((Binary64.ofNat? significand).getD Binary64.zero)
  else .natural significand

/-- Appends a digit to a significand while it fits 64 bits. -/
def pushDigit? (significand digit : Nat) : Option Nat :=
  let n := 10 * significand + digit
  if n < UInt64.size then some n else none

/-- The value of a decimal digit. -/
def digit? (c : Char) : Option Nat :=
  if '0' ≤ c ∧ c ≤ '9' then some (c.toNat - '0'.toNat) else none

/-- Whether a character is a decimal digit. -/
def isDigit (c : Char) : Bool := (digit? c).isSome

/-- Reads digits into a significand. Gives the digits that no longer fit and what follows. -/
def pushDigits (significand count : Nat) : List Char → Nat × Nat × List Char
  | [] => (significand, count, [])
  | c :: cs =>
    match digit? c with
    | none => (significand, count, c :: cs)
    | some d =>
      match pushDigit? significand d with
      | some n => pushDigits n (count + 1) cs
      | none => (significand, count, c :: cs)

/-- The largest 32-bit exponent; longer ones are past it whatever follows. -/
def maxExponent : Nat := 2 ^ (31 : Nat) - 1

/-- The value of a digit sequence, none when it is past the largest exponent. -/
def exponent? (digits : List Char) : Option Nat :=
  digits.foldl (fun acc c ↦ do
    let n := 10 * (← acc) + (← digit? c)
    if n ≤ maxExponent then some n else none) (some 0)

/-- A real from its parts. The exponent has a sign of its own and may be too long to be used. -/
def ofParts? (minus : Bool) (significand : Nat) (scale : Int) (exponentMinus : Bool)
    (exponentDigits : List Char) : Option Number :=
  match exponent? exponentDigits with
  | some e =>
    let e : Int := if exponentMinus then scale - e else scale + e
    (magnitude? significand e).map (.real minus)
  | none =>
    if significand ≠ 0 ∧ !exponentMinus then none else some (.real minus Binary64.zero)

/-- The optional exponent of a real whose digits have been read. -/
def readExponent? (minus : Bool) (significand : Nat) (scale : Int) (cs : List Char) :
    Option (Number × List Char) :=
  let finish (exponentMinus : Bool) (cs : List Char) : Option (Number × List Char) :=
    let digits := cs.takeWhile isDigit
    if digits.isEmpty then none
    else (ofParts? minus significand scale exponentMinus digits).map
      fun n ↦ (n, cs.dropWhile isDigit)
  match cs with
  | 'e' :: rest | 'E' :: rest =>
    match rest with
    | '+' :: rest => finish false rest
    | '-' :: rest => finish true rest
    | rest => finish false rest
  | cs => (magnitude? significand scale).map fun x ↦ (.real minus x, cs)

/-- The fraction of a real, behind its point, and the exponent. -/
def readFraction? (minus : Bool) (significand : Nat) (scale : Int) (cs : List Char) :
    Option (Number × List Char) :=
  if (cs.takeWhile isDigit).isEmpty then none
  else
    let (significand, count, rest) := pushDigits significand 0 cs
    readExponent? minus significand (scale - count) (rest.dropWhile isDigit)

/-- What follows the whole part of a number. -/
def readTail? (minus : Bool) (significand : Nat) (cs : List Char) : Option (Number × List Char) :=
  match cs with
  | '.' :: rest => readFraction? minus significand 0 rest
  | 'e' :: _ | 'E' :: _ => readExponent? minus significand 0 cs
  | cs => some (ofWhole minus significand, cs)

/-- A number behind its sign. -/
def readUnsigned? (minus : Bool) : List Char → Option (Number × List Char)
  | '0' :: cs =>
    match cs with
    | c :: _ => if isDigit c then none else readTail? minus 0 cs
    | [] => readTail? minus 0 []
  | c :: cs =>
    if isDigit c then
      let (significand, _, rest) := pushDigits 0 0 (c :: cs)
      let extra := rest.takeWhile isDigit
      if extra.isEmpty then readTail? minus significand rest
      else
        match rest.dropWhile isDigit with
        | '.' :: rest => readFraction? minus significand extra.length rest
        | rest => readExponent? minus significand extra.length rest
    else none
  | [] => none

/-- A number at the front of a text. -/
def read? : List Char → Option (Number × List Char)
  | '-' :: cs => readUnsigned? true cs
  | cs => readUnsigned? false cs

/-- The text of a whole number in decimal. -/
def decimal (n : Nat) : List Char := Nat.toDigits 10 n

/-- The text of a magnitude: its shortest digits, with the point among them when the leading digit
stands between the sixth and the sixteenth place, else with an exponent. -/
def realText (x : Binary64) : List Char :=
  let d := x.shortest
  let digits := decimal d.digits
  let length : Int := digits.length
  let leading : Int := length + d.exponent
  if x.units = 0 then ['0', '.', '0']
  else if 0 ≤ d.exponent ∧ leading ≤ 16 then
    digits ++ List.replicate d.exponent.toNat '0' ++ ['.', '0']
  else if 0 < leading ∧ leading ≤ 16 then
    digits.take leading.toNat ++ '.' :: digits.drop leading.toNat
  else if -5 < leading ∧ leading ≤ 0 then
    '0' :: '.' :: List.replicate (-leading).toNat '0' ++ digits
  else
    let mantissa :=
      match digits with
      | c :: [] => [c]
      | c :: rest => c :: '.' :: rest
      | [] => []
    let e := leading - 1
    mantissa ++ 'e' :: (if e < 0 then '-' else '+') :: decimal e.natAbs

/-- What a number is called in a message. -/
def describe : Number → String
  | natural n => s!"integer `{n}`"
  | negative n => s!"integer `-{n}`"
  | real minus x =>
    let digits := if minus then '-' :: realText x else realText x
    s!"floating point `{String.ofList digits}`"

end Number

end TreeProver.Json
