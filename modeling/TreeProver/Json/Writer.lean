import TreeProver.Text.Quoted

/-!
# Writing JSON

Written values are texts, whole numbers, lists and objects whose keys keep their order. The written
form puts every element and every key on a line of its own, two blanks further in than the bracket
around it.
-/

namespace TreeProver

/-- A value to be written as JSON. -/
inductive Json where
  | text (s : String)
  | number (n : Nat)
  | list (xs : List Json)
  | object (fields : List (String × Json))

namespace Json

/-- A character inside a JSON string. -/
def writeChar (c : Char) : List Char :=
  if c = '"' then ['\\', '"']
  else if c = '\\' then ['\\', '\\']
  else if c = '\x08' then ['\\', 'b']
  else if c = '\x0c' then ['\\', 'f']
  else if c = '\n' then ['\\', 'n']
  else if c = '\r' then ['\\', 'r']
  else if c = '\t' then ['\\', 't']
  else if c.toNat < 0x20 then
    ['\\', 'u', '0', '0', Hex.digit (c.toNat / 16), Hex.digit (c.toNat % 16)]
  else [c]

/-- A JSON string. -/
def writeString (s : String) : List Char := '"' :: s.toList.flatMap writeChar ++ ['"']

/-- A new line with the given number of steps of indentation. -/
def newLine (depth : Nat) : List Char := '\n' :: List.replicate (2 * depth) ' '

mutual

/-- The written form of a value that stands at a depth of brackets. -/
def write (depth : Nat) : Json → List Char
  | text s => writeString s
  | number n => Nat.toDigits 10 n
  | list [] => ['[', ']']
  | list (x :: xs) =>
    '[' :: newLine (depth + 1) ++ write (depth + 1) x ++ writeElements (depth + 1) xs
      ++ newLine depth ++ [']']
  | object [] => ['\x7b', '\x7d']
  | object ((key, x) :: fields) =>
    '\x7b' :: newLine (depth + 1) ++ writeString key ++ [':', ' '] ++ write (depth + 1) x
      ++ writeFields (depth + 1) fields ++ newLine depth ++ ['\x7d']

/-- The elements of a list that follow the first. -/
def writeElements (depth : Nat) : List Json → List Char
  | [] => []
  | x :: xs => ',' :: newLine depth ++ write depth x ++ writeElements depth xs

/-- The fields of an object that follow the first. -/
def writeFields (depth : Nat) : List (String × Json) → List Char
  | [] => []
  | (key, x) :: fields =>
    ',' :: newLine depth ++ writeString key ++ [':', ' '] ++ write depth x
      ++ writeFields depth fields

end

/-- The written form of a value, without a line end behind it. -/
def pretty (x : Json) : String := String.ofList (write 0 x)

end Json

end TreeProver
