import TreeProver.Bytes.Octet
import TreeProver.Error
import TreeProver.Field.Prime
import TreeProver.Hash.Sha256

/-!
# Laying out circuits

A circuit is laid out in a `Layout`: it reserves columns, gives them values and puts gates on them.
A column is the constant one, a public input or a private witness. A gate is either a product of
two linear forms, or the statement that some bytes are the SHA-256 digest of others.

Columns and values are counted separately. A column is reserved before its value is asked for, so
a value that is missing leaves a column behind, and during key generation no column has a value.
Whatever fails keeps the layout as it was at that moment.
-/

namespace TreeProver.Circuit

/-- What a layout is made for. -/
inductive Mode where
  /-- Key generation: columns and gates without values. -/
  | setup
  /-- Proving: columns with values, and gates. -/
  | proving
  /-- Computing an output: columns with values; the gates are not looked at. -/
  | valuesOnly
  deriving DecidableEq, Repr

/-- A column of a layout. Inputs and witnesses are numbered from zero in order of reservation. -/
inductive Column where
  | one
  | input (i : Nat)
  | witness (i : Nat)
  deriving DecidableEq, Repr

/-- A sum of multiples of columns. -/
abbrev Form := List (Fr × Column)

/-- A truth value inside a circuit: known to everybody, or the value of a column or its opposite. -/
inductive Bit where
  | constant (b : Bool)
  | wire (column : Column) (negated : Bool)
  deriving DecidableEq, Repr

/-- A byte inside a circuit. -/
abbrev Byte := Octet Bit

/-- A demand on the values of columns. -/
inductive Gate where
  /-- The product of the first two forms is the third. -/
  | product (a b c : Form)
  /-- The second bytes are the SHA-256 digest of the first. -/
  | digest (message digest : List Byte)
  deriving DecidableEq

/-- A circuit in the making: its columns with their values, and its gates. -/
structure Layout where
  mode : Mode
  /-- The number of reserved public inputs, without the constant one. -/
  inputs : Nat
  /-- The number of reserved witnesses. -/
  witnesses : Nat
  /-- The values of public inputs in the order in which they were given. -/
  inputValues : Array Fr
  /-- The values of witnesses in the order in which they were given. -/
  witnessValues : Array Fr
  /-- The gates in order. -/
  gates : Array Gate

/-- A computation that lays out a part of a circuit. -/
abbrev Synth := ExceptT Error (StateM Layout)

/-- Why a layout cannot be checked. -/
inductive Unchecked where
  | missingValue
  /-- The layout was made for its values only. -/
  | gatesNotKept
  deriving DecidableEq, Repr

/-- The field element of a truth value. -/
def scalarOfBool (b : Bool) : Fr := if b then 1 else 0

namespace Form

/-- The form of a constant. -/
def constant (x : Fr) : Form := [(x, .one)]

/-- The form of a column. -/
def column (c : Column) : Form := [(1, c)]

/-- A multiple of a form. -/
def scale (k : Fr) (f : Form) : Form := f.map fun t ↦ (k * t.1, t.2)

/-- The difference of two forms. -/
def sub (f g : Form) : Form := f ++ scale (-1) g

/-- Whether a form does not depend on any value. -/
def isConstant (f : Form) : Bool := f.all fun t ↦ t.2 = .one

end Form

namespace Bit

/-- The opposite of a bit. -/
def not : Bit → Bit
  | constant b => constant !b
  | wire c negated => wire c !negated

/-- The bit, or its opposite if asked for. -/
def flip (opposite : Bool) (b : Bit) : Bit := if opposite then b.not else b

/-- A bit as a form. -/
def form : Bit → Form
  | constant b => if b then Form.constant 1 else []
  | wire c negated => if negated then (Form.constant 1).sub (Form.column c) else Form.column c

/-- Whether everybody knows the bit. -/
def isConstant : Bit → Bool
  | constant _ => true
  | wire _ _ => false

/-- A sum of bits with the weights `2 ^ start`, `2 ^ (start + 1)`, …. -/
def sumFrom (weight : Fr) : List Bit → Form
  | [] => []
  | b :: bs => b.form.scale weight ++ sumFrom (weight + weight) bs

/-- The number that bits spell, the least significant first. -/
def sum (bits : List Bit) : Form := sumFrom 1 bits

end Bit

namespace Layout

/-- A layout with nothing in it. -/
def empty (mode : Mode) : Layout := ⟨mode, 0, 0, #[], #[], #[]⟩

/-- The value of a column, if it has one. -/
def value? (s : Layout) : Column → Option Fr
  | .one => some 1
  | .input i => s.inputValues[i]?
  | .witness i => s.witnessValues[i]?

/-- The value of a form, if all its columns have values. -/
def eval? (s : Layout) : Form → Option Fr
  | [] => some 0
  | (k, c) :: f => do
    let x ← s.value? c
    let y ← s.eval? f
    some (k * x + y)

/-- The truth value of a bit, if it has one. -/
def bit? (s : Layout) : Bit → Option Bool
  | .constant b => some b
  | .wire c negated => (s.value? c).map fun x ↦ decide (x ≠ 0) != negated

/-- The value of a byte, if all its bits have values. -/
def byte? (s : Layout) (b : Byte) : Option UInt8 := (b.mapM s.bit?).map Octet.toByte

/-- The values of bytes, if all of them have values. -/
def bytes? (s : Layout) (bs : List Byte) : Option Bytes := bs.mapM s.byte?

/-- The number of columns for the constant one and the public inputs. -/
def instances (s : Layout) : Nat := s.inputs + 1

/-- Whether the values of the columns meet the demand of a gate. -/
def holds? (s : Layout) : Gate → Option Bool
  | .product a b c => do
    let x ← s.eval? a
    let y ← s.eval? b
    let z ← s.eval? c
    some (x * y = z)
  | .digest message digest => do
    let m ← s.bytes? message
    let d ← s.bytes? digest
    some ((sha256 m).bytes = d)

/-- The position, from `i` on, of the first gate whose demand is not met. -/
def firstViolatedFrom (s : Layout) (i : Nat) : List Gate → Except Unchecked (Option Nat)
  | [] => .ok none
  | g :: gs =>
    match s.holds? g with
    | none => .error .missingValue
    | some true => firstViolatedFrom s (i + 1) gs
    | some false => .ok (some i)

/-- The position of the first gate whose demand is not met. -/
def firstViolated (s : Layout) : Except Unchecked (Option Nat) :=
  match s.mode with
  | .setup => .error .missingValue
  | .proving => s.firstViolatedFrom 0 s.gates.toList
  | .valuesOnly => if s.gates.isEmpty then .ok none else .error .gatesNotKept

/-- Whether all demands are met. -/
def isSatisfied (s : Layout) : Except Unchecked Bool := s.firstViolated.map Option.isNone

end Layout

namespace Synth

/-- The failure to find a value. -/
def missing {α : Type} : Synth α := throw (.synthesis .assignmentMissing)

/-- Reserves a public input and gives it a value, except during key generation. -/
def newInput (value : Option Fr) : Synth Column := do
  let (mode, i) ← modifyGet fun s ↦ ((s.mode, s.inputs), { s with inputs := s.inputs + 1 })
  match mode, value with
  | .setup, _ => pure (.input i)
  | _, some x =>
    modify fun s ↦ { s with inputValues := s.inputValues.push x }
    pure (.input i)
  | _, none => missing

/-- Reserves a witness and gives it a value, except during key generation. -/
def newWitness (value : Option Fr) : Synth Column := do
  let (mode, i) ←
    modifyGet fun s ↦ ((s.mode, s.witnesses), { s with witnesses := s.witnesses + 1 })
  match mode, value with
  | .setup, _ => pure (.witness i)
  | _, some x =>
    modify fun s ↦ { s with witnessValues := s.witnessValues.push x }
    pure (.witness i)
  | _, none => missing

/-- Puts a gate on the layout. -/
def constrain (g : Gate) : Synth Unit := modify fun s ↦ { s with gates := s.gates.push g }

/-- Demands that two forms are equal. Constants are not compared. -/
def equate (a b : Form) : Synth Unit :=
  if a.isConstant && b.isConstant then pure ()
  else if b.isConstant then constrain (.product (b.sub a) (Form.constant 1) [])
  else constrain (.product (a.sub b) (Form.constant 1) [])

end Synth

end TreeProver.Circuit
