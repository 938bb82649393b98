import TreeProver.Circuit.Layout

/-!
# Bits inside a circuit

Bits are allocated as constants, public inputs or witnesses. An allocated bit that is not a constant
gets a gate that keeps its column to zero and one. Operations on constants are computed while the
circuit is laid out and put no gate on it.
-/

namespace TreeProver.Circuit

/-- How a value enters a circuit. -/
inductive Allocation where
  | constant
  | input
  | witness
  deriving DecidableEq, Repr

namespace Bit

/-- The demand that a column is zero or one. -/
def boolean (c : Column) : Gate :=
  .product ((Form.constant 1).sub (Form.column c)) (Form.column c) []

/-- A bit of the given value. A constant has to have a value even during key generation. -/
def alloc (how : Allocation) (value : Option Bool) : Synth Bit :=
  match how with
  | .constant =>
    match value with
    | some b => pure (.constant b)
    | none => Synth.missing
  | .input => do
    let c ← Synth.newInput (value.map scalarOfBool)
    Synth.constrain (boolean c)
    pure (.wire c false)
  | .witness => do
    let c ← Synth.newWitness (value.map scalarOfBool)
    Synth.constrain (boolean c)
    pure (.wire c false)

/-- The value of one of two bits, as a third one says. -/
def chosen? (s : Layout) (which yes no : Bit) : Option Bool := do
  if ← s.bit? which then s.bit? yes else s.bit? no

/-- One of two bits, as a third one says. With `which` a column the result is `no` plus `which`
times the difference. -/
def select (which yes no : Bit) : Synth Bit := do
  match which, yes, no with
  | .constant b, yes, no => pure (if b then yes else no)
  | which, .constant y, .constant n =>
    pure (if y = n then .constant y else if y then which else which.not)
  | which, yes, no =>
    let s ← get
    let c ← Synth.newWitness ((chosen? s which yes no).map scalarOfBool)
    Synth.constrain
      (.product which.form (yes.form.sub no.form) ((Form.column c).sub no.form))
    pure (.wire c false)

/-- Demands that a bit has a known value; a constant of the other value is refused at once. -/
def demand (expected : Bool) : Bit → Synth Unit
  | .constant b =>
    if b = expected then pure () else throw (.synthesis .unsatisfiable)
  | b =>
    let difference := if expected then (Form.constant 1).sub b.form else b.form
    Synth.constrain (.product difference (Form.constant 1) [])

end Bit

end TreeProver.Circuit
