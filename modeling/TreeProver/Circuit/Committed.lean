import TreeProver.Circuit.Digest
import TreeProver.Commitment

/-!
# Circuits with public commitments

A computation from bytes to bytes becomes a statement by committing to both ends: the two public
inputs are the commitments to the input and to the output, and everything between them is private.
The demands tie each public input to the digest of the bytes inside the circuit.
-/

namespace TreeProver

open Circuit

/-- The bytes that a circuit takes in and gives out, once it is laid out. -/
structure Ports where
  input : List Byte
  output : List Byte
  deriving DecidableEq

/-- A computation that can be laid out as a circuit. -/
class Computation (γ : Type) where
  /-- The computation with an input, or why the input is refused. -/
  assign : γ → Bytes → Except Error γ
  /-- Lays the computation out. It reserves no public inputs. -/
  define : γ → Synth Ports

/-- A computation with the commitments to its input and its output. -/
structure Committed (γ : Type) where
  inputHash : Option Word
  outputHash : Option Word
  computation : γ
  deriving DecidableEq

namespace Committed

variable {γ : Type} [Computation γ]

/-- A computation without commitments. -/
def ofComputation (c : γ) : Committed γ := ⟨none, none, c⟩

/-- The output for the assigned input, read off the circuit. -/
def output (f : Committed γ) : Except Error Bytes :=
  match (Computation.define f.computation).run (Layout.empty .valuesOnly) with
  | (.error e, _) => .error e
  | (.ok ports, s) =>
    match s.bytes? ports.output with
    | some bytes => .ok bytes
    | none => .error (.witnessMissing "output bytes")

/-- Gives the computation an input and records the commitments to it and to its output: whether the
input is accepted, and the statement that is left behind. The computation takes the input before its
output is known, so a failure to compute the output leaves the new input under the old
commitments. -/
def setInput (f : Committed γ) (input : Bytes) : Except Error Unit × Committed γ :=
  match Computation.assign f.computation input with
  | .error e => (.error e, f)
  | .ok c =>
    let taken : Committed γ := ⟨f.inputHash, f.outputHash, c⟩
    match taken.output with
    | .error e => (.error e, taken)
    | .ok output => (.ok (), ⟨some (commitment input), some (commitment output), c⟩)

/-- The statement with an input that it accepts. -/
def assign (f : Committed γ) (input : Bytes) : Except Error (Committed γ) :=
  match f.setInput input with
  | (.ok _, g) => .ok g
  | (.error e, _) => .error e

/-- Lays the statement out: the public inputs, the computation, and the demands on both ends. -/
def define (f : Committed γ) : Synth Unit := do
  let inputHash ← Synth.newInput (f.inputHash.map Word.toScalar)
  let outputHash ← Synth.newInput (f.outputHash.map Word.toScalar)
  let ports ← Computation.define f.computation
  Synth.equate (← Synth.commitment ports.input commitmentBits) (Form.column inputHash)
  Synth.equate (← Synth.commitment ports.output commitmentBits) (Form.column outputHash)

/-- The layout of the statement, from nothing. -/
def layout (f : Committed γ) (mode : Mode) : Except Error Layout :=
  match f.define.run (Layout.empty mode) with
  | (.ok _, s) => .ok s
  | (.error e, _) => .error e

/-- The layout without values. Parameters that make no circuit keep their own failure. -/
def blank (f : Committed γ) : Except Error Layout :=
  match f.layout .setup with
  | .ok s => .ok s
  | .error (.synthesis e) => .error (.compilation e)
  | .error e => .error e

end Committed

end TreeProver
