import TreeProver.Circuit.Byte

/-!
# Buffers

A buffer is a byte string of fixed size that a circuit takes in or gives out. It holds the bytes
that have been assigned to it, and the bytes inside a circuit that carry them once the circuit is
laid out. What does not have the size of the buffer is refused.
-/

namespace TreeProver.Circuit

/-- A byte string of fixed size between the outside and the inside of a circuit. -/
structure Buffer where
  size : Nat
  values : Option Bytes
  wires : List Byte
  deriving DecidableEq

namespace Buffer

/-- A buffer with nothing in it. -/
def empty (size : Nat) : Buffer := ⟨size, none, []⟩

/-- Takes other values: whether they have the size of the buffer, and the buffer that is left. -/
def setValues (b : Buffer) (values : Bytes) : Except Error Unit × Buffer :=
  if values.length = b.size then (.ok (), { b with values := some values })
  else (.error (.invalidLength "byte wires" b.size values.length), b)

/-- Takes wires that are already part of the circuit. -/
def setWires (b : Buffer) (wires : List Byte) : Except Error Unit × Buffer :=
  if wires.length = b.size then (.ok (), { b with wires := wires })
  else (.error (.invalidLength "byte wires" b.size wires.length), b)

/-- Fresh witnesses that carry the values. -/
def allocWires (b : Buffer) : Synth (List Byte) := Byte.allocAll .witness b.size b.values

/-- Takes fresh witnesses of a layout that carry the values: the wires, the buffer that is left, and
the layout. A failure may leave some of the witnesses behind in the layout. -/
def allocate (b : Buffer) (s : Layout) : (Except Error (List Byte) × Buffer) × Layout :=
  match b.allocWires.run s with
  | (.ok wires, t) => ((.ok wires, { b with wires := wires }), t)
  | (.error e, t) => ((.error e, b), t)

/-- What is left of a call that succeeds. -/
def ofResult {α : Type} : Except Error α × Buffer → Except Error Buffer
  | (.ok _, b) => .ok b
  | (.error e, _) => .error e

/-- The buffer with values that it takes. -/
def assign (b : Buffer) (values : Bytes) : Except Error Buffer := ofResult (b.setValues values)

/-- The buffer with fresh witnesses that carry its values. -/
def alloc (b : Buffer) : Synth Buffer :=
  ExceptT.mk fun s ↦ (ofResult (b.allocate s).1, (b.allocate s).2)

end Buffer

end TreeProver.Circuit
