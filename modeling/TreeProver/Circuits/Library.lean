import TreeProver.Circuits.Fixed
import TreeProver.Circuits.Inclusion
import TreeProver.Circuits.ListRoot
import TreeProver.Circuits.Mask

/-!
# The circuits of the library

All circuits of the library as one type, for callers that choose a circuit while they run.
-/

namespace TreeProver

open Circuit

/-- A circuit of the library. -/
inductive LibraryCircuit where
  | inclusion (c : InclusionCircuit)
  | listRoot (c : ListRootCircuit)
  | mask (c : MaskCircuit)
  | fixed (c : FixedCircuit)
  deriving DecidableEq

namespace LibraryCircuit

/-- The circuit with an input. -/
def assign : LibraryCircuit → Bytes → Except Error LibraryCircuit
  | .inclusion c, input => do .ok (.inclusion (← c.assign input))
  | .listRoot c, input => do .ok (.listRoot (← c.assign input))
  | .mask c, input => do .ok (.mask (← c.assign input))
  | .fixed c, input => do .ok (.fixed (← c.assign input))

/-- Lays the circuit out. -/
def define : LibraryCircuit → Synth Ports
  | .inclusion c => c.define
  | .listRoot c => c.define
  | .mask c => c.define
  | .fixed c => c.define

instance : Computation LibraryCircuit := ⟨assign, define⟩

end LibraryCircuit

end TreeProver
