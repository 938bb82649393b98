import TreeProver.Binary
import TreeProver.Error
import TreeProver.Field.Prime

/-!
# Rank-one constraint systems

A constraint system is three matrices `A`, `B`, `C` over the scalar field. An assignment `z` to its
columns satisfies row `i` when `(A z) i * (B z) i = (C z) i`. Columns start with the constant one
and the public inputs; the private witnesses follow. The stored counts are data of their own: a
system read from a file may have counts that its matrices do not bear out.
-/

namespace TreeProver

/-- The non-zero entries of a row with their columns. -/
abbrev Row := List (Fr × Nat)

/-- The value of a row at an assignment; none when an entry lies outside the assignment. -/
def Row.eval? (z : Array Fr) : Row → Option Fr
  | [] => some 0
  | (coefficient, column) :: rest => do
    let value ← z[column]?
    let sum ← eval? z rest
    some (coefficient * value + sum)

/-- A constraint system as it is stored. -/
structure R1cs where
  /-- The number of columns for the constant one and the public inputs. -/
  instances : Nat
  /-- The number of columns for private witnesses. -/
  witnesses : Nat
  /-- The number of rows. -/
  constraints : Nat
  /-- The numbers of entries of the three matrices. -/
  aEntries : Nat
  bEntries : Nat
  cEntries : Nat
  a : List Row
  b : List Row
  c : List Row
  deriving DecidableEq

namespace R1cs

/-- The public inputs, not counting the constant one. -/
def publicInputs (r : R1cs) : Nat := r.instances - 1

/-- The system with the given matrices, each of as many rows as there are constraints. -/
def ofRows (instances witnesses : Nat) (rows : List (Row × Row × Row)) : R1cs :=
  let a := rows.map fun r ↦ r.1
  let b := rows.map fun r ↦ r.2.1
  let c := rows.map fun r ↦ r.2.2
  let entries (rows : List Row) : Nat := rows.flatten.length
  ⟨instances, witnesses, rows.length, entries a, entries b, entries c, a, b, c⟩

/-- Compares the counts of a synthesized assignment with those of the system, in a fixed order. -/
def checkShape (r : R1cs) (instances witnesses constraints : Nat) : Except Error Unit :=
  if r.instances ≠ instances then
    .error (.shapeMismatch "instance variables" r.instances instances)
  else if r.witnesses ≠ witnesses then
    .error (.shapeMismatch "witness variables" r.witnesses witnesses)
  else if r.constraints ≠ constraints then
    .error (.shapeMismatch "constraints" r.constraints constraints)
  else .ok ()

/-- Whether an assignment satisfies three rows. -/
def rowHolds (z : Array Fr) (a b c : Row) : Bool :=
  match a.eval? z, b.eval? z, c.eval? z with
  | some x, some y, some p => x * y = p
  | _, _, _ => false

/-- Whether an assignment satisfies every row. -/
def isSatisfiedBy (r : R1cs) (z : Array Fr) : Bool :=
  (r.a.zip (r.b.zip r.c)).all fun row ↦ rowHolds z row.1 row.2.1 row.2.2

/-- The written form of an entry. -/
def encodeEntry (e : Fr × Nat) : Bytes := Bytes.ofNatLE 32 e.1.val ++ encodeCount e.2

/-- The written form of a matrix. -/
def encodeMatrix (rows : List Row) : Bytes := encodeList (encodeList encodeEntry) rows

/-- The written form of a constraint system. -/
def encode (r : R1cs) : Bytes :=
  encodeCount r.instances ++ encodeCount r.witnesses ++ encodeCount r.constraints
    ++ encodeCount r.aEntries ++ encodeCount r.bEntries ++ encodeCount r.cEntries
    ++ encodeMatrix r.a ++ encodeMatrix r.b ++ encodeMatrix r.c

/-- A coefficient, which has to be below the modulus. -/
def readScalar : Reader Fr := fun bs ↦ do
  let (n, rest) ← Reader.number 32 bs
  match Residue.ofNat? n with
  | some x => .ok (x, rest)
  | none => .error .invalidData

/-- An entry of a row. -/
def readEntry : Reader (Fr × Nat) := fun bs ↦ do
  let (coefficient, rest) ← readScalar bs
  let (column, rest) ← Reader.count rest
  .ok ((coefficient, column), rest)

/-- A matrix. -/
def readMatrix : Reader (List Row) := Reader.list (Reader.list readEntry)

/-- A constraint system. -/
def read : Reader R1cs := fun bs ↦ do
  let (instances, bs) ← Reader.count bs
  let (witnesses, bs) ← Reader.count bs
  let (constraints, bs) ← Reader.count bs
  let (aEntries, bs) ← Reader.count bs
  let (bEntries, bs) ← Reader.count bs
  let (cEntries, bs) ← Reader.count bs
  let (a, bs) ← readMatrix bs
  let (b, bs) ← readMatrix bs
  let (c, bs) ← readMatrix bs
  .ok (⟨instances, witnesses, constraints, aEntries, bEntries, cEntries, a, b, c⟩, bs)

end R1cs

end TreeProver
