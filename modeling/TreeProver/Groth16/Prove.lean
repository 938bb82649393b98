import TreeProver.Groth16.Domain
import TreeProver.Groth16.Key
import TreeProver.R1cs

/-!
# Proving

A proof is three points, put together from the points of a proving key, an assignment and two
blinding scalars. Matrices and keys come from files, so they may not fit together: a computation
that would reach outside a list of them is an `Abort` and has no result.
-/

namespace TreeProver.Groth16

/-- The three points of a proof. -/
structure Points where
  a : G1
  b : G2
  c : G1
  deriving DecidableEq

/-- A computation that stopped because stored data does not have the shape it is used with. -/
inductive Abort where
  /-- A row refers to a column that the assignment does not have. -/
  | columnOutOfRange
  /-- A matrix or an assignment has fewer rows than its count says. -/
  | rowOutOfRange
  /-- A key has no points where at least one is needed. -/
  | emptyKey
  deriving DecidableEq, Repr

/-- Why there is no proof. -/
inductive Failure where
  | refused (cause : SynthesisError)
  | abort (cause : Abort)
  deriving DecidableEq, Repr

/-- The values of the rows of a matrix, up to a number of rows. -/
def rowValues (z : Array Fr) (rows : List Row) : Except Abort (List Fr) :=
  rows.mapM fun row ↦
    match row.eval? z with
    | some x => .ok x
    | none => .error .columnOutOfRange

/-- A list filled up with zeros. -/
def padTo (n : Nat) (xs : List Fr) : List Fr := xs ++ List.replicate (n - xs.length) 0

/-- The coefficients of `(A * B - C) / (x ^ m - 1)`, where the three polynomials take the values of
the rows over a domain of `m` points and the first takes the public columns behind them. When the
assignment satisfies the rows the division leaves no remainder. -/
def quotient (r : R1cs) (domain : Domain) (z : Array Fr) : Except Abort (List Fr) := do
  let rows := min r.constraints (min r.a.length r.b.length)
  let a ← rowValues z (r.a.take rows)
  let b ← rowValues z (r.b.take rows)
  if r.c.length < r.constraints ∨ z.size < r.instances then .error .rowOutOfRange
  let c ← rowValues z (r.c.take r.constraints)
  let a := padTo r.constraints a ++ z.toList.take r.instances
  let spread (values : List Fr) : List Fr :=
    domain.evaluateCoset (domain.interpolate (padTo domain.size values))
  let product := List.zipWith (· * ·) (spread a) (spread b)
  let scale := Residue.inv (domain.vanishing Domain.scalarGenerator)
  .ok (domain.interpolateCoset
    ((List.zipWith (· - ·) product (spread c)).map (· * scale)))

/-- Multipliers of points as numbers. -/
def terms {α : Type} (xs : List Fr) (points : List α) : List (Nat × α) :=
  List.zipWith (fun x p ↦ (x.val, p)) xs points

/-- The second point of a proof in the first group, from which its last point is blinded. Without
blinding it is not needed, and no points of the key are looked at. -/
def secondInFirst (k : ProvingKey) (r s : Fr) (z : List Fr) : Except Abort G1 :=
  if r = 0 then .ok .identity
  else
    match k.bColumns with
    | [] => .error .emptyKey
    | b0 :: bs => .ok (G1.linearSum ((s.val, k.delta) :: (1, b0) :: (1, k.beta) :: terms z bs))

/-- The three points of a proof for an assignment with the given quotient and blinding. -/
def combine (k : ProvingKey) (r s : Fr) (h inputs witnesses : List Fr) :
    Except Abort Points := do
  let z := inputs ++ witnesses
  match k.aColumns, k.bColumns2 with
  | a0 :: as, b20 :: b2s =>
    let a := G1.linearSum
      ((r.val, k.delta) :: (1, a0) :: (1, k.verifying.alpha) :: terms z as)
    let b1 ← secondInFirst k r s z
    let b := G2.linearSum
      ((s.val, k.verifying.delta) :: (1, b20) :: (1, k.verifying.beta) :: terms z b2s)
    let c := G1.linearSum
      ((s.val, a) :: (r.val, b1) :: ((-(r * s)).val, k.delta)
        :: (terms witnesses k.witnesses ++ terms h k.quotient))
    .ok ⟨a, b, c⟩
  | _, _ => .error .emptyKey

/-- The proof of an assignment with stored matrices, a key and two blinding scalars. -/
def prove (k : ProvingKey) (m : R1cs) (r s : Fr) (z : Array Fr) : Except Failure Points :=
  match Domain.ofSize? (m.constraints + m.instances) with
  | none => .error (.refused .polynomialDegreeTooLarge)
  | some domain =>
    match quotient m domain z with
    | .error e => .error (.abort e)
    | .ok h =>
      let columns := z.toList
      match combine k r s h ((columns.take m.instances).drop 1) (columns.drop m.instances) with
      | .error e => .error (.abort e)
      | .ok points => .ok points

end TreeProver.Groth16
