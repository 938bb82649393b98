import TreeProver.Groth16.Domain
import TreeProver.Groth16.Key
import TreeProver.R1cs
import TreeProver.Random.Sampling

/-!
# Key generation

Key generation draws secret scalars, evaluates the polynomials of every column at one of them and
hides the results in the exponents of two random generators. Who knows the secrets can forge proofs,
so they live only inside this computation.
-/

namespace TreeProver.Groth16

/-- The secrets of a key: the scalars, the generators and the point of evaluation. -/
structure Secrets where
  alpha : Fr
  beta : Fr
  gamma : Fr
  delta : Fr
  g1 : G1
  g2 : G2
  tau : Fr

/-- Draws the secrets in their fixed order. The point of evaluation lies outside the domain. -/
def Secrets.draw (domain : Domain) : Draw Secrets := do
  let alpha ← Residue.draw
  let beta ← Residue.draw
  let gamma ← Residue.draw
  let delta ← Residue.draw
  let g1 ← G1.draw
  let g2 ← G2.draw
  let tau ← Draw.retry (do
    let t ← Residue.draw
    pure (if domain.vanishing t = 0 then none else some t)) 0 1000
  pure ⟨alpha, beta, gamma, delta, g1, g2, tau⟩

/-- Adds the entries of a row, scaled, to the sums of their columns. -/
def addRow (sums : Array Fr) (scale : Fr) (row : Row) : Array Fr :=
  row.foldl (fun sums e ↦ sums.modify e.2 (· + scale * e.1)) sums

/-- The value of every column's polynomial at the point of evaluation, given those of the rows. -/
def columnValues (columns : Nat) (lagrange : List Fr) (rows : List Row) : Array Fr :=
  (lagrange.zip rows).foldl (fun sums r ↦ addRow sums r.1 r.2) (Array.replicate columns 0)

/-- The values of the columns of the first matrix, to which every public column adds a row of its
own behind the constraints. -/
def firstColumnValues (r : R1cs) (lagrange : List Fr) : Array Fr :=
  ((lagrange.drop r.constraints).take r.instances).zipIdx.foldl
    (fun sums e ↦ sums.modify e.2 (· + e.1))
    (columnValues (r.instances + r.witnesses) lagrange r.a)

/-- The proving key of a constraint system for given secrets. -/
def keyOf (r : R1cs) (domain : Domain) (s : Secrets) : Except SynthesisError ProvingKey :=
  if s.gamma = 0 ∨ s.delta = 0 then .error .unexpectedIdentity
  else
    let lagrange := domain.lagrangeAt s.tau
    let columns := r.instances + r.witnesses
    let a := (firstColumnValues r lagrange).toList
    let b := (columnValues columns lagrange r.b).toList
    let c := (columnValues columns lagrange r.c).toList
    let mixed := List.zipWith (· + ·)
      (List.zipWith (fun a b ↦ s.beta * a + s.alpha * b) a b) c
    let first (k : Fr) : G1 := G1.mul k.val s.g1
    let second (k : Fr) : G2 := G2.mul k.val s.g2
    let gammaInv := Residue.inv s.gamma
    let deltaInv := Residue.inv s.delta
    .ok {
      verifying := {
        alpha := first s.alpha
        beta := second s.beta
        gamma := second s.gamma
        delta := second s.delta
        inputs := (mixed.take r.instances).map fun x ↦ first (x * gammaInv) }
      beta := first s.beta
      delta := first s.delta
      aColumns := a.map first
      bColumns := b.map first
      bColumns2 := b.map second
      quotient := (Domain.powers s.tau (domain.size - 1) (domain.vanishing s.tau * deltaInv)).map
        first
      witnesses := (mixed.drop r.instances).map fun x ↦ first (x * deltaInv) }

/-- Draws a proving key for a constraint system. -/
def setup (r : R1cs) : Draw (Except SynthesisError ProvingKey) := do
  match Domain.ofSize? (r.constraints + r.instances) with
  | none => pure (.error .polynomialDegreeTooLarge)
  | some domain =>
    let secrets ← Secrets.draw domain
    pure (keyOf r domain secrets)

end TreeProver.Groth16
