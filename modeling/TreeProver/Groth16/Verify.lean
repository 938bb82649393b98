import TreeProver.Curve.Pairing
import TreeProver.Groth16.Prove

/-!
# Verification

A proof of public inputs `h1, …, hn` is accepted by a key when
`e(A, B) = e(alpha, beta) * e(ic0 + h1 * ic1 + … + hn * icn, gamma) * e(C, delta)`.
-/

namespace TreeProver.Groth16

/-- The point that stands for public inputs. -/
def inputPoint (first : G1) (rest : List G1) (inputs : List Fr) : G1 :=
  G1.linearSum ((1, first) :: terms inputs rest)

/-- Whether a key accepts a proof of public inputs; the key has to have a point for each of them and
one for the constant one. -/
def verify (k : VerifyingKey) (inputs : List Fr) (proof : Points) :
    Except SynthesisError Bool :=
  match k.inputs with
  | first :: rest =>
    if rest.length ≠ inputs.length then .error .malformedVerifyingKey
    else .ok (decide (Pairing.product
      [(proof.a, proof.b), (k.alpha.neg, k.beta),
        ((inputPoint first rest inputs).neg, k.gamma), (proof.c.neg, k.delta)] = Fq12.one))
  | [] => .error .malformedVerifyingKey

end TreeProver.Groth16
