import TreeProver.Hash.Blake3
import TreeProver.Proof.Basic

/-!
# Verifier contracts

A verifier contract describes a verifying key for those who check proofs elsewhere: the points of
the key as coordinates, the names of the public inputs, and the hash of the key as the identity of
the circuit.
-/

namespace TreeProver

/-- The hash of the written form of a verifying key. -/
def VerifyingKey.id (k : VerifyingKey) : Word := blake3 k.encode

/-- The description of a verifying key. -/
structure VerifierContract where
  name : String
  /-- The hash of the key in hexadecimal digits. -/
  circuitId : String
  publicInputs : List String
  alpha : CoordinatePair
  beta : CoordinatePair × CoordinatePair
  gamma : CoordinatePair × CoordinatePair
  delta : CoordinatePair × CoordinatePair
  /-- The point of the constant one, then those of the public inputs. -/
  inputPoints : List CoordinatePair
  deriving DecidableEq

namespace VerifierContract

/-- The name of every contract that is made here. -/
def defaultName : String := "FunctionVerifier"

/-- The names of public inputs: two commitments, and numbers from two on for what follows. -/
def inputNames (count : Nat) : List String :=
  ["inputHash", "outputHash"] ++ (List.range (count - 2)).map fun i ↦ s!"input{i + 2}"

/-- The coordinates that are stored for a point of the second group; for the identity, zeros. -/
def stored2 : G2 → Fq2 × Fq2
  | .identity => (0, 0)
  | .affine x y => (x, y)

/-- The coordinates of a point of the second group in a contract: those that are stored for it,
whether or not it is the identity. -/
def words2 (p : G2) : CoordinatePair × CoordinatePair :=
  let (x, y) := stored2 p
  ((.ofFq x.c1, .ofFq x.c0), (.ofFq y.c1, .ofFq y.c0))

/-- The description of a verifying key for at least two public inputs. -/
def ofKey (k : VerifyingKey) : Except Error VerifierContract :=
  if k.inputs.length < 3 then
    .error (.shapeMismatch "verifying key input points" 3 k.inputs.length)
  else
    .ok
      { name := defaultName
        circuitId := k.id.toHex
        publicInputs := inputNames (k.inputs.length - 1)
        alpha := Proof.coordinates1 k.alpha
        beta := words2 k.beta
        gamma := words2 k.gamma
        delta := words2 k.delta
        inputPoints := k.inputs.map Proof.coordinates1 }

/-- The fields of a contract that have been read. -/
structure Fields where
  name : Option String
  circuitId : Option String
  publicInputs : Option (List String)
  alpha : Option CoordinatePair
  beta : Option (CoordinatePair × CoordinatePair)
  gamma : Option (CoordinatePair × CoordinatePair)
  delta : Option (CoordinatePair × CoordinatePair)
  inputPoints : Option (List CoordinatePair)

/-- A text in a JSON text. -/
def text : Json.Reader String := Json.converted Json.string fun cs ↦ .ok (String.ofList cs)

/-- The fields of a contract in order. -/
def slots : List (Json.Slot Fields) :=
  [.kept "name" Fields.name (fun s x ↦ { s with name := some x }) text,
    .kept "circuitId" Fields.circuitId (fun s x ↦ { s with circuitId := some x }) text,
    .kept "publicInputs" Fields.publicInputs (fun s x ↦ { s with publicInputs := some x })
      (Json.array text),
    .kept "alpha" Fields.alpha (fun s x ↦ { s with alpha := some x }) CoordinatePair.json,
    .kept "beta" Fields.beta (fun s x ↦ { s with beta := some x }) CoordinatePair.jsonTwice,
    .kept "gamma" Fields.gamma (fun s x ↦ { s with gamma := some x }) CoordinatePair.jsonTwice,
    .kept "delta" Fields.delta (fun s x ↦ { s with delta := some x }) CoordinatePair.jsonTwice,
    .kept "ic" Fields.inputPoints (fun s x ↦ { s with inputPoints := some x })
      (Json.array CoordinatePair.json)]

/-- The contract with the given fields, none of which may be missing. -/
def ofFields (s : Fields) : Except Json.Fault VerifierContract := do
  let name ← Json.required "name" s.name
  let circuitId ← Json.required "circuitId" s.circuitId
  let publicInputs ← Json.required "publicInputs" s.publicInputs
  let alpha ← Json.required "alpha" s.alpha
  let beta ← Json.required "beta" s.beta
  let gamma ← Json.required "gamma" s.gamma
  let delta ← Json.required "delta" s.delta
  let inputPoints ← Json.required "ic" s.inputPoints
  .ok ⟨name, circuitId, publicInputs, alpha, beta, gamma, delta, inputPoints⟩

/-- A contract in a JSON text. -/
def json : Json.Reader VerifierContract :=
  Json.record "VerifierContract" slots ⟨none, none, none, none, none, none, none, none⟩ ofFields

/-- The contract that a JSON text holds. -/
def parse (text : String) : Except Error VerifierContract :=
  match Json.parse json text with
  | .ok c => .ok c
  | .error e => .error (.json .contract e.message)

/-- The JSON form of a contract. -/
def toJson (c : VerifierContract) : Json :=
  .object
    [("name", .text c.name), ("circuitId", .text c.circuitId),
      ("publicInputs", .list (c.publicInputs.map .text)),
      ("alpha", CoordinatePair.toJson c.alpha), ("beta", CoordinatePair.twiceToJson c.beta),
      ("gamma", CoordinatePair.twiceToJson c.gamma),
      ("delta", CoordinatePair.twiceToJson c.delta),
      ("ic", .list (c.inputPoints.map CoordinatePair.toJson))]

/-- The JSON text of a contract. -/
def format (c : VerifierContract) : String := c.toJson.pretty

end VerifierContract

end TreeProver
