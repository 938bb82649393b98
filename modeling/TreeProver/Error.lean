import TreeProver.Binary

/-!
# Failures

Every failure of the library is one `Error`, which names its cause and carries the values that the
wording needs. `Error.kind` groups the causes by the stage at which they arise and `Error.message`
is their only wording.
-/

namespace TreeProver

/-- Why a constraint system cannot be laid out, proved or checked. -/
inductive SynthesisError where
  | missingSystem
  | assignmentMissing
  | divisionByZero
  | unsatisfiable
  | polynomialDegreeTooLarge
  | unexpectedIdentity
  | malformedVerifyingKey
  | unconstrainedVariable
  deriving DecidableEq, Repr

/-- The wording of a synthesis failure. -/
def SynthesisError.message : SynthesisError → String
  | .missingSystem => "the constraint system was `None`"
  | .assignmentMissing => "an assignment for a variable could not be computed"
  | .divisionByZero => "division by zero"
  | .unsatisfiable => "unsatisfiable constraint system"
  | .polynomialDegreeTooLarge => "polynomial degree is too large"
  | .unexpectedIdentity => "encountered an identity element in the CRS"
  | .malformedVerifyingKey => "malformed verifying key"
  | .unconstrainedVariable => "auxiliary variable was unconstrained"

/-- The files that the library reads and writes. -/
inductive Artifact where
  | constraintSystem
  | provingKey
  | verifyingKey
  | contract
  | proof
  | witness
  deriving DecidableEq, Repr

/-- The name of an artifact in messages. -/
def Artifact.name : Artifact → String
  | .constraintSystem => "constraint system"
  | .provingKey => "proving key"
  | .verifyingKey => "verifying key"
  | .contract => "verifier contract"
  | .proof => "proof"
  | .witness => "witness"

/-- Everything that can go wrong. -/
inductive Error where
  /-- A generalized index does not address a node as deep as the path is long. -/
  | invalidGindex (gindex : UInt64) (siblings : Nat)
  /-- A path has more siblings than a 64-bit generalized index can address. -/
  | proofTooDeep (siblings : Nat)
  /-- A tree has to have a power of two leaves. -/
  | leafCountNotPowerOfTwo (count : Nat)
  /-- The leaves do not fit into the address space. -/
  | tooManyLeaves (count : Nat)
  | notEnoughLeaves (needed got : Nat)
  /-- A byte string has the wrong length. -/
  | invalidLength (what : String) (expected got : Nat)
  | compilation (cause : SynthesisError)
  | setup (cause : SynthesisError)
  | synthesis (cause : SynthesisError)
  /-- A value that proving needs has not been assigned. -/
  | witnessMissing (what : String)
  /-- An assignment violates a constraint. -/
  | unsatisfied (constraint : String)
  /-- An assignment does not have the shape of a constraint system. -/
  | shapeMismatch (what : String) (expected got : Nat)
  | proving (cause : SynthesisError)
  /-- A file operation failed. -/
  | artifactIo (artifact : Artifact) (action path cause : String)
  | artifactDecode (artifact : Artifact) (cause : DecodeError)
  | artifactEncode (artifact : Artifact) (cause : String)
  /-- A file is not the JSON text of the value it should hold. -/
  | json (artifact : Artifact) (cause : String)
  /-- A proof's coordinates are not those of points. -/
  | malformedProof (why : String)
  /-- A commitment is not a public input. -/
  | invalidPublicInput (why : String)
  | verification (cause : SynthesisError)
  deriving DecidableEq, Repr

/-- The stages at which failures arise. -/
inductive ErrorKind where
  | configuration
  | compilation
  | setup
  | witness
  | proving
  | artifact
  | verification
  deriving DecidableEq, Repr

namespace Error

/-- The stage of a failure. -/
def kind : Error → ErrorKind
  | invalidGindex .. | proofTooDeep _ | leafCountNotPowerOfTwo _ | tooManyLeaves _
  | notEnoughLeaves .. => .configuration
  | compilation _ => .compilation
  | setup _ => .setup
  | invalidLength .. | synthesis _ | witnessMissing _ | unsatisfied _ | shapeMismatch .. =>
    .witness
  | proving _ => .proving
  | artifactIo .. | artifactDecode .. | artifactEncode .. | json .. => .artifact
  | malformedProof _ | invalidPublicInput _ | verification _ => .verification

/-- The wording of a failure. -/
def message : Error → String
  | invalidGindex gindex siblings =>
    s!"Invalid gindex {gindex}: a proof of {siblings} siblings needs a gindex in [2^{siblings}, "
      ++ s!"2^{siblings + 1})"
  | proofTooDeep siblings => s!"Proof of {siblings} siblings is too deep for a 64-bit gindex"
  | leafCountNotPowerOfTwo count => s!"Leaf count must be a non-zero power of two, got {count}"
  | tooManyLeaves count => s!"Too many leaves: {count}"
  | notEnoughLeaves needed got => s!"Not enough leaves: need {needed}, got {got}"
  | invalidLength what expected got =>
    s!"Invalid length for {what}: expected {expected} bytes, got {got}"
  | compilation cause => s!"Compilation failed: {cause.message}"
  | setup cause => s!"Setup failed: {cause.message}"
  | synthesis cause => s!"Synthesis error: {cause.message}"
  | witnessMissing what => s!"Witness incomplete: {what}"
  | unsatisfied constraint => s!"Unsatisfied constraint: {constraint}"
  | shapeMismatch what expected got =>
    s!"Witness does not match constraint system: expected {expected} {what}, got {got}"
  | proving cause => s!"Proving failed: {cause.message}"
  | artifactIo artifact action path cause =>
    s!"Failed to {action} {artifact.name} at {path}: {cause}"
  | artifactDecode artifact cause => s!"Failed to decode {artifact.name}: {cause.message}"
  | artifactEncode artifact cause => s!"Failed to encode {artifact.name}: {cause}"
  | json artifact cause => s!"Invalid JSON in {artifact.name}: {cause}"
  | malformedProof why => s!"Malformed proof: {why}"
  | invalidPublicInput why => s!"Invalid public input: {why}"
  | verification cause => s!"Verification error: {cause.message}"

/-- The wording of a failure as far as it can be put together: the exponents that it names have to
be numbers of 64 bits. -/
def message? : Error → Option String
  | invalidGindex gindex siblings =>
    if siblings + 1 < UInt64.size then some (invalidGindex gindex siblings).message else none
  | e => some e.message

/-- The text of the failure that caused another one, where that failure has a text of its own. -/
def source? : Error → Option String
  | artifactIo _ _ _ cause => some cause
  | artifactDecode _ cause => some cause.message
  | json _ cause => some cause
  | _ => none

/-- A failure as constraint synthesis reports it: any other cause counts as unsatisfiable. -/
def toSynthesis : Error → SynthesisError
  | synthesis cause => cause
  | _ => .unsatisfiable

end Error

/-- Two steps go through exactly when the first goes through and the second goes through behind
it. -/
theorem Except.bind_eq_ok_iff {ε α β : Type} {r : Except ε α} {f : α → Except ε β} {b : β} :
    (r >>= f) = .ok b ↔ ∃ a, r = .ok a ∧ f a = .ok b := by
  cases r with
  | error e => simp [bind, Except.bind]
  | ok a => simp [bind, Except.bind]

/-- A result that is kept as an option is there. -/
theorem Except.eq_ok_of_toOption {ε α : Type} {r : Except ε α} {a : α}
    (h : r.toOption = some a) : r = .ok a := by
  cases r with
  | error e => contradiction
  | ok b => exact congrArg Except.ok (Option.some.inj h)

end TreeProver
