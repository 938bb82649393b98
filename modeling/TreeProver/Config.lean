import TreeProver.Build
import TreeProver.Toml.Reader

/-!
# Configuration

The configuration names the artifact files, may fix the seed of key generation, and sets the shapes
of the circuits. Every value has a default, may be set in a TOML document, and some may be
overridden by variables of the environment. The document is the first of three candidates that is
there.
-/

namespace TreeProver

/-- The directory and the names of artifact files. -/
structure ArtifactNames where
  directory : String
  r1cs : String
  provingKey : String
  verifyingKey : String
  contract : String
  proof : String
  deriving DecidableEq, Repr

/-- All settings. -/
structure Config where
  artifacts : ArtifactNames
  /-- The seed of key generation; fresh randomness is used without one. -/
  setupSeed : Option UInt64
  /-- The length of the paths of the inclusion circuit. -/
  depth : UInt64
  /-- The number of leaves of the list root circuit. -/
  listLeaves : UInt64
  deriving DecidableEq, Repr

/-- The variables of the environment that matter. -/
structure Environment where
  configFile : Option String
  buildDirectory : Option String
  setupSeed : Option String
  circuitDepth : Option String
  listLeaves : Option String
  /-- The home directory of the user. -/
  home : Option Path
  deriving DecidableEq, Repr

/-- The environment in which variables have the values that are found for them. An empty home
directory counts as none. -/
def Environment.ofVariables {m : Type → Type} [Monad m] (value? : String → m (Option String))
    (fallbackHome : Option Path) : m Environment := do
  let configFile ← value? "SSZ_CONFIG"
  let buildDirectory ← value? "SSZ_BUILD_DIR"
  let setupSeed ← value? "SSZ_SETUP_SEED"
  let circuitDepth ← value? "SSZ_CIRCUIT_DEPTH"
  let listLeaves ← value? "SSZ_LIST_LEAVES"
  let home := ((← value? "HOME").filter (· ≠ "")).or fallbackHome
  pure ⟨configFile, buildDirectory, setupSeed, circuitDepth, listLeaves, home⟩

/-- Why there is no configuration. -/
inductive ConfigError where
  | unreadable (path : Path) (cause : IoError)
  | malformed (path : Path)
  deriving DecidableEq, Repr

/-- The wording of a failure to get a configuration. -/
def ConfigError.message : ConfigError → String
  | .unreadable path _ => s!"Failed to read config file: {path}"
  | .malformed path => s!"Failed to parse config file: {path}"

namespace ArtifactNames

/-- The names that are used unless others are set. -/
def default : ArtifactNames :=
  ⟨"build", "r1cs.bin", "pkey.bin", "vkey.bin", "FunctionVerifier.json", "proof.json"⟩

/-- The paths of the artifacts in a directory. -/
def paths (names : ArtifactNames) (directory : Path) : ArtifactPaths :=
  ⟨directory.join names.r1cs, directory.join names.provingKey, directory.join names.verifyingKey,
    directory.join names.contract, directory.join names.proof⟩

end ArtifactNames

namespace Config

/-- The settings that are used unless others are set. -/
def default : Config := ⟨ArtifactNames.default, none, 2, 4⟩

/-- The text that a value has to be. -/
def text? : Toml.Value → Option String
  | .text s => some s
  | _ => none

/-- The number of 64 bits that a value has to be. -/
def number? : Toml.Value → Option UInt64
  | .integer (.ofNat n) => some (UInt64.ofNat n)
  | _ => none

/-- The value of a key, or at a position, if it is set. A section may be a table, or an array of its
values in order. Dates are tables without keys that matter. -/
def entry? (key : String) (position : Nat) : Toml.Value → Option (Option Toml.Value)
  | .table _ fields => some (fields.lookup key)
  | .array xs => some xs[position]?
  | .tables xs => some (xs[position]?.map (Toml.Value.table .header))
  | .moment => some none
  | _ => none

/-- A setting of a section that may be missing: what is set has to be convertible. -/
def setting {α : Type} (convert : Toml.Value → Option α) (key : String) (position : Nat)
    (fallback : α) : Option Toml.Value → Option α
  | none => some fallback
  | some settings => do
    match ← entry? key position settings with
    | some v => convert v
    | none => some fallback

/-- The names that a section sets. -/
def artifacts? (v : Option Toml.Value) : Option ArtifactNames := do
  let names := ArtifactNames.default
  let directory ← setting text? "dir" 0 names.directory v
  let r1cs ← setting text? "r1cs" 1 names.r1cs v
  let provingKey ← setting text? "proving_key" 2 names.provingKey v
  let verifyingKey ← setting text? "verifying_key" 3 names.verifyingKey v
  let contract ← setting text? "contract" 4 names.contract v
  let proof ← setting text? "proof" 5 names.proof v
  some ⟨directory, r1cs, provingKey, verifyingKey, contract, proof⟩

/-- The settings that a document sets. -/
def ofFields? (fields : Toml.Fields) : Option Config := do
  let artifacts ← artifacts? (fields.lookup "artifacts")
  let setupSeed ←
    setting (fun v ↦ (number? v).map some) "setup_seed" 0 none (fields.lookup "prover")
  let circuit := fields.lookup "circuit"
  let depth ← setting number? "depth" 0 default.depth circuit
  let listLeaves ← setting number? "list_leaves" 1 default.listLeaves circuit
  some ⟨artifacts, setupSeed, depth, listLeaves⟩

/-- The settings that the text of a document sets. -/
def parse? (text : String) : Option Config := do ofFields? (← Toml.parse text)

/-- The number of 64 bits spelled by decimal digits with an optional plus in front. -/
def parseNumber? (s : String) : Option UInt64 :=
  let digits := match s.toList with
    | '+' :: rest => rest
    | cs => cs
  if digits.isEmpty ∨ ¬ digits.all Toml.isDigit then none
  else
    let n := Toml.valueOf 10 digits
    if n < UInt64.size then some (UInt64.ofNat n) else none

/-- A setting that a variable overrides if it is set and can be converted. -/
def overridden {α : Type} (convert : String → Option α) (override : Option String) (value : α) :
    α :=
  (override.bind convert).getD value

/-- The settings with those overridden that the environment sets. -/
def override (c : Config) (env : Environment) : Config :=
  { c with
    artifacts := { c.artifacts with
      directory := overridden some env.buildDirectory c.artifacts.directory }
    setupSeed := overridden (fun s ↦ (parseNumber? s).map some) env.setupSeed c.setupSeed
    depth := overridden parseNumber? env.circuitDepth c.depth
    listLeaves := overridden parseNumber? env.listLeaves c.listLeaves }

/-- The configuration file in the current directory. -/
def localFile : Path := "ssz-prover.toml"

/-- The configuration file in the home directory. -/
def userFile? (env : Environment) : Option Path :=
  env.home.map fun home ↦ (Path.join home ".ssz-prover").join "config.toml"

/-- The places of configuration files in the order in which they are looked for. -/
def candidates (env : Environment) : List Path :=
  env.configFile.toList ++ [localFile] ++ (userFile? env).toList

/-- The first path at which there is something. -/
def firstPresent : List Path → Script (Option Path)
  | [] => pure none
  | p :: ps => do
    if ← Script.isPresent p then pure (some p) else firstPresent ps

/-- The settings of a file, without those of the environment. -/
def readFile (p : Path) : ExceptT ConfigError Script Config := ExceptT.mk do
  match ← Script.readText p with
  | .error e => pure (.error (.unreadable p e))
  | .ok text =>
    match parse? text with
    | some c => pure (.ok c)
    | none => pure (.error (.malformed p))

/-- The configuration with a given file. -/
def loadFrom (env : Environment) (p : Path) : ExceptT ConfigError Script Config := do
  pure ((← readFile p).override env)

/-- The configuration with the first candidate that is there. -/
def load (env : Environment) : ExceptT ConfigError Script Config := do
  match ← (firstPresent (candidates env) : Script (Option Path)) with
  | some p => loadFrom env p
  | none => pure (default.override env)

/-- The lines of a section of settings whose values are texts. -/
def textLines (settings : List (String × String)) : List String :=
  settings.map fun s ↦ s.1 ++ " = \"" ++ s.2 ++ "\""

/-- A document with the default settings. The seed stays commented out, since key generation with a
known seed is no secret. -/
def sample : String :=
  let names := ArtifactNames.default
  let lines :=
    ["[artifacts]"]
      ++ textLines
        [("dir", names.directory), ("r1cs", names.r1cs), ("proving_key", names.provingKey),
          ("verifying_key", names.verifyingKey), ("contract", names.contract),
          ("proof", names.proof)]
      ++ ["", "[prover]", "", "[circuit]", s!"depth = {default.depth}",
        s!"list_leaves = {default.listLeaves}", "",
        "# Fixed key generation seed. Test builds only, anyone knowing it can forge proofs.",
        "# [prover]", "# setup_seed = 1234"]
  String.join (lines.map fun l ↦ l ++ "\n")

end Config

end TreeProver
