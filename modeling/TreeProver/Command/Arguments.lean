import TreeProver.Config

/-!
# Command line arguments

The arguments name one task and may set options, each at most once. They are read from left to
right and the first fault decides: a request for help counts where it is met, but not behind a
fault. Two options that are not set may be set by the environment.
-/

namespace TreeProver.Command

/-- What a run does. -/
inductive Task where
  /-- Generate a build and save it. -/
  | compile
  /-- Prove the witness in the data directory. -/
  | prove
  /-- Verify the proof in the data directory. -/
  | verify
  /-- Print a sample of a configuration file. -/
  | sampleConfig
  deriving DecidableEq, Repr

/-- The circuits that can be built and proved. -/
inductive CircuitKind where
  | inclusion
  | listRoot
  deriving DecidableEq, Repr

/-- The options that take a value. -/
inductive Choice where
  | circuit
  | data
  | kind
  | depth
  | leaves
  | config
  deriving DecidableEq, Repr

/-- The settings of a run. -/
structure Arguments where
  task : Task
  /-- The artifact directory; the configured one unless set. -/
  circuit : Option Path
  /-- The directory of the witness and the proof. -/
  data : Option Path
  kind : CircuitKind
  /-- The length of paths; the configured one unless set. -/
  depth : Option UInt64
  /-- The number of leaves; the configured one unless set. -/
  leaves : Option UInt64
  /-- The configuration file; the candidates are looked for unless set. -/
  config : Option Path
  deriving DecidableEq, Repr

/-- What has been set by the arguments read so far. -/
structure Draft where
  tasks : List Task
  circuit : Option Path
  data : Option Path
  kind : Option CircuitKind
  depth : Option UInt64
  leaves : Option UInt64
  config : Option Path
  deriving DecidableEq, Repr

/-- What arguments ask for. -/
inductive Request where
  | help
  | settings (d : Draft)
  deriving DecidableEq, Repr

/-- A word of the command line that is not the value of an option. -/
inductive Mark where
  | help
  | task (t : Task)
  /-- An option whose value is the next argument. -/
  | choice (c : Choice)
  /-- An option with its value behind an equals sign. -/
  | assigned (c : Choice) (value : String)
  deriving DecidableEq, Repr

/-- The task that a flag names. -/
def Task.ofFlag? : String → Option Task
  | "--compile" => some .compile
  | "--prove" => some .prove
  | "--verify" => some .verify
  | "--sample-config" => some .sampleConfig
  | _ => none

/-- The option that a flag names. -/
def Choice.ofFlag? : String → Option Choice
  | "--circuit" => some .circuit
  | "--data" => some .data
  | "--kind" => some .kind
  | "--depth" => some .depth
  | "--leaves" => some .leaves
  | "--config" => some .config
  | _ => none

/-- The circuit that a value names. -/
def CircuitKind.ofName? : String → Option CircuitKind
  | "inclusion" => some .inclusion
  | "list-root" => some .listRoot
  | _ => none

/-- The meaning of an argument. Letters behind a short request for help do not matter. -/
def Mark.ofArgument? (argument : String) : Option Mark :=
  if argument = "--help" ∨ argument.startsWith "-h" then some .help
  else
    match Task.ofFlag? argument, Choice.ofFlag? argument with
    | some t, _ => some (.task t)
    | none, some c => some (.choice c)
    | none, none =>
      let cs := argument.toList
      match cs.dropWhile (· ≠ '=') with
      | '=' :: value =>
        (Choice.ofFlag? (String.ofList (cs.takeWhile (· ≠ '=')))).map
          (Mark.assigned · (String.ofList value))
      | _ => none

/-- Whether an argument can be the value of the option in front of it. -/
def isValue (argument : String) : Bool := argument = "-" || !argument.startsWith "-"

/-- A path that a value spells. -/
def path? (value : String) : Option Path := if value = "" then none else some value

/-- A setting that has to be new and has to have a value. -/
def once {α : Type} : (old new : Option α) → Option (Option α)
  | none, some x => some (some x)
  | _, _ => none

namespace Draft

/-- Nothing is set. -/
def empty : Draft := ⟨[], none, none, none, none, none, none⟩

/-- The draft with one more task. -/
def addTask (d : Draft) (t : Task) : Option Draft :=
  if t ∈ d.tasks then none else some { d with tasks := t :: d.tasks }

/-- The draft with one more option. -/
def choose (d : Draft) (c : Choice) (value : String) : Option Draft :=
  match c with
  | .circuit => (once d.circuit (path? value)).map fun x ↦ { d with circuit := x }
  | .data => (once d.data (path? value)).map fun x ↦ { d with data := x }
  | .kind => (once d.kind (CircuitKind.ofName? value)).map fun x ↦ { d with kind := x }
  | .depth => (once d.depth (Config.parseNumber? value)).map fun x ↦ { d with depth := x }
  | .leaves => (once d.leaves (Config.parseNumber? value)).map fun x ↦ { d with leaves := x }
  | .config => (once d.config (path? value)).map fun x ↦ { d with config := x }

/-- What the arguments ask for on top of a draft. Behind two dashes nothing may follow. -/
def read (d : Draft) : List String → Option Request
  | [] => some (.settings d)
  | argument :: rest =>
    if argument = "--" then
      if rest.isEmpty then some (.settings d) else none
    else
      match Mark.ofArgument? argument with
      | none => none
      | some .help => some .help
      | some (.task t) =>
        match d.addTask t with
        | none => none
        | some d => d.read rest
      | some (.assigned c value) =>
        match d.choose c value with
        | none => none
        | some d => d.read rest
      | some (.choice c) =>
        match rest with
        | [] => none
        | value :: rest =>
          if isValue value then
            match d.choose c value with
            | none => none
            | some d => d.read rest
          else none

/-- A path that is set, or else the one that the environment has to name if it says anything. -/
def orInherited (chosen inherited : Option String) : Option (Option Path) :=
  match chosen, inherited with
  | some p, _ => some (some p)
  | none, none => some none
  | none, some value => (path? value).map some

/-- The settings of a draft, which has to name one task. -/
def complete (env : Environment) (d : Draft) : Option Arguments :=
  match d.tasks, orInherited d.circuit env.buildDirectory, orInherited d.config env.configFile with
  | [task], some circuit, some config =>
    some ⟨task, circuit, d.data, d.kind.getD .inclusion, d.depth, d.leaves, config⟩
  | _, _, _ => none

end Draft

end TreeProver.Command
