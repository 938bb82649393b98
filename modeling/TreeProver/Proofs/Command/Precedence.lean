import Mathlib.Logic.Function.Basic
import TreeProver.Proofs.Command.Search

/-!
# Where settings come from

Every setting has a place in configuration documents and a default, and some have a variable of the
environment. The value of a setting is that of its variable if it is set and can be converted, or
else the one at its place in the document, or else the default. Nothing else plays a part: other
variables and other keys do not matter.

A run may set the artifact directory and the shape of the circuit itself. Only what it leaves open
is taken from these settings. A run that compiles leaves the build for that shape in that directory.
-/

namespace TreeProver

open Script

namespace Config

/-! ### Settings -/

/-- The settings of a configuration. -/
inductive Setting where
  | directory
  | r1cs
  | provingKey
  | verifyingKey
  | contract
  | proof
  | setupSeed
  | depth
  | listLeaves
  deriving DecidableEq

namespace Setting

/-- What the value of a setting is. -/
def Value : Setting → Type
  | directory | r1cs | provingKey | verifyingKey | contract | proof => String
  | setupSeed => Option UInt64
  | depth | listLeaves => UInt64

/-- The section of a document that a setting belongs to. -/
def table : Setting → String
  | directory | r1cs | provingKey | verifyingKey | contract | proof => "artifacts"
  | setupSeed => "prover"
  | depth | listLeaves => "circuit"

/-- The key of a setting in its section. -/
def key : Setting → String
  | directory => "dir"
  | r1cs => "r1cs"
  | provingKey => "proving_key"
  | verifyingKey => "verifying_key"
  | contract => "contract"
  | proof => "proof"
  | setupSeed => "setup_seed"
  | depth => "depth"
  | listLeaves => "list_leaves"

/-- The position of a setting in its section. -/
def position : Setting → Nat
  | directory | setupSeed | depth => 0
  | r1cs | listLeaves => 1
  | provingKey => 2
  | verifyingKey => 3
  | contract => 4
  | proof => 5

/-- The variable of a setting, if it has one. -/
def variableName? : Setting → Option String
  | directory => some "SSZ_BUILD_DIR"
  | setupSeed => some "SSZ_SETUP_SEED"
  | depth => some "SSZ_CIRCUIT_DEPTH"
  | listLeaves => some "SSZ_LIST_LEAVES"
  | r1cs | provingKey | verifyingKey | contract | proof => none

/-- The value of a setting that a document gives for it. -/
def convert? : (s : Setting) → Toml.Value → Option s.Value
  | directory | r1cs | provingKey | verifyingKey | contract | proof => text?
  | setupSeed => fun v ↦ (number? v).map some
  | depth | listLeaves => number?

/-- The value of a setting that the text of a variable spells. -/
def ofText? : (s : Setting) → String → Option s.Value
  | directory | r1cs | provingKey | verifyingKey | contract | proof => some
  | setupSeed => fun text ↦ (parseNumber? text).map some
  | depth | listLeaves => parseNumber?

end Setting

/-- The value of a setting in a configuration. -/
def get (c : Config) : (s : Setting) → s.Value
  | .directory => c.artifacts.directory
  | .r1cs => c.artifacts.r1cs
  | .provingKey => c.artifacts.provingKey
  | .verifyingKey => c.artifacts.verifyingKey
  | .contract => c.artifacts.contract
  | .proof => c.artifacts.proof
  | .setupSeed => c.setupSeed
  | .depth => c.depth
  | .listLeaves => c.listLeaves

/-- The configuration with given values of all settings. -/
def ofSettings (value : (s : Setting) → s.Value) : Config :=
  ⟨⟨value .directory, value .r1cs, value .provingKey, value .verifyingKey, value .contract,
    value .proof⟩, value .setupSeed, value .depth, value .listLeaves⟩

/-- The values that a configuration is made with are its values. -/
theorem get_ofSettings (value : (s : Setting) → s.Value) (s : Setting) :
    (ofSettings value).get s = value s := by
  cases s <;> rfl

namespace Setting

variable (s : Setting) (vars : String → Option String) (fields : Toml.Fields)

/-- The value of a setting by default. -/
def default : s.Value := Config.default.get s

/-- What a document has at the place of a setting, if its section can have anything. -/
def content? : Option (Option Toml.Value) :=
  match fields.lookup s.table with
  | none => some none
  | some settings => Config.entry? s.key s.position settings

/-- The value that a document gives for a setting, if it does. -/
def written? : Option s.Value := (s.content? fields).join.bind s.convert?

/-- The value that the variables give for a setting, if they do. -/
def spelled? : Option s.Value := (s.variableName?.bind vars).bind s.ofText?

/-- The value of a setting: that of its variable, or else that of the document, or else the
default. -/
def resolve : s.Value := (s.spelled? vars).getD ((s.written? fields).getD s.default)

/-- What is at the place of a setting can be its value. -/
def Valid : Prop :=
  ∃ entry, s.content? fields = some entry ∧ ∀ v, entry = some v → ∃ x, s.convert? v = some x

/-- What a document says about a setting. -/
def read? : Option s.Value :=
  setting s.convert? s.key s.position s.default (fields.lookup s.table)

variable {s fields}

/-- A document with a valid entry for a setting says its value, or leaves the default. -/
theorem Valid.read? (h : s.Valid fields) :
    s.read? fields = some ((s.written? fields).getD s.default) := by
  obtain ⟨entry, hentry, hvalue⟩ := h
  rw [written?, hentry, Option.join_some, Setting.read?]
  rw [content?] at hentry
  cases hlookup : fields.lookup s.table with
  | none =>
    rw [hlookup] at hentry
    obtain rfl := Option.some.inj hentry
    rfl
  | some settings =>
    rw [hlookup] at hentry
    simp only at hentry
    simp only [setting, hentry, Option.bind_eq_bind, Option.bind_some]
    cases entry with
    | none => rfl
    | some v =>
      obtain ⟨x, hx⟩ := hvalue v rfl
      simp only [Option.bind_some, hx, Option.getD_some]

/-- A document with nothing at the place of a setting is valid for it. -/
theorem valid_of_absent (h : s.content? fields = some none) : s.Valid fields := ⟨none, h, nofun⟩

/-- A document that says something about a setting has a valid entry for it. -/
theorem valid_of_read? {x : s.Value} (h : s.read? fields = some x) : s.Valid fields := by
  cases hlookup : fields.lookup s.table with
  | none =>
    apply valid_of_absent
    rw [content?, hlookup]
  | some settings =>
    rw [Setting.read?, hlookup, setting, Option.bind_eq_bind, Option.bind_eq_some_iff] at h
    obtain ⟨entry, hentry, hx⟩ := h
    refine ⟨entry, ?_, ?_⟩
    · rw [content?, hlookup]
      exact hentry
    · rintro v rfl
      exact ⟨x, hx⟩

end Setting

variable {c : Config} {fields : Toml.Fields} {t : FileTree}

/-- A document gives the configuration of what it says about each setting. -/
theorem ofFields?_eq_some_iff :
    ofFields? fields = some c ↔ ∀ s : Setting, s.read? fields = some (c.get s) := by
  obtain ⟨⟨directory, r1cs, provingKey, verifyingKey, contract, proof⟩, setupSeed, depth,
      listLeaves⟩ := c
  simp only [ofFields?, artifacts?, Option.bind_eq_bind, Option.bind_eq_some_iff, Option.some.injEq]
  constructor
  · rintro ⟨_, ⟨_, h₁, _, h₂, _, h₃, _, h₄, _, h₅, _, h₆, rfl⟩, _, h₇, _, h₈, _, h₉, h⟩ s
    cases h
    cases s <;> assumption
  · intro h
    exact ⟨_, ⟨_, h .directory, _, h .r1cs, _, h .provingKey, _, h .verifyingKey, _, h .contract, _,
      h .proof, rfl⟩, _, h .setupSeed, _, h .depth, _, h .listLeaves, rfl⟩

/-- The environment replaces the values of the settings whose variables it sets. -/
theorem get_override (c : Config) (vars : String → Option String) (home : Option Path)
    (s : Setting) :
    (c.override (Environment.ofVariables (m := Id) vars home)).get s
      = (s.spelled? vars).getD (c.get s) := by
  cases s <;> rfl

/-! ### Documents and variables -/

/-- A file holds a document that is valid for all settings. -/
def Holds (t : FileTree) (p : Path) (fields : Toml.Fields) : Prop :=
  ∃ text, t.readText p = .ok text ∧ Toml.parse text = some fields ∧ ∀ s : Setting, s.Valid fields

/-- Every setting of the configuration has the value that variables and a document give for it. -/
def Resolves (vars : String → Option String) (fields : Toml.Fields) (c : Config) : Prop :=
  ∀ s : Setting, c.get s = s.resolve vars fields

/-- The configuration in a file that holds a valid document is that of the document and the
variables. -/
theorem Holds.exists_held {p : Path} (h : Holds t p fields) (vars : String → Option String)
    (home : Option Path) :
    ∃ c, held (Environment.ofVariables (m := Id) vars home) t p = .ok c ∧
      Resolves vars fields c := by
  obtain ⟨text, htext, hparse, hvalid⟩ := h
  let c := ofSettings fun s ↦ (s.written? fields).getD s.default
  have hread : parse? text = some c := by
    rw [parse?, hparse, Option.bind_eq_bind, Option.bind_some, ofFields?_eq_some_iff]
    intro s
    rw [(hvalid s).read?, get_ofSettings]
  refine ⟨c.override (Environment.ofVariables (m := Id) vars home), ?_, fun s ↦ ?_⟩
  · rw [held, htext]
    simp only [hread]
  · rw [get_override, get_ofSettings]
    rfl

/-- A file with a configuration holds a valid document. -/
theorem exists_holds {env : Environment} {p : Path} (h : held env t p = .ok c) :
    ∃ fields, Holds t p fields := by
  rw [held] at h
  split at h
  · cases h
  · next text htext =>
    split at h
    · next c' hparse =>
      obtain ⟨fields, hfields, hc⟩ := Option.bind_eq_some_iff.1 hparse
      exact ⟨fields, text, htext, hfields,
        fun s ↦ Setting.valid_of_read? (ofFields?_eq_some_iff.1 hc s)⟩
    · cases h

/-- Without a document the configuration is that of the variables. -/
theorem resolves_default (vars : String → Option String) (home : Option Path) :
    Resolves vars [] (default.override (Environment.ofVariables (m := Id) vars home)) := by
  intro s
  rw [get_override]
  rfl

/-- A key of a document that is set has its value, and the other keys have theirs. -/
theorem lookup_set (fields : Toml.Fields) (key key' : String) (v : Toml.Value) :
    (fields.set key v).lookup key' = if key' = key then some v else fields.lookup key' := by
  have hfilter (h : key' ≠ key) :
      (fields.filter fun f ↦ f.1 ≠ key).lookup key' = fields.lookup key' := by
    induction fields with
    | nil => rfl
    | cons f fields ih =>
      rw [List.filter_cons]
      by_cases hf : f.1 = key
      · rw [if_neg (by simp [hf]), ih, List.lookup_cons, hf, beq_false_of_ne h]
      · rw [if_pos (by simp [hf]), List.lookup_cons, List.lookup_cons, ih]
  rw [Toml.Fields.set, List.lookup_cons]
  by_cases h : key' = key
  · rw [if_pos h, h, beq_self_eq_true]
  · rw [if_neg h, beq_false_of_ne h, hfilter h]

namespace Setting

/-- A document with another value at the place of a setting. -/
def put (s : Setting) (v : Toml.Value) (fields : Toml.Fields) : Toml.Fields :=
  match fields.lookup s.table with
  | some (.table origin inner) => fields.set s.table (.table origin (Toml.Fields.set inner s.key v))
  | _ => fields.set s.table (.table .header [(s.key, v)])

/-- The section of a setting is missing, or a table of keys with values. -/
def IsOpen (s : Setting) (fields : Toml.Fields) : Prop :=
  fields.lookup s.table = none ∨ ∃ origin inner, fields.lookup s.table = some (.table origin inner)

variable {s s' : Setting}

/-- A variable belongs to one setting. -/
theorem eq_of_variableName? {name : String} (h : s.variableName? = some name)
    (h' : s'.variableName? = some name) : s' = s := by
  have hsame : s'.variableName? = s.variableName? := h'.trans h.symm
  cases s <;> cases s' <;> simp [variableName?] at hsame h ⊢

/-- A place belongs to one setting. -/
theorem eq_of_table_key (htable : s'.table = s.table) (hkey : s'.key = s.key) : s' = s := by
  cases s <;> cases s' <;> simp [table, key] at htable hkey ⊢

/-- The variable of another setting does not matter. -/
theorem spelled?_update (hs : s' ≠ s) {name : String} (h : s.variableName? = some name)
    (vars : String → Option String) (value : Option String) :
    s'.spelled? (Function.update vars name value) = s'.spelled? vars := by
  rw [spelled?, spelled?]
  cases hname : s'.variableName? with
  | none => rfl
  | some name' =>
    have hne : name' ≠ name := by
      rintro rfl
      exact hs (eq_of_variableName? h hname)
    rw [Option.bind_some, Option.bind_some, Function.update_of_ne hne]

/-- A variable that cannot be converted does not matter. -/
theorem spelled?_of_unconvertible {name text : String} (h : s.variableName? = some name)
    (htext : s.ofText? text = none) (vars : String → Option String) :
    s.spelled? (Function.update vars name (some text)) = none := by
  rw [spelled?, h, Option.bind_some, Function.update_self, Option.bind_some, htext]

/-- The value at the place of another setting does not matter. -/
theorem content?_put (hs : s' ≠ s) (hopen : s.IsOpen fields) (v : Toml.Value) :
    s'.content? (s.put v fields) = s'.content? fields := by
  by_cases htable : s'.table = s.table
  · have hkey : s'.key ≠ s.key := fun hkey ↦ hs (eq_of_table_key htable hkey)
    rw [content?, content?, htable]
    rcases hopen with hnone | ⟨origin, inner, hinner⟩
    · simp only [put, hnone, lookup_set, ↓reduceIte, Config.entry?]
      rw [List.lookup_cons, beq_false_of_ne hkey]
      rfl
    · simp only [put, hinner, lookup_set, ↓reduceIte, Config.entry?, if_neg hkey]
  · have hlookup : (s.put v fields).lookup s'.table = fields.lookup s'.table := by
      rw [put]
      split
      · rw [lookup_set, if_neg htable]
      · rw [lookup_set, if_neg htable]
    rw [content?, content?, hlookup]

/-- The value at the place of another setting does not matter. -/
theorem written?_put (hs : s' ≠ s) (hopen : s.IsOpen fields) (v : Toml.Value) :
    s'.written? (s.put v fields) = s'.written? fields := by
  rw [written?, content?_put hs hopen, written?]

end Setting

/-- The document in force is that of the named file, or else of the first candidate that is there;
without any of them it is empty. -/
def InForce (env : Environment) (t : FileTree) (named : Option Path) (fields : Toml.Fields) :
    Prop :=
  match named with
  | some p => Holds t p fields
  | none =>
    match (candidates env).find? fun p ↦ t.isPresent p with
    | some p => Holds t p fields
    | none => fields = []

/-- The configuration in force is that of the document in force and the variables. -/
theorem InForce.exists_sought {vars : String → Option String} {home : Option Path}
    {named : Option Path}
    (h : InForce (Environment.ofVariables (m := Id) vars home) t named fields) :
    ∃ c, sought (Environment.ofVariables (m := Id) vars home) t named = .ok c ∧
      Resolves vars fields c := by
  cases named with
  | some p => exact Holds.exists_held h vars home
  | none =>
    rw [InForce] at h
    rw [sought, found]
    cases hfind : (candidates (Environment.ofVariables (m := Id) vars home)).find? fun p ↦
      t.isPresent p with
    | some p =>
      rw [hfind] at h
      exact h.exists_held vars home
    | none =>
      rw [hfind] at h
      rw [show fields = [] from h]
      exact ⟨_, rfl, resolves_default vars home⟩

end Config

namespace Command

open Config

/-! ### Runs -/

/-- Compiles the circuit of the given kind and shape. -/
def compileAs (kind : CircuitKind) (depth leaves : UInt64) (paths : ArtifactPaths)
    (random : Stream) :
    Step String :=
  match kind with
  | .inclusion => do
    compileWith paths random (← Step.of .library (InclusionCircuit.new depth.toNat))
  | .listRoot => do
    compileWith paths random (← Step.of .library (ListRootCircuit.new leaves.toNat))

/-- The artifacts of a run: all in one directory, except that the proof is with the data if there
are any. -/
def placed (names : ArtifactNames) (directory : Path) (data : Option Path) : ArtifactPaths :=
  { names.paths directory with proof := Path.join (data.getD directory) names.proof }

/-- A run compiles the shape that is set, or else the configured one. -/
theorem compile_eq (a : Arguments) (c : Config) (paths : ArtifactPaths) (random : Stream) :
    compile a c paths random
      = compileAs a.kind (a.depth.getD c.depth) (a.leaves.getD c.listLeaves) paths random := by
  rw [compile]
  cases a.kind with
  | inclusion => rfl
  | listRoot => rfl

/-- A run has its artifacts in the directory that is set, or else in the configured one. -/
theorem paths_eq (a : Arguments) (c : Config) :
    paths a c = placed c.artifacts (a.circuit.getD c.artifacts.directory) a.data := by
  rw [paths, placed]
  cases a.data with
  | some data => rfl
  | none => rfl

/-- A path that is set or inherited, when the inherited one is not empty. -/
theorem Draft.orInherited_eq_some {chosen inherited : Option String}
    (h : chosen = none → inherited ≠ some "") :
    orInherited chosen inherited = some (chosen.or inherited) := by
  cases chosen with
  | some p => rfl
  | none =>
    cases inherited with
    | none => rfl
    | some value =>
      have hne : value ≠ "" := fun he ↦ h rfl (congrArg some he)
      simp only [orInherited, path?, if_neg hne, Option.map_some, Option.none_or]

/-- The settings of arguments with one task, where what they inherit is not empty. -/
theorem settings?_of_read {env : Environment} {arguments : List String} {d : Draft} {task : Task}
    (hread : Draft.empty.read arguments = some (.settings d)) (htasks : d.tasks = [task])
    (hcircuit : d.circuit = none → env.buildDirectory ≠ some "")
    (hconfig : d.config = none → env.configFile ≠ some "") :
    settings? env arguments
      = some ⟨task, d.circuit.or env.buildDirectory, d.data, d.kind.getD .inclusion, d.depth,
          d.leaves, d.config.or env.configFile⟩ := by
  simp only [settings?, hread]
  apply Draft.complete_eq_some_iff.2
  exact ⟨task, _, _, htasks, Draft.orInherited_eq_some hcircuit, Draft.orInherited_eq_some hconfig,
    rfl⟩

/-- The artifact directory is the one that is set, or else that of the settings, whether or not the
variable for it has been inherited before. -/
theorem directory_of_resolves {vars : String → Option String} {fields : Toml.Fields} {c : Config}
    (h : Resolves vars fields c) (chosen : Option Path) :
    (chosen.or (vars "SSZ_BUILD_DIR")).getD c.artifacts.directory
      = chosen.getD (Setting.directory.resolve vars fields) := by
  have hdirectory : c.artifacts.directory = Setting.directory.resolve vars fields := h .directory
  have hspelled : Setting.directory.spelled? vars = vars "SSZ_BUILD_DIR" := Option.bind_fun_some _
  rw [hdirectory, Setting.resolve, hspelled]
  cases chosen with
  | some p => rfl
  | none =>
    cases vars "SSZ_BUILD_DIR" with
    | some value => rfl
    | none => rfl

/-- Every setting is resolved on its own. A file is loaded when it holds a valid document, and then
every setting has the value of its variable, or else that of the document, or else the default. A
variable that cannot be converted changes nothing, and neither the variable of another setting nor
what is at its place in the document matters. A run has its artifacts in the directory that is set,
or else in the one that these settings name, and it compiles the shape that is set, or else the one
that these settings give. -/
theorem settings_resolved_by_precedence (vars : String → Option String) (home : Option Path)
    (t : FileTree) :
    let env : Environment := Environment.ofVariables (m := Id) vars home
    (∀ p fields, Holds t p fields →
      ∃ c, (loadFrom env p).run.run t = (.ok c, t) ∧
        ∀ s : Setting, c.get s = s.resolve vars fields) ∧
    (∀ p c, (loadFrom env p).run.run t = (.ok c, t) → ∃ fields, Holds t p fields) ∧
    (∀ (s : Setting) name text fields, s.variableName? = some name → s.ofText? text = none →
      s.resolve (Function.update vars name (some text)) fields
        = s.resolve (Function.update vars name none) fields) ∧
    (∀ (s s' : Setting) fields, s' ≠ s →
      (∀ name value, s.variableName? = some name →
        s'.resolve (Function.update vars name value) fields = s'.resolve vars fields) ∧
      ∀ v, s.IsOpen fields → s'.resolve vars (s.put v fields) = s'.resolve vars fields) ∧
    ∀ (arguments : List String) (d : Draft) (task : Task) (fields : Toml.Fields),
      Draft.empty.read arguments = some (.settings d) → d.tasks = [task] → task ≠ .sampleConfig →
      (d.circuit = none → vars "SSZ_BUILD_DIR" ≠ some "") →
      (d.config = none → vars "SSZ_CONFIG" ≠ some "") →
      InForce env t (d.config.or (vars "SSZ_CONFIG")) fields →
      ∃ a c, settings? env arguments = some a ∧ (∀ s : Setting, c.get s = s.resolve vars fields) ∧
        paths a c
          = placed c.artifacts (d.circuit.getD (Setting.directory.resolve vars fields)) d.data ∧
        ∀ fresh, (run env fresh arguments).run t = (conclude fresh a (.ok c)).run t ∧
          (task = .compile → carryOut fresh a c
            = compileAs (d.kind.getD .inclusion) (d.depth.getD (Setting.depth.resolve vars fields))
                (d.leaves.getD (Setting.listLeaves.resolve vars fields)) (paths a c)
                (randomness c fresh)) := by
  intro env
  refine ⟨fun p fields h ↦ ?_, fun p c h ↦ ?_, fun s name text fields h htext ↦ ?_,
    fun s s' fields hs ↦ ⟨?_, ?_⟩, ?_⟩
  · obtain ⟨c, hc, hresolves⟩ := h.exists_held vars home
    refine ⟨c, ?_, hresolves⟩
    rw [run_loadFrom, hc]
  · rw [run_loadFrom] at h
    exact exists_holds (Prod.mk.inj h).1
  · have hnone : s.spelled? (Function.update vars name none) = none := by
      rw [Setting.spelled?, h, Option.bind_some, Function.update_self, Option.bind_none]
    rw [Setting.resolve, Setting.resolve, Setting.spelled?_of_unconvertible h htext, hnone]
  · intro name value h
    rw [Setting.resolve, Setting.resolve, Setting.spelled?_update hs h]
  · intro v hopen
    rw [Setting.resolve, Setting.resolve, Setting.written?_put hs hopen]
  · intro arguments d task fields hread htasks htask hcircuit hconfig hforce
    obtain ⟨c, hc, hresolves⟩ := hforce.exists_sought
    have hs : settings? env arguments = _ := settings?_of_read hread htasks hcircuit hconfig
    refine ⟨_, c, hs, hresolves, ?_, fun fresh ↦ ⟨?_, fun hcompile ↦ ?_⟩⟩
    · rw [paths_eq]
      exact congrArg (placed c.artifacts · d.data) (directory_of_resolves hresolves d.circuit)
    · have hrun : (run env fresh arguments).run t = _ := run_eq_conclude hs htask
      exact hrun.trans (congrArg (fun r ↦ (conclude fresh _ r).run t) hc)
    · obtain rfl : task = .compile := hcompile
      rw [← hresolves .depth, ← hresolves .listLeaves]
      exact compile_eq _ c _ _

/-- A document with a depth, variables for the directory and, not convertible, for the depth, and an
option for the number of leaves: the run compiles for the depth of the document and the leaves of
the option, in the directory of the variable. -/
theorem settings_resolved_by_precedence_compile :
    let vars (name : String) : Option String :=
      if name = "SSZ_BUILD_DIR" then some "out"
      else if name = "SSZ_CIRCUIT_DEPTH" then some "deep" else none
    let env : Environment := Environment.ofVariables (m := Id) vars none
    let t : FileTree := ⟨[], [(["f.toml"], .file "[circuit]\ndepth = 7\n".toUTF8.toList)]⟩
    let arguments := ["--compile", "--config", "f.toml", "--leaves", "8"]
    (∃ c, (loadFrom env "f.toml").run.run t = (.ok c, t) ∧ c.depth = 7 ∧ c.listLeaves = 4) ∧
    Setting.depth.resolve (Function.update vars "SSZ_CIRCUIT_DEPTH" (some "deep")) []
      = Setting.depth.resolve (Function.update vars "SSZ_CIRCUIT_DEPTH" none) [] ∧
    ∃ a c, (run env (Stream.ofSeed 0) arguments).run t
      = (conclude (Stream.ofSeed 0) a (.ok c)).run t ∧
      paths a c = placed c.artifacts "out" none ∧
      carryOut (Stream.ofSeed 0) a c
        = compileAs .inclusion 7 8 (paths a c) (randomness c (Stream.ofSeed 0)) := by
  intro vars env t arguments
  let fields : Toml.Fields := [("circuit", .table .header [("depth", .integer 7)])]
  have hread : t.read "f.toml" = .ok "[circuit]\ndepth = 7\n".toUTF8.toList := by
    decide +kernel
  have hholds : Holds t "f.toml" fields := by
    refine ⟨"[circuit]\ndepth = 7\n", ?_, rfl, fun s ↦ ?_⟩
    · rw [FileTree.readText, hread]
      simp only [fromUTF8?_toUTF8]
    · cases s with
      | depth => exact ⟨some (.integer 7), rfl, by rintro _ ⟨⟩; exact ⟨(7 : UInt64), rfl⟩⟩
      | directory | r1cs | provingKey | verifyingKey | contract | proof | setupSeed | listLeaves =>
        exact Setting.valid_of_absent rfl
  obtain ⟨hload, -, htext, -, hrun⟩ := settings_resolved_by_precedence vars none t
  obtain ⟨c, hc, hresolves⟩ := hload "f.toml" fields hholds
  let d : Draft := ⟨[.compile], none, none, none, none, some 8, some "f.toml"⟩
  obtain ⟨a, c', -, -, hpaths, hgo⟩ :=
    hrun arguments d .compile fields (by decide +kernel) rfl (by decide)
    (fun _ ↦ by decide) (fun h ↦ absurd h (by decide)) hholds
  obtain ⟨hconclude, hcompile⟩ := hgo (Stream.ofSeed 0)
  exact ⟨⟨c, hc, hresolves .depth, hresolves .listLeaves⟩,
    htext .depth _ "deep" [] rfl (by decide), a, c', hconclude, hpaths, hcompile rfl⟩

/-! ### What compiling leaves behind -/

variable {env : Environment} {fresh random : Stream} {arguments : List String} {a : Arguments}
  {o : Outcome} {text : String} {artifacts : ArtifactPaths} {t t' : FileTree}
  {trail : List FileTree}

/-- The build is the one that is generated for the circuit of the given kind and shape. -/
def IsGenerated (kind : CircuitKind) (depth leaves : UInt64) (random : Stream) (b : Build) : Prop :=
  match kind with
  | .inclusion => ∃ c, InclusionCircuit.new depth.toNat = .ok c ∧
      Build.generate (Committed.ofComputation c) random = .ok b
  | .listRoot => ∃ c, ListRootCircuit.new leaves.toNat = .ok c ∧
      Build.generate (Committed.ofComputation c) random = .ok b

/-- A step that succeeds after one whose result is there already goes on with that result. -/
theorem runs_bind_of {α β : Type} {failure : Error → Failure} {r : Except Error α} {k : α → Step β}
    {x : β} (h : (Step.of failure r >>= k).run.Runs FileTree.RespondsSeeing t trail
      (.done (.ok x)) t') :
    ∃ y after, r = .ok y ∧ (k y).run.Runs FileTree.RespondsSeeing t after (.done (.ok x)) t' := by
  rcases Action.runs_bind_looks (looks_of _ _) h with ⟨-, e, hx⟩ | ⟨y, after, hy, h⟩
  · cases hx
  · cases r with
    | error e => cases hy
    | ok z =>
      obtain rfl : z = y := Except.ok.inj (Prod.mk.inj hy).1
      exact ⟨z, after, rfl, h⟩

/-- When compiling a computation succeeds, the build that is generated for it has been saved. -/
theorem stored_of_compileWith {γ : Type} [Computation γ] {c : γ}
    (h : (compileWith artifacts random c).run.Runs FileTree.RespondsSeeing t trail
      (.done (.ok text)) t') :
    ∃ b, Build.generate (Committed.ofComputation c) random = .ok b ∧
      (artifacts.AreSeparate t.current → b.IsStored artifacts t') := by
  obtain ⟨b, _, hb, h⟩ := runs_bind_of h
  refine ⟨b, hb, fun hpaths ↦ ?_⟩
  rcases Action.runs_bind_done h with ⟨_, -, hr⟩ | ⟨_, m, _, _, hsave, hdone⟩
  · cases hr
  · obtain ⟨r, _, hsave, hr⟩ := Action.runs_adapt_done hsave
    obtain ⟨-, rfl, -⟩ := hdone.done_eq
    cases r with
    | error e => cases hr
    | ok _ => exact Build.isStored_of_save FileTree.RespondsSeeing.responds hsave hpaths

/-- When compiling a circuit succeeds, the build that is generated for its shape has been saved. -/
theorem stored_of_compileAs {kind : CircuitKind} {depth leaves : UInt64}
    (h : (compileAs kind depth leaves artifacts random).run.Runs FileTree.RespondsSeeing t trail
      (.done (.ok text)) t') :
    ∃ b, IsGenerated kind depth leaves random b ∧
      (artifacts.AreSeparate t.current → b.IsStored artifacts t') := by
  cases kind with
  | inclusion =>
    obtain ⟨c, _, hc, h⟩ := runs_bind_of h
    obtain ⟨b, hb, hstored⟩ := stored_of_compileWith h
    exact ⟨b, ⟨c, hc, hb⟩, hstored⟩
  | listRoot =>
    obtain ⟨c, _, hc, h⟩ := runs_bind_of h
    obtain ⟨b, hb, hstored⟩ := stored_of_compileWith h
    exact ⟨b, ⟨c, hc, hb⟩, hstored⟩

/-- A run that compiles with a configuration and exits with zero has saved the build that is
generated for its shape. -/
theorem stored_of_run {c : Config} (hs : settings? env arguments = some a) (ha : a.task = .compile)
    (hc : sought env t a.config = .ok c)
    (h : (run env fresh arguments).Runs FileTree.RespondsSeeing t trail (.done o) t')
    (hcode : o.code = 0) :
    ∃ b, IsGenerated a.kind (a.depth.getD c.depth) (a.leaves.getD c.listLeaves)
        (randomness c fresh) b ∧
      ((paths a c).AreSeparate t.current → b.IsStored (paths a c) t') := by
  obtain ⟨r, _, hperform, rfl⟩ := runs_of_settings hs h
  obtain ⟨text, rfl⟩ := Outcome.code_ofResult_eq_zero_iff.1 hcode
  rw [perform_eq (by rw [ha]; nofun)] at hperform
  rcases Action.runs_bind_looks (looks_configuration env a) hperform with
    ⟨-, _, hr⟩ | ⟨c', _, hc', hcompile⟩
  · cases hr
  · rw [run_configuration, hc] at hc'
    obtain rfl : c = c' := Except.ok.inj (Prod.mk.inj hc').1
    simp only [carryOut, ha, compile_eq] at hcompile
    exact stored_of_compileAs hcompile

/-- A run that compiles and exits with zero has saved a build, unless its files replace each other.
The build is generated for the shape that is set, or else for the one that the settings in force
give. Its files are in the directory that is set, or else in the one that these settings name. -/
theorem stored_of_compile {vars : String → Option String} {home : Option Path} {d : Draft}
    {fields : Toml.Fields} (hread : Draft.empty.read arguments = some (.settings d))
    (htasks : d.tasks = [.compile]) (hcircuit : d.circuit = none → vars "SSZ_BUILD_DIR" ≠ some "")
    (hconfig : d.config = none → vars "SSZ_CONFIG" ≠ some "")
    (hforce : InForce (Environment.ofVariables (m := Id) vars home) t
      (d.config.or (vars "SSZ_CONFIG")) fields)
    (h : (run (Environment.ofVariables (m := Id) vars home) fresh arguments).Runs
      FileTree.RespondsSeeing t trail (.done o) t') (hcode : o.code = 0) :
    ∃ c b, Resolves vars fields c ∧
      IsGenerated (d.kind.getD .inclusion) (d.depth.getD (Setting.depth.resolve vars fields))
        (d.leaves.getD (Setting.listLeaves.resolve vars fields)) (randomness c fresh) b ∧
      let artifacts := placed c.artifacts
        (d.circuit.getD (Setting.directory.resolve vars fields)) d.data
      artifacts.AreSeparate t.current → b.IsStored artifacts t' := by
  have hs : settings? (Environment.ofVariables (m := Id) vars home) arguments = _ :=
    settings?_of_read hread htasks hcircuit hconfig
  obtain ⟨c, hc, hresolves⟩ := hforce.exists_sought
  obtain ⟨b, hb, hstored⟩ := stored_of_run hs rfl hc h hcode
  rw [show c.depth = _ from hresolves .depth,
    show c.listLeaves = _ from hresolves .listLeaves] at hb
  rw [paths_eq] at hstored
  have hplaced := congrArg (placed c.artifacts · d.data) (directory_of_resolves hresolves d.circuit)
  exact ⟨c, b, hresolves, hb, hplaced ▸ hstored⟩

end Command

end TreeProver
