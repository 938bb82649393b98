import TreeProver.Proofs.Command.Run

/-!
# How a configuration is looked for

The library looks for a file at the path that the environment names, then in the current directory,
then in the home directory, and the first one that is there decides. A path of the environment that
leads nowhere is passed over.

A run in which no file is named takes the path of the environment for one that is. It has the
configuration that the library finds if that path leads somewhere. If it leads nowhere the run
fails, and if it is empty the run is not even begun.
-/

namespace TreeProver

open Script

variable {t : FileTree} {env : Environment}

/-- What is not there has no text. -/
theorem FileTree.exists_readText_error {p : Path} (h : t.isPresent p = false) :
    ∃ e, t.readText p = .error e := by
  cases hread : t.read p with
  | error e =>
    refine ⟨e, ?_⟩
    rw [readText, hread]
  | ok content =>
    rw [isPresent_of_read hread] at h
    cases h

namespace Config

/-! ### The search of the library -/

/-- The configuration in a file, with the settings of the environment. -/
def held (env : Environment) (t : FileTree) (p : Path) : Except ConfigError Config :=
  match t.readText p with
  | .error e => .error (.unreadable p e)
  | .ok text =>
    match parse? text with
    | some c => .ok (c.override env)
    | none => .error (.malformed p)

/-- The configuration in the first candidate that is there, or else the default one with the
settings of the environment. -/
def found (env : Environment) (t : FileTree) : Except ConfigError Config :=
  match (candidates env).find? fun p ↦ t.isPresent p with
  | some p => held env t p
  | none => .ok (default.override env)

/-- The configuration in a named file, or else the one that the library finds. -/
def sought (env : Environment) (t : FileTree) : Option Path → Except ConfigError Config
  | some p => held env t p
  | none => found env t

/-- Reading a configuration file gives the configuration in it. -/
theorem run_loadFrom (env : Environment) (p : Path) (t : FileTree) :
    (loadFrom env p).run.run t = (held env t p, t) := by
  rw [loadFrom, ExceptT.run_bind, Script.run_bind, readFile, ExceptT.run_mk, Script.run_bind,
    Script.run_readText, held]
  cases t.readText p with
  | error e => rfl
  | ok text =>
    simp only
    cases parse? text with
    | some c => rfl
    | none => rfl

/-- The library finds the first candidate. -/
theorem run_load (env : Environment) (t : FileTree) : (load env).run.run t = (found env t, t) := by
  have hlift :
      (liftM (firstPresent (candidates env)) : ExceptT ConfigError Script (Option Path)).run
      = firstPresent (candidates env) >>= fun p ↦ pure (.ok p) := rfl
  rw [load, ExceptT.run_bind, Script.run_bind, hlift, Script.run_bind, run_firstPresent, found]
  cases (candidates env).find? fun p ↦ t.isPresent p with
  | some p => exact run_loadFrom env p t
  | none => rfl

/-- What is not there cannot be read as a configuration file. -/
theorem held_of_missing {p : Path} (h : t.isPresent p = false) :
    ∃ e, held env t p = .error (.unreadable p e) := by
  obtain ⟨e, he⟩ := FileTree.exists_readText_error h
  exact ⟨e, by rw [held, he]⟩

/-- A configuration file that cannot be read is the one that was to be read. -/
theorem eq_of_held_unreadable {p q : Path} {e : IoError}
    (h : held env t p = .error (.unreadable q e)) :
    p = q := by
  rw [held] at h
  split at h
  · cases h
    rfl
  · split at h
    · cases h
    · cases h

/-- The candidate that the environment names comes first. -/
theorem found_of_present {p : Path} (hp : env.configFile = some p) (h : t.isPresent p = true) :
    found env t = held env t p := by
  rw [found, candidates, hp, Option.toList_some, List.singleton_append, List.cons_append,
    List.find?_cons_of_pos h]

/-- A candidate that the environment names and that is not there does not matter. -/
theorem found_of_missing {p : Path} (hp : env.configFile = some p) (h : t.isPresent p = false) :
    found env t = found { env with configFile := none } t := by
  have hskip : (candidates env).find? (fun p ↦ t.isPresent p)
      = (candidates { env with configFile := none }).find? fun p ↦ t.isPresent p := by
    rw [candidates, hp, Option.toList_some, List.singleton_append, List.cons_append,
      List.find?_cons_of_neg (by simp [h])]
    rfl
  rw [found, found, hskip]
  rfl

/-- The library does not fail for a candidate that is not there. -/
theorem found_ne_unreadable {p : Path} {e : IoError} (h : t.isPresent p = false) :
    found env t ≠ .error (.unreadable p e) := by
  intro hfound
  rw [found] at hfound
  split at hfound
  · next q hq =>
    obtain rfl := eq_of_held_unreadable hfound
    rw [List.find?_some hq] at h
    cases h
  · cases hfound

end Config

namespace Command

/-! ### The search of a run -/

variable {a : Arguments} {d : Draft} {arguments : List String} {fresh : Stream}

/-- What a run does when it has its configuration. -/
def carryOut (fresh : Stream) (a : Arguments) (config : Config) : Step String :=
  match a.task with
  | .sampleConfig => pure Config.sample
  | .compile => compile a config (paths a config) (randomness config fresh)
  | .prove => do prove a.kind (← dataDirectory a) (paths a config)
  | .verify => do
    let _ ← dataDirectory a
    verify (paths a config)

/-- What a run does when it has a configuration, or has failed to get one. -/
def conclude (fresh : Stream) (a : Arguments) : Except ConfigError Config → Script Outcome
  | .ok config => do pure (Outcome.ofResult (← (carryOut fresh a config).run))
  | .error e => pure (.failed (.config e))

/-- The configuration of a run is that in the named file, or else the one that the library finds. -/
theorem run_configuration (env : Environment) (a : Arguments) (t : FileTree) :
    (configuration env a).run.run t = ((Config.sought env t a.config).mapError .config, t) := by
  rw [configuration, Action.run_adapt]
  cases a.config with
  | some p => rw [Config.run_loadFrom, Config.sought]
  | none => rw [Config.run_load, Config.sought]

/-- A run that needs a configuration gets it first. -/
theorem perform_eq (ha : a.task ≠ .sampleConfig) :
    perform env fresh a = configuration env a >>= carryOut fresh a := by
  cases htask : a.task with
  | sampleConfig => exact absurd htask ha
  | compile | prove | verify =>
    simp only [perform, htask]
    congr 1
    funext config
    simp only [carryOut, htask]

/-- A run that needs a configuration does its task with it. -/
theorem run_eq_conclude (hs : settings? env arguments = some a) (ha : a.task ≠ .sampleConfig) :
    (run env fresh arguments).run t = (conclude fresh a (Config.sought env t a.config)).run t := by
  rw [run_of_settings hs, Script.run_bind, perform_eq ha, ExceptT.run_bind, Script.run_bind,
    run_configuration]
  cases Config.sought env t a.config with
  | error e => rfl
  | ok config =>
    rw [conclude, Script.run_bind]
    rfl

/-- A path that is not set is inherited unless the environment names an empty one. -/
theorem Draft.orInherited_eq_none_iff {chosen inherited : Option String} :
    orInherited chosen inherited = none ↔ chosen = none ∧ inherited = some "" := by
  cases chosen with
  | some p => simp [orInherited]
  | none =>
    cases inherited with
    | none => simp [orInherited]
    | some value => simp [orInherited, path?]

/-- A draft is incomplete when it has not one task or inherits an empty path. -/
theorem Draft.complete_eq_none_iff : d.complete env = none ↔ (∀ task, d.tasks ≠ [task]) ∨
    (d.circuit = none ∧ env.buildDirectory = some "") ∨
      (d.config = none ∧ env.configFile = some "") := by
  rw [← orInherited_eq_none_iff, ← orInherited_eq_none_iff]
  constructor
  · intro h
    by_contra hn
    push Not at hn
    obtain ⟨⟨task, htask⟩, hcircuit, hconfig⟩ := hn
    obtain ⟨circuit, hcircuit⟩ := Option.ne_none_iff_exists'.1 hcircuit
    obtain ⟨config, hconfig⟩ := Option.ne_none_iff_exists'.1 hconfig
    rw [complete_eq_some_iff.2 ⟨task, circuit, config, htask, hcircuit, hconfig, rfl⟩] at h
    cases h
  · intro h
    cases hc : d.complete env with
    | none => rfl
    | some a =>
      obtain ⟨task, circuit, config, htask, hcircuit, hconfig, -⟩ := complete_eq_some_iff.1 hc
      rcases h with h | h | h
      · exact absurd htask (h task)
      · rw [h] at hcircuit
        cases hcircuit
      · rw [h] at hconfig
        cases hconfig

/-- A run without a named file takes the path of the environment for one. -/
theorem config_of_complete (h : d.complete env = some a) (hd : d.config = none) :
    a.config = env.configFile := by
  obtain ⟨_, _, config, -, -, hconfig, rfl⟩ := Draft.complete_eq_some_iff.1 h
  rw [hd] at hconfig
  cases hfile : env.configFile with
  | none =>
    rw [hfile] at hconfig
    exact (Option.some.inj hconfig).symm
  | some p =>
    rw [hfile, Draft.orInherited, path?] at hconfig
    split at hconfig
    · cases hconfig
    · exact (Option.some.inj hconfig).symm

/-- The arguments are well formed, and name no configuration file. -/
def LeavesSearch (arguments : List String) (d : Draft) : Prop :=
  Draft.empty.read arguments = some (.settings d) ∧ d.config = none

/-- How a run finds its configuration when its arguments name no file. The library finds the first
candidate that is there. The run is refused when there is not one task, or the environment names an
empty path for the artifacts or for the configuration. Otherwise it does its task with what the
library finds, be it a configuration or a failure, if the path that the environment names for the
configuration leads somewhere or there is none. If it leads nowhere, the library passes it over, and
the run fails for it. -/
theorem command_line_search (h : LeavesSearch arguments d) (env : Environment) (fresh : Stream)
    (t : FileTree) :
    (Config.load env).run.run t = (Config.found env t, t) ∧
    ((d.complete env = none ↔ (∀ task, d.tasks ≠ [task]) ∨
        (d.circuit = none ∧ env.buildDirectory = some "") ∨ env.configFile = some "") ∧
      (d.complete env = none → run env fresh arguments = .done .misuse)) ∧
    ∀ a, d.complete env = some a → a.task ≠ .sampleConfig →
      ((∀ p, env.configFile = some p → t.isPresent p = true) →
        (run env fresh arguments).run t = (conclude fresh a (Config.found env t)).run t) ∧
      ∀ p, env.configFile = some p → t.isPresent p = false →
        Config.found env t = Config.found { env with configFile := none } t ∧
        (∀ e, Config.found env t ≠ .error (.unreadable p e)) ∧
        ∃ e, (run env fresh arguments).run t = (.failed (.config (.unreadable p e)), t) := by
  obtain ⟨hread, hd⟩ := h
  refine ⟨Config.run_load env t, ⟨?_, fun hnone ↦ ?_⟩, fun a ha htask ↦ ?_⟩
  · rw [Draft.complete_eq_none_iff, hd]
    simp only [true_and]
  · simp only [run, hread, hnone]
    rfl
  · have hs : settings? env arguments = some a := by
      simp only [settings?, hread, ha]
    have hrun : (run env fresh arguments).run t = _ := run_eq_conclude hs htask
    rw [config_of_complete ha hd] at hrun
    constructor
    · intro hpresent
      rw [hrun]
      cases hfile : env.configFile with
      | none => rfl
      | some p => rw [Config.sought, Config.found_of_present hfile (hpresent p hfile)]
    · intro p hfile hmissing
      refine ⟨Config.found_of_missing hfile hmissing,
        fun e ↦ Config.found_ne_unreadable hmissing, ?_⟩
      obtain ⟨e, he⟩ : ∃ e, Config.held env t p = _ := Config.held_of_missing hmissing
      refine ⟨e, ?_⟩
      rw [hrun, hfile, Config.sought, he]
      rfl

/-- Two files with a configuration that name different directories, a key in the one that the first
file names, and a proof that the key accepts. -/
def searchTree : FileTree :=
  ⟨[], [(["named.toml"], .file "[artifacts]\ndir = \"keys\"\n".toUTF8.toList),
    (["ssz-prover.toml"], .file "[artifacts]\ndir = \"other\"\n".toUTF8.toList),
    (["keys"], .directory), (["keys", "vkey.bin"], .file idleKey.encode),
    (["data"], .directory), (["data", "proof.json"], .file leafProof.format.toUTF8.toList)]⟩

/-- The default configuration with another directory for the artifacts. -/
def configIn (directory : Path) : Config :=
  { Config.default with artifacts.directory := directory }

/-- The arguments of a run that verifies, with the configuration file that it names. -/
def verifyArguments (named : Option String) : Arguments :=
  { defaultArguments .verify .inclusion with config := named }

/-- Where the environment names a file that is there, the library finds it before the one in the
current directory, and a run that verifies accepts a proof with the key in the directory that the
file names. Without the variable it finds the other file, and there is no key in its directory. -/
theorem command_line_search_named :
    let env (named : Option String) : Environment :=
      { bare with configFile := named, home := some "home" }
    let arguments := ["--verify", "--data", "data"]
    LeavesSearch arguments { Draft.empty with tasks := [.verify], data := some "data" } ∧
      (run (env "named.toml") (Stream.ofSeed 0) arguments).run searchTree
        = (.finished "Proof verified\n", searchTree) ∧
      ((run (env none) (Stream.ofSeed 0) arguments).run searchTree).1
        = .failed (.library (.artifactIo .verifyingKey "read" "other/vkey.bin"
            IoError.notFound.message)) := by
  intro env arguments
  have h : LeavesSearch arguments { Draft.empty with tasks := [.verify], data := some "data" } := by
    constructor
    · decide +kernel
    · rfl
  refine ⟨h, ?_, ?_⟩
  · have hfound : Config.found (env "named.toml") searchTree = .ok (configIn "keys") := by
      decide +kernel
    have hnamed : ∀ p, (env "named.toml").configFile = some p → searchTree.isPresent p = true := by
      rintro _ ⟨⟩
      decide +kernel
    have hrun := ((command_line_search h (env "named.toml") (Stream.ofSeed 0) searchTree).2.2
      (verifyArguments "named.toml") rfl nofun).1 hnamed
    have hverifies : Verifies searchTree (paths (verifyArguments "named.toml") (configIn "keys")) :=
      verifies_leafProof
        (FileTree.read_of_locate (p := ["keys", "vkey.bin"]) (by decide +kernel) rfl)
        (FileTree.read_of_locate (p := ["data", "proof.json"]) (by decide +kernel) rfl)
    have hdata : (dataDirectory (verifyArguments "named.toml")).run.run searchTree
        = (.ok "data", searchTree) :=
      run_dataDirectory_ok_iff.2 ⟨rfl, rfl⟩
    have hverify : (carryOut (Stream.ofSeed 0) (verifyArguments "named.toml")
        (configIn "keys")).run.run searchTree = (.ok "Proof verified\n", searchTree) := by
      rw [carryOut, verifyArguments, defaultArguments]
      exact (Action.run_bind_of_ok hdata).trans (run_verify_ok_iff.2 ⟨rfl, rfl, hverifies⟩)
    rw [hrun, hfound, conclude, Script.run_bind, hverify]
    rfl
  · have hfound : Config.found (env none) searchTree = .ok (configIn "other") := by
      decide +kernel
    have hrun := ((command_line_search h (env none) (Stream.ofSeed 0) searchTree).2.2
      (verifyArguments none) rfl nofun).1 nofun
    rw [hrun, hfound]
    decide +kernel

/-- Where nothing is stored and the environment names a file, the library still finds the defaults,
but a run that verifies fails for that file and not, as with the defaults, for the data directory
that is not given. -/
theorem missing_file_fails_run :
    let env : Environment := ⟨some "missing.toml", none, none, none, none, none⟩
    let a : Arguments := ⟨.verify, none, none, .inclusion, none, none, none⟩
    (Config.load env).run.run ⟨[], []⟩ = (.ok Config.default, ⟨[], []⟩) ∧
      (conclude (Stream.ofSeed 0) a (.ok Config.default)).run ⟨[], []⟩
        = (.failed .dataMissing, ⟨[], []⟩) ∧
      (run env (Stream.ofSeed 0) ["--verify"]).run ⟨[], []⟩
        = (.failed (.config (.unreadable "missing.toml" .notFound)), ⟨[], []⟩) := by
  intro env a
  refine ⟨?_, rfl, ?_⟩
  · have hfound : Config.found env ⟨[], []⟩ = .ok Config.default := by decide +kernel
    rw [Config.run_load, hfound]
  · have hs : settings? env ["--verify"] = some { a with config := some "missing.toml" } := by
      decide +kernel
    have hheld : Config.held env ⟨[], []⟩ "missing.toml"
        = .error (.unreadable "missing.toml" .notFound) := by
      decide +kernel
    rw [run_eq_conclude hs (by decide), Config.sought, hheld]
    rfl

end Command

end TreeProver
