import TreeProver.Proofs.Build.Damage
import TreeProver.Proofs.Command.Configuration
import TreeProver.Proofs.Json.Storage

/-!
# Saved proofs verify

A run that proves only looks until the proof has passed with the stored key, and then writes the
proof. So the proof that was there before is still there when the run fails, and when it succeeds, a
run that verifies accepts what it has written, provided the writing has not changed where the key
and the configuration come from.
-/

namespace TreeProver

open Circuit Layout Script

variable {t t' : FileTree} {trail : List FileTree}

/-! ### Loading -/

/-- A result that is there already only looks. -/
theorem Action.looks_of {ε α : Type} (r : Except ε α) : (liftM r : ExceptT ε Script α).run.Looks :=
  .done r

/-- Loading a build only looks. -/
theorem Build.looks_load (paths : ArtifactPaths) : (Build.load paths).run.Looks :=
  Action.looks_bind Artifact.looks_load fun _ ↦ Action.looks_bind Artifact.looks_load fun _ ↦
    Action.looks_of _

/-- Loading a verifying key only looks. -/
theorem VerifyingKey.looks_load (path : Path) : (VerifyingKey.load path).run.Looks :=
  Artifact.looks_load

/-- Loading a proof only looks. -/
theorem Proof.looks_load (path : Path) : (Proof.load path).run.Looks :=
  Action.looks_bind Artifact.looks_readText fun _ ↦ Action.looks_of _

/-- Loading an inclusion witness only looks. -/
theorem Inclusion.looks_load (path : Path) : (Inclusion.load path).run.Looks :=
  Action.looks_bind Artifact.looks_readText fun _ ↦ Action.looks_of _

/-- Loading a leaf list only looks. -/
theorem LeafList.looks_load (path : Path) : (LeafList.load path).run.Looks :=
  Action.looks_bind Artifact.looks_readText fun _ ↦ Action.looks_of _

/-- What is made of the text of an artifact is made of a file that its path leads to. -/
theorem Artifact.exists_locate {α : Type} {a : Artifact} {path : Path} {k : String → Action α}
    {x : α}
    (h : (a.readText path >>= k).run.run t = (.ok x, t')) : ∃ place, t.locate path = .ok place := by
  obtain ⟨text, m, htext, -⟩ := Action.run_bind_ok_iff.1 h
  obtain ⟨-, content, hread, -⟩ := run_readText_ok_iff.1 htext
  exact ⟨_, (FileTree.read_ok_iff.1 hread).1⟩

namespace Command

/-- The result of a step that is there already only looks. -/
theorem looks_of {α : Type} (failure : Error → Failure) (r : Except Error α) :
    (Step.of failure r).run.Looks := .done _

/-! ### Verifying -/

/-- The key and the proof are there, and the key accepts the proof. -/
def Verifies (t : FileTree) (paths : ArtifactPaths) : Prop :=
  ∃ key p, (VerifyingKey.load paths.verifyingKey).run.run t = (.ok key, t) ∧
    (Proof.load paths.proof).run.run t = (.ok p, t) ∧ key.verify p = .ok true

/-- Verifying only looks. -/
theorem looks_verify (paths : ArtifactPaths) : (verify paths).run.Looks := by
  refine Action.looks_bind (Action.looks_adapt (VerifyingKey.looks_load _)) fun key ↦ ?_
  refine Action.looks_bind (Action.looks_adapt (Proof.looks_load _)) fun p ↦ ?_
  refine Action.looks_bind (looks_of _ _) fun accepted ↦ ?_
  cases accepted with
  | true => exact .done _
  | false => exact .done _

/-- Verifying succeeds with one text, when the key accepts the proof. -/
theorem run_verify_ok_iff {paths : ArtifactPaths} {text : String} :
    (verify paths).run.run t = (.ok text, t') ↔
      t' = t ∧ text = "Proof verified\n" ∧ Verifies t paths := by
  rw [verify, Action.run_bind_looks_ok_iff (Action.looks_adapt (VerifyingKey.looks_load _))]
  constructor
  · rintro ⟨key, hkey, h⟩
    rw [Action.run_bind_looks_ok_iff (Action.looks_adapt (Proof.looks_load _))] at h
    obtain ⟨p, hp, h⟩ := h
    rw [Action.run_bind_looks_ok_iff (looks_of _ _)] at h
    obtain ⟨accepted, haccepted, h⟩ := h
    rw [Action.run_adapt_ok_iff] at hkey hp
    cases accepted with
    | false => cases h
    | true =>
      cases h
      refine ⟨rfl, rfl, key, p, hkey, hp, ?_⟩
      cases hv : key.verify p with
      | error e =>
        rw [hv] at haccepted
        cases haccepted
      | ok x =>
        rw [hv] at haccepted
        cases haccepted
        rfl
  · rintro ⟨rfl, rfl, key, p, hkey, hp, hv⟩
    refine ⟨key, Action.run_adapt_ok_iff.2 hkey, ?_⟩
    rw [Action.run_bind_looks_ok_iff (Action.looks_adapt (Proof.looks_load _))]
    refine ⟨p, Action.run_adapt_ok_iff.2 hp, ?_⟩
    rw [hv]
    rfl

/-! ### Proving -/

/-- How proving ends: it has failed and everything is as it was, or a proof that the stored key
accepts has been written, or could not be written. -/
inductive ProvingEnds (t : FileTree) (paths : ArtifactPaths) :
    Except Failure String → FileTree → Prop
  | refused (why : Failure) : ProvingEnds t paths (.error why) t
  | saved {p : Proof} {key : VerifyingKey} {trail : List FileTree} {t' : FileTree} {text : String}
    (hkey : (VerifyingKey.load paths.verifyingKey).run.run t = (.ok key, t))
    (hverify : key.verify p = .ok true)
    (hsave : (p.save paths.proof).run.Runs FileTree.RespondsSeeing t trail (.done (.ok ())) t') :
    ProvingEnds t paths (.ok text) t'
  | unsaved {p : Proof} {trail : List FileTree} {t' : FileTree} {e : Error} (why : Failure)
    (hsave : (p.save paths.proof).run.Runs FileTree.RespondsSeeing t trail (.done (.error e)) t') :
    ProvingEnds t paths (.error why) t'

/-- Proving an input of a computation ends so. -/
theorem provingEnds_proveWith {γ : Type} [Computation γ] {paths : ArtifactPaths} {b : Build} {c : γ}
    {input : Bytes} {r : Except Failure String}
    (h : (proveWith paths b c input).run.Runs FileTree.RespondsSeeing t trail (.done r) t') :
    ProvingEnds t paths r t' := by
  have hproof : (proof b c input).run.Looks := by
    rw [proof]
    split
    · exact .done _
    · exact .done _
    · exact .done _
  rw [proveWith] at h
  rcases Action.runs_bind_looks hproof h with ⟨rfl, why, rfl⟩ | ⟨p, _, -, h⟩
  · exact .refused why
  rcases Action.runs_bind_looks (Action.looks_adapt (VerifyingKey.looks_load _)) h with
    ⟨rfl, why, rfl⟩ | ⟨key, _, hkey, h⟩
  · exact .refused why
  rw [Action.run_adapt_ok_iff] at hkey
  rcases Action.runs_bind_looks (looks_of _ _) h with ⟨rfl, why, rfl⟩ | ⟨accepted, _, haccepted, h⟩
  · exact .refused why
  cases hv : key.verify p with
  | error e =>
    rw [hv] at haccepted
    cases haccepted
  | ok x =>
    rw [hv] at haccepted
    cases haccepted
    cases accepted with
    | false =>
      obtain ⟨hr, rfl, -⟩ := h.done_eq
      obtain rfl := Script.done.inj hr
      exact .refused _
    | true =>
      rcases Action.runs_bind_done h with ⟨why, hsave, rfl⟩ | ⟨_, m, _, _, hsave, hdone⟩
      · obtain ⟨r', _, hsave, hr⟩ := Action.runs_adapt_done hsave
        cases r' with
        | error e => exact .unsaved why hsave
        | ok _ => cases hr
      · obtain ⟨r', _, hsave, hr⟩ := Action.runs_adapt_done hsave
        cases r' with
        | error e => cases hr
        | ok _ =>
          obtain ⟨hr, rfl, -⟩ := hdone.done_eq
          obtain rfl := Script.done.inj hr
          exact .saved hkey hv hsave

/-- Proving an input saves its proof when the key that is there accepts it and the proof can be
written. -/
theorem run_proveWith {γ : Type} [Computation γ] {paths : ArtifactPaths} {b : Build} {c : γ}
    {input : Bytes} {p : Proof} {key : VerifyingKey}
    (hproof : (b.proveInput (Committed.ofComputation c) input).1 = .ok p)
    (hkey : (VerifyingKey.load paths.verifyingKey).run.run t = (.ok key, t))
    (hverify : key.verify p = .ok true) (hsave : (p.save paths.proof).run.run t = (.ok (), t')) :
    ∃ text, (proveWith paths b c input).run.run t = (.ok text, t') := by
  have hp : (proof b c input).run.run t = (.ok p, t) := by
    rw [proof, hproof]
    rfl
  have haccepted : (Step.of .library (key.verify p)).run.run t = (.ok true, t) := by
    rw [hverify]
    rfl
  rw [proveWith, Action.run_bind_of_ok hp, Action.run_bind_of_ok (Action.run_adapt_ok_iff.2 hkey),
    Action.run_bind_of_ok haccepted, if_pos rfl,
    Action.run_bind_of_ok (Action.run_adapt_ok_iff.2 hsave)]
  exact ⟨_, rfl⟩

/-- Proving the witness in a directory ends so, with success only if there is a witness. -/
theorem provingEnds_prove {kind : CircuitKind} {data : Path} {paths : ArtifactPaths}
    {r : Except Failure String}
    (h : (prove kind data paths).run.Runs FileTree.RespondsSeeing t trail (.done r) t') :
    ProvingEnds t paths r t' ∧ ∀ text, r = .ok text →
      ∃ file : String, '/' ∉ file.toList ∧ ∃ place, t.locate (Path.join data file) = .ok place := by
  rw [prove] at h
  rcases Action.runs_bind_looks (Action.looks_adapt (Build.looks_load _)) h with
    ⟨rfl, why, rfl⟩ | ⟨b, _, -, h⟩
  · exact ⟨.refused why, nofun⟩
  cases kind with
  | inclusion =>
    rcases Action.runs_bind_looks (Action.looks_adapt (Inclusion.looks_load _)) h with
      ⟨rfl, why, rfl⟩ | ⟨w, _, hw, h⟩
    · exact ⟨.refused why, nofun⟩
    rcases Action.runs_bind_looks (looks_of _ _) h with ⟨rfl, why, rfl⟩ | ⟨c, _, -, h⟩
    · exact ⟨.refused why, nofun⟩
    refine ⟨provingEnds_proveWith h, fun _ _ ↦ ⟨inclusionFile, by decide, ?_⟩⟩
    exact Artifact.exists_locate (Action.run_adapt_ok_iff.1 hw)
  | listRoot =>
    rcases Action.runs_bind_looks (Action.looks_adapt (LeafList.looks_load _)) h with
      ⟨rfl, why, rfl⟩ | ⟨w, _, hw, h⟩
    · exact ⟨.refused why, nofun⟩
    rcases Action.runs_bind_looks (looks_of _ _) h with ⟨rfl, why, rfl⟩ | ⟨c, _, -, h⟩
    · exact ⟨.refused why, nofun⟩
    refine ⟨provingEnds_proveWith h, fun _ _ ↦ ⟨leavesFile, by decide, ?_⟩⟩
    exact Artifact.exists_locate (Action.run_adapt_ok_iff.1 hw)

/-! ### Runs -/

/-- The settings of arguments that are well formed and do not ask for help. -/
def settings? (env : Environment) (arguments : List String) : Option Arguments :=
  match Draft.empty.read arguments with
  | some (.settings d) => d.complete env
  | _ => none

variable {env : Environment} {fresh : Stream} {arguments : List String} {a : Arguments}
  {o : Outcome}

/-- The outcome of a result. -/
def Outcome.ofResult : Except Failure String → Outcome
  | .ok text => .finished text
  | .error why => .failed why

/-- A run without settings does nothing. -/
theorem run_of_no_settings (fresh : Stream) (h : settings? env arguments = none) :
    ∃ o, run env fresh arguments = .done o := by
  rw [settings?] at h
  rw [run]
  split at h
  · next d hread =>
    simp only [hread, h]
    exact ⟨.misuse, rfl⟩
  · next hread =>
    cases hd : Draft.empty.read arguments with
    | none => exact ⟨.misuse, rfl⟩
    | some request =>
      cases request with
      | help => exact ⟨.help, rfl⟩
      | settings d => exact absurd hd (hread d)

/-- A run with settings does its task. -/
theorem run_of_settings (h : settings? env arguments = some a) :
    run env fresh arguments
      = (perform env fresh a).run >>= fun r ↦ pure (Outcome.ofResult r) := by
  rw [settings?] at h
  rw [run]
  split at h
  · next d hread =>
    simp only [hread, h]
    congr 1
    funext r
    cases r with
    | ok text => rfl
    | error why => rfl
  · cases h

/-- A run with settings is over when its task is. -/
theorem runs_of_settings {R : Behaviour} (hs : settings? env arguments = some a)
    (h : (run env fresh arguments).Runs R t trail (.done o) t') :
    ∃ r before, (perform env fresh a).run.Runs R t before (.done r) t' ∧
      o = Outcome.ofResult r := by
  rw [run_of_settings hs] at h
  rcases h.bind with ⟨_, _, -, hd⟩ | ⟨r, m, before, after, -, hperform, hdone⟩
  · cases hd
  · obtain ⟨ho, rfl, -⟩ := hdone.done_eq
    exact ⟨r, before, hperform, Script.done.inj ho⟩

/-- A run exits with zero when its task has succeeded. -/
theorem Outcome.code_ofResult_eq_zero_iff {r : Except Failure String} :
    (ofResult r).code = 0 ↔ ∃ text, r = .ok text := by
  cases r with
  | ok text => exact ⟨fun _ ↦ ⟨text, rfl⟩, fun _ ↦ rfl⟩
  | error why =>
    refine ⟨fun h ↦ ?_, nofun⟩
    cases why <;> cases h

/-- Settings for proving become those for verifying. -/
theorem settings?_verifying (hs : settings? env arguments = some a) (ha : a.task = .prove) :
    settings? env (arguments.map verifying) = some { a with task := .verify } := by
  rw [settings?] at hs
  split at hs
  · next d hread =>
    obtain ⟨d', hread', hcomplete⟩ := exists_complete_verifying hread hs ha
    rw [settings?, hread']
    exact hcomplete
  · cases hs

/-- Nothing is inherited for settings that name no configuration file. -/
theorem configFile_of_settings (hs : settings? env arguments = some a) (ha : a.config = none) :
    env.configFile = none := by
  rw [settings?] at hs
  split at hs
  · exact configFile_of_complete hs ha
  · cases hs

/-- Asking for the data directory only looks. -/
theorem looks_dataDirectory (a : Arguments) : (dataDirectory a).run.Looks := by
  rw [dataDirectory]
  split
  · exact .done _
  · exact .done _

/-- The data directory is the one that is set. -/
theorem run_dataDirectory_ok_iff {data : Path} :
    (dataDirectory a).run.run t = (.ok data, t') ↔ t' = t ∧ a.data = some data := by
  rw [dataDirectory]
  cases a.data with
  | none =>
    constructor
    · intro h
      cases h
    · rintro ⟨-, h⟩
      cases h
  | some data' =>
    constructor
    · intro h
      cases h
      exact ⟨rfl, rfl⟩
    · rintro ⟨rfl, h⟩
      cases h
      rfl

/-- A run that proves has failed with everything as it was, or proves with its configuration. -/
theorem runs_perform_prove (ha : a.task = .prove) {r : Except Failure String}
    (h : (perform env fresh a).run.Runs FileTree.RespondsSeeing t trail (.done r) t') :
    (t' = t ∧ ∃ why, r = .error why) ∨ ∃ config data after,
      (configuration env a).run.run t = (.ok config, t) ∧ a.data = some data ∧
      (prove a.kind data (paths a config)).run.Runs FileTree.RespondsSeeing t after
        (.done r) t' := by
  simp only [perform, ha] at h
  rcases Action.runs_bind_looks (looks_configuration env a) h with h | ⟨config, _, hconfig, h⟩
  · exact .inl h
  rcases Action.runs_bind_looks (looks_dataDirectory a) h with h | ⟨data, after, hdata, h⟩
  · exact .inl h
  exact .inr ⟨config, data, after, hconfig, (run_dataDirectory_ok_iff.1 hdata).2, h⟩

/-- With a configuration and a directory of data, a run that proves proves with them. -/
theorem run_perform_prove (ha : a.task = .prove) {config : Config} {data : Path}
    (hconfig : (configuration env a).run.run t = (.ok config, t)) (hdata : a.data = some data) :
    (perform env fresh a).run.run t = (prove a.kind data (paths a config)).run.run t := by
  simp only [perform, ha]
  rw [Action.run_bind_of_ok hconfig,
    Action.run_bind_of_ok (run_dataDirectory_ok_iff.2 ⟨rfl, hdata⟩)]

/-- A run that verifies only looks. -/
theorem looks_perform_verify (ha : a.task = .verify) : (perform env fresh a).run.Looks := by
  simp only [perform, ha]
  refine Action.looks_bind (looks_configuration env a) fun config ↦ ?_
  exact Action.looks_bind (looks_dataDirectory a) fun _ ↦ looks_verify _

/-- A run that verifies succeeds with one text, when the configured key accepts the proof. -/
theorem run_perform_verify_ok_iff (ha : a.task = .verify) {text : String} :
    (perform env fresh a).run.run t = (.ok text, t') ↔ t' = t ∧ text = "Proof verified\n" ∧
      ∃ config data, (configuration env a).run.run t = (.ok config, t) ∧ a.data = some data ∧
        Verifies t (paths a config) := by
  simp only [perform, ha]
  rw [Action.run_bind_looks_ok_iff (looks_configuration env a)]
  constructor
  · rintro ⟨config, hconfig, h⟩
    obtain ⟨data, hdata, h⟩ := (Action.run_bind_looks_ok_iff (looks_dataDirectory a)).1 h
    obtain ⟨ht, htext, hv⟩ := run_verify_ok_iff.1 h
    exact ⟨ht, htext, config, data, hconfig, (run_dataDirectory_ok_iff.1 hdata).2, hv⟩
  · rintro ⟨rfl, rfl, config, data, hconfig, hdata, hv⟩
    refine ⟨config, hconfig,
      (Action.run_bind_looks_ok_iff (looks_dataDirectory a)).2 ⟨data, ?_, ?_⟩⟩
    · exact run_dataDirectory_ok_iff.2 ⟨rfl, hdata⟩
    · exact run_verify_ok_iff.2 ⟨rfl, rfl, hv⟩

/-! ### Proving, then verifying -/

/-- The places that saving a proof is about: where the proof belongs, where it waits, and where a
directory has come into being. -/
def Concerns (t t' : FileTree) (proof : Path) (q : Place) : Prop :=
  q = proof.place t.current ∨ q = (ArtifactFile.staging proof).place t.current ∨
    t.get? q = none ∧ t'.get? q = some .directory

instance (t t' : FileTree) (proof : Path) (q : Place) : Decidable (Concerns t t' proof q) :=
  inferInstanceAs (Decidable (_ ∨ _ ∨ _))

/-- What saving a proof leaves behind: the proof, and everything as it was at the places that it is
not about. Behind a path that leads somewhere with one name, no directory comes into being for
another. -/
structure Saved (t t' : FileTree) (p : Proof) (proof : Path) : Prop where
  current : t'.current = t.current
  directories : ∀ q, t.get? q = some .directory → t'.get? q = some .directory
  read : t'.read proof = .ok p.format.toUTF8.toList
  entries : ∀ q, ¬ Concerns t t' proof q → t'.get? q = t.get? q
  beside : ∀ (data : Path) (file name : String) (place : Place), '/' ∉ file.toList →
    '/' ∉ name.toList →
    proof = Path.join data name → t.locate (Path.join data file) = .ok place →
    ∀ q, t'.get? q = some .directory → t.get? q = some .directory

/-- A proof has been saved when writing it has succeeded. -/
theorem saved_of_runs {p : Proof} {proof : Path}
    (h : (p.save proof).run.Runs FileTree.RespondsSeeing t trail (.done (.ok ())) t') :
    Saved t t' p proof := by
  obtain ⟨hkeep, hok, -⟩ := ArtifactFile.runs_write FileTree.RespondsSeeing.responds h
  obtain ⟨hread, hgone⟩ := hok rfl
  refine ⟨hkeep.current, hkeep.directories, hread, fun q hq ↦ ?_, ?_⟩
  · refine hkeep.get?_eq ?_ fun hnew ↦ hq (.inr (.inr hnew))
    rintro (he | he)
    · exact hq (.inr (.inl he))
    · exact hq (.inl he)
  · rintro data file name place hfile hname rfl hplace q hq
    by_cases hmade : ∃ r : Path, r.IsAbove (Path.join data name) ∧ q = r.place t.current
    · obtain ⟨r, hr, rfl⟩ := hmade
      exact FileTree.get?_of_isAbove_join hfile hname hplace hr
    · refine (hkeep.entries q ?_ hmade).symm.trans hq
      rintro (he | he)
      · rw [he, hgone] at hq
        cases hq
      · have hcontent := FileTree.file?_eq_some_iff.1 (FileTree.read_ok_iff.1 hread).2
        rw [hkeep.current] at hcontent
        rw [he] at hq
        cases hq.symm.trans hcontent

/-- When a proof has been saved, the key is still loaded from a place that saving it is not
about. -/
theorem Saved.run_load {p : Proof} {proof path : Path} (hs : Saved t t' p proof)
    (hpath : ¬ Concerns t t' proof (path.place t.current)) {key : VerifyingKey}
    (h : (VerifyingKey.load path).run.run t = (.ok key, t)) :
    (VerifyingKey.load path).run.run t' = (.ok key, t') := by
  obtain ⟨-, content, hread, hkey⟩ := Artifact.run_load_ok_iff.1 h
  refine Artifact.run_load_ok_iff.2 ⟨rfl, content, ?_, hkey⟩
  exact FileTree.read_of_get? hs.current hs.directories (hs.entries _ hpath) hread

/-- When a proof has been saved, the configuration is the same if saving it is not about the places
of its files. -/
theorem Saved.run_configuration {p : Proof} {config : Config} {data : Path} {file : String}
    {place : Place} (hs : Saved t t' p (paths a config).proof)
    (henv : a.config = none → env.configFile = none)
    (hdata : a.data = some data) (hfile : '/' ∉ file.toList)
    (hplace : t.locate (Path.join data file) = .ok place)
    (hfiles : ∀ p ∈ configFiles env a, ¬ Concerns t t' (paths a config).proof (p.place t.current))
    (h : (configuration env a).run.run t = (.ok config, t)) :
    (configuration env a).run.run t' = (.ok config, t') := by
  refine run_configuration_of_get? henv hs.current hs.directories
    (fun p hp ↦ hs.entries _ (hfiles p hp)) (fun ha hnone ↦ ?_) h
  -- Without a file the proof has its default name, and the directory of the witness is there
  -- already.
  have hdefault : config = Config.default.override env := by
    have hc := (run_configuration_ok_iff.1 h).2
    rw [ha, hnone] at hc
    exact hc
  have hproof : (paths a config).proof = Path.join data "proof.json" := by
    rw [paths, hdata, hdefault]
    rfl
  exact hs.beside data file "proof.json" place hfile (by decide) hproof hplace

/-- A run that proves and fails leaves the file where the proof belongs as it was. -/
theorem file?_of_prove_failed {kind : CircuitKind} {data : Path} {paths : ArtifactPaths}
    {why : Failure}
    (h : (prove kind data paths).run.Runs FileTree.RespondsSeeing t trail (.done (.error why)) t') :
    t'.file? (paths.proof.place t.current) = t.file? (paths.proof.place t.current) := by
  cases (provingEnds_prove h).1 with
  | refused => rfl
  | unsaved _ hsave =>
    exact (ArtifactFile.runs_write FileTree.RespondsSeeing.responds hsave).2.2 _ rfl

/-- A run that proves with the configuration there is, and succeeds, has saved a proof that the key
accepts, and a run that verifies accepts it, if saving the proof was not about the places of the key
and of the configuration. -/
theorem verifies_of_prove {config : Config} {data : Path} {text : String}
    (hs : settings? env arguments = some a) (ha : a.task = .prove)
    (hconfig : (configuration env a).run.run t = (.ok config, t)) (hdata : a.data = some data)
    (hfiles : ∀ p ∈ (paths a config).verifyingKey :: configFiles env a,
      ¬ Concerns t t' (paths a config).proof (p.place t.current))
    (h : (prove a.kind data (paths a config)).run.Runs FileTree.RespondsSeeing t trail
      (.done (.ok text)) t') :
    Verifies t' (paths a config) ∧ ∀ fresh',
      (run env fresh' (arguments.map verifying)).run t' = (.finished "Proof verified\n", t') := by
  obtain ⟨hends, hwitness⟩ := provingEnds_prove h
  obtain ⟨file, hfile, place, hplace⟩ := hwitness text rfl
  rw [List.forall_mem_cons] at hfiles
  cases hends with
  | @saved p key _ _ _ hkey hverify hsave =>
    have hsaved := saved_of_runs hsave
    have hconfig' := hsaved.run_configuration (configFile_of_settings hs) hdata hfile hplace
      hfiles.2 hconfig
    have hv : Verifies t' (paths a config) :=
      ⟨key, p, hsaved.run_load hfiles.1 hkey, Proof.run_load hsaved.read, hverify⟩
    refine ⟨hv, fun fresh' ↦ ?_⟩
    have hperform : (perform env fresh' { a with task := .verify }).run.run t'
        = (.ok "Proof verified\n", t') :=
      (run_perform_verify_ok_iff rfl).2 ⟨rfl, rfl, config, data, hconfig', hdata, hv⟩
    rw [run_of_settings (settings?_verifying hs ha), Script.run_bind, hperform]
    rfl

/-! ### Runs by default -/

/-- An environment without variables. -/
def bare : Environment := ⟨none, none, none, none, none, none⟩

/-- The arguments of a run that leaves everything open but the directory of the data. -/
def defaultArguments (task : Task) (kind : CircuitKind) : Arguments :=
  ⟨task, none, some "data", kind, none, none, none⟩

/-- The paths of such a run, which do not depend on the task and the kind of the circuit. -/
def defaultPaths : ArtifactPaths := paths (defaultArguments .prove .inclusion) Config.default

theorem paths_defaultArguments (task : Task) (kind : CircuitKind) :
    paths (defaultArguments task kind) Config.default = defaultPaths := rfl

/-- Where no configuration file is found, the default configuration is loaded. -/
theorem run_configuration_bare
    (h : (Config.candidates bare).find? (fun p ↦ t.isPresent p) = none) (task : Task)
    (kind : CircuitKind) :
    (configuration bare (defaultArguments task kind)).run.run t = (.ok Config.default, t) := by
  rw [run_configuration_ok_iff]
  dsimp only [defaultArguments]
  rw [h]
  exact ⟨rfl, rfl⟩

/-! ### What is stored for a single leaf -/

/-- The key for two public inputs whose points are all the identity. -/
def idleKey : VerifyingKey :=
  ⟨.identity, .identity, .identity, .identity, [.identity, .identity, .identity]⟩

/-- The key for two public inputs whose points are all the identity, to prove with. -/
def idleProvingKey : ProvingKey :=
  ⟨idleKey, .identity, .identity, [.identity], [.identity], [.identity], [], []⟩

/-- The points of the key are the identity. -/
theorem idle_idleProvingKey : Groth16.Idle idleProvingKey where
  verifying := ⟨rfl, rfl, rfl, rfl, by simp [idleProvingKey, idleKey, AllIdentity]⟩
  beta := rfl
  delta := rfl
  aColumns := by simp [idleProvingKey, AllIdentity]
  bColumns := by simp [idleProvingKey, AllIdentity]
  bColumns2 := by simp [idleProvingKey, AllIdentity]
  quotient := by simp [idleProvingKey, AllIdentity]
  witnesses := by simp [idleProvingKey, AllIdentity]

/-- The key can be written. -/
theorem isStorable_idleKey : idleKey.IsStorable :=
  ⟨⟨G1.isMember_identity, G2.isMember_identity, G2.isMember_identity, G2.isMember_identity,
    by simp [idleKey, G1.isMember_identity]⟩, by decide⟩

/-- The key to prove with can be written. -/
theorem isStorable_idleProvingKey : idleProvingKey.IsStorable where
  verifying := isStorable_idleKey
  beta := G1.isMember_identity
  delta := G1.isMember_identity
  lists := by simp [idleProvingKey, G1.isMember_identity, UInt64.size]
  bColumns2 := by simp [idleProvingKey, G2.isMember_identity, UInt64.size]

/-- A leaf. -/
def leaf : Word := Word.ofNat 1

/-- The system of the statement about the leaf. -/
def leafSystem : R1cs :=
  (((ListRootCircuit.singleLeaf leaf).layout .proving).toOption.getD (Layout.empty .proving)).toR1cs

/-- The proof of the statement. -/
def leafProof : Proof :=
  Proof.ofPoints Groth16.idlePoints (commitment leaf.bytes) (commitment leaf.bytes)

/-- The system is that of the values. -/
theorem leafSystem_eq {s : Layout}
    (hl : (ListRootCircuit.singleLeaf leaf).layout .proving = .ok s) :
    leafSystem = s.toR1cs := by
  rw [leafSystem, hl]
  rfl

/-- The system can be written. -/
theorem isStorable_leafSystem : leafSystem.IsStorable := by
  obtain ⟨s, hl, hf, hsat, hcompile, hinstances, hroom, -⟩ :=
    ListRootCircuit.exists_layout_singleLeaf leaf
  have hblank : (((ListRootCircuit.singleLeaf leaf).layout .setup).toOption.any
      fun s₀ ↦ decide (s₀.witnesses ≤ 2 ^ 16)) = true := by
    decide +kernel
  obtain ⟨s₀, hl₀, hw⟩ := (Option.any_eq_true _ _).1 hblank
  rw [Build.compile, Committed.blank, Except.eq_ok_of_toOption hl₀] at hcompile
  have he : s₀.toR1cs = s.toR1cs := Except.ok.inj hcompile
  have hcolumns : s₀.toR1cs.witnesses ≤ s₀.witnesses + s₀.toR1cs.constraints := by
    simpa [toR1cs, R1cs.ofRows] using s₀.size_lower_le.2
  have hle := of_decide_eq_true hw
  rw [he] at hcolumns
  rw [leafSystem_eq hl]
  exact hf.isStorable_toR1cs hsat (by omega) (by omega)

/-- The build proves the statement, with identities. -/
theorem prove_leafSystem :
    (⟨leafSystem, idleProvingKey⟩ : Build).prove (ListRootCircuit.singleLeaf leaf)
      = .ok leafProof := by
  obtain ⟨s, hl, hf, hsat, -, -, hroom, hz⟩ := ListRootCircuit.exists_layout_singleLeaf leaf
  have hpoints : Groth16.HasPoints idleProvingKey := by constructor <;> simp [idleProvingKey]
  rw [leafSystem_eq hl]
  exact Build.prove_of_idle idle_idleProvingKey hpoints rfl rfl hf hsat rfl hroom (hz _)

/-- The key accepts the proof. -/
theorem verify_leafProof : idleKey.verify leafProof = .ok true := by
  obtain ⟨ha, hb, hc⟩ := Groth16.isMember_idlePoints
  have hkey : Groth16.IdleVerifying idleKey := ⟨rfl, rfl, rfl, rfl, by simp [idleKey, AllIdentity]⟩
  have hrange : leafProof.InRange := ⟨toNat_commitment_lt _, toNat_commitment_lt _⟩
  have hpoints : leafProof.toPoints = .ok Groth16.idlePoints := Proof.toPoints_ofPoints ha hb hc _ _
  rw [VerifyingKey.verify_of_points idleKey hrange hpoints]
  exact congrArg (Except.mapError Error.verification) (hkey.verify_eq rfl)

/-- The text of the list of the leaf. -/
def leafText : String :=
  "\x7b\"leaves\": [\"0x0000000000000000000000000000000000000000000000000000000000000001\"]\x7d"

/-- The build and the leaf, where a run looks for them by default, and something else where the
proof belongs. -/
def leafTree : FileTree :=
  ⟨[], [(["build"], .directory), (["build", "r1cs.bin"], .file leafSystem.encode),
    (["build", "pkey.bin"], .file idleProvingKey.encode),
    (["build", "vkey.bin"], .file idleKey.encode), (["data"], .directory),
    (["data", "leaves.json"], .file leafText.toUTF8.toList), (["data", "proof.json"], .file [2])]⟩

/-- The verifying key and the proof, where a run looks for them by default. -/
def idleTree : FileTree :=
  ⟨[], [(["build"], .directory), (["build", "vkey.bin"], .file idleKey.encode),
    (["data"], .directory), (["data", "proof.json"], .file leafProof.format.toUTF8.toList)]⟩

/-- What is read from the files. There is none with a configuration. -/
theorem read_leafTree :
    leafTree.read defaultPaths.r1cs = .ok leafSystem.encode ∧
    leafTree.read defaultPaths.provingKey = .ok idleProvingKey.encode ∧
    leafTree.read defaultPaths.verifyingKey = .ok idleKey.encode ∧
    leafTree.read (Path.join "data" leavesFile) = .ok leafText.toUTF8.toList ∧
    (Config.candidates bare).find? (fun p ↦ leafTree.isPresent p) = none := by
  have hplaces : leafTree.locate defaultPaths.r1cs = .ok ["build", "r1cs.bin"] ∧
      leafTree.locate defaultPaths.provingKey = .ok ["build", "pkey.bin"] ∧
      leafTree.locate defaultPaths.verifyingKey = .ok ["build", "vkey.bin"] ∧
      leafTree.locate (Path.join "data" leavesFile) = .ok ["data", "leaves.json"] ∧
      (Config.candidates bare).find? (fun p ↦ leafTree.isPresent p) = none := by
    decide +kernel
  obtain ⟨hr1cs, hprovingKey, hverifyingKey, hleaves, hnone⟩ := hplaces
  exact ⟨FileTree.read_of_locate hr1cs rfl, FileTree.read_of_locate hprovingKey rfl,
    FileTree.read_of_locate hverifyingKey rfl, FileTree.read_of_locate hleaves rfl, hnone⟩

/-- The build is loaded. -/
theorem run_load_leafTree :
    (Build.load defaultPaths).run.run leafTree
      = (.ok ⟨leafSystem, idleProvingKey⟩, leafTree) := by
  have hinstances : leafSystem.instances = 3 := by
    obtain ⟨s, hl, -, -, -, h, -⟩ := ListRootCircuit.exists_layout_singleLeaf leaf
    rw [leafSystem_eq hl, h]
  have hparts : Build.ofParts leafSystem idleProvingKey = .ok ⟨leafSystem, idleProvingKey⟩ := by
    rw [Build.ofParts, hinstances]
    rfl
  obtain ⟨hr1cs, hkey, -⟩ := read_leafTree
  exact Build.run_load hparts isStorable_leafSystem isStorable_idleProvingKey hr1cs hkey

/-- The list of the leaf is loaded. -/
theorem run_loadLeaves_leafTree :
    (LeafList.load (Path.join "data" leavesFile)).run.run leafTree = (.ok ⟨[leaf]⟩, leafTree) := by
  have hparse : LeafList.parse leafText = .ok ⟨[leaf]⟩ := by decide
  obtain ⟨-, -, -, hread, -⟩ := read_leafTree
  exact Artifact.run_parseText hread hparse

/-- The tree when the proof has been saved. -/
def provedTree : FileTree := ((leafProof.save defaultPaths.proof).run.run leafTree).2

/-- Saving the proof succeeds. -/
theorem run_save_leafProof :
    (leafProof.save defaultPaths.proof).run.run leafTree = (.ok (), provedTree) := by
  have h : ((leafProof.save defaultPaths.proof).run.run leafTree).1 = .ok () := by decide +kernel
  rw [provedTree, ← h]

/-- Where the build and the leaf are stored, the leaf is proved and the proof is saved. -/
theorem run_prove_leaf :
    ∃ text, (perform bare (Stream.ofSeed 0) (defaultArguments .prove .listRoot)).run.run leafTree
      = (.ok text, provedTree) := by
  have hinput : LeafList.inputBytes ⟨[leaf]⟩ = leaf.bytes := List.append_nil _
  have hproved : (Build.proveInput ⟨leafSystem, idleProvingKey⟩
      (Committed.ofComputation ListRootCircuit.single) leaf.bytes).1 = .ok leafProof := by
    rw [Build.proveInput_of_assign (ListRootCircuit.assign_singleLeaf leaf)]
    exact prove_leafSystem
  obtain ⟨-, -, hread, -, hnone⟩ := read_leafTree
  have hkey : (VerifyingKey.load defaultPaths.verifyingKey).run.run leafTree
      = (.ok idleKey, leafTree) :=
    Artifact.run_load hread isStorable_idleKey.reads
  have hcircuit : (Step.of .library (LeafList.circuit ⟨[leaf]⟩)).run.run leafTree
      = (.ok ListRootCircuit.single, leafTree) := rfl
  obtain ⟨text, h⟩ := run_proveWith hproved hkey verify_leafProof run_save_leafProof
  refine ⟨text, ?_⟩
  rw [run_perform_prove rfl (run_configuration_bare hnone .prove .listRoot) rfl,
    paths_defaultArguments, prove,
    Action.run_bind_of_ok (Action.run_adapt_ok_iff.2 run_load_leafTree)]
  dsimp only [defaultArguments]
  rw [Action.run_bind_of_ok (Action.run_adapt_ok_iff.2 run_loadLeaves_leafTree),
    Action.run_bind_of_ok hcircuit, hinput]
  exact h

/-- Where the key and the proof are stored, the key accepts the proof. -/
theorem verifies_leafProof {paths : ArtifactPaths}
    (hkey : t.read paths.verifyingKey = .ok idleKey.encode)
    (hproof : t.read paths.proof = .ok leafProof.format.toUTF8.toList) : Verifies t paths :=
  ⟨idleKey, leafProof, Artifact.run_load hkey isStorable_idleKey.reads, Proof.run_load hproof,
    verify_leafProof⟩

/-! ### Only proofs that verify are saved -/

/-- Only proofs that verify are saved. A run whose arguments are not well formed, or ask for help,
does nothing. A run that proves leaves the file where the proof belongs as it was unless it exits
with zero. If it does, and saving the proof was not about the places of the key and of the
configuration, then the key that is there accepts the proof that is there, and a run with the flag
for verifying in place of that for proving says so. A run that verifies changes nothing, and exits
with zero only if the key accepts the proof. -/
theorem only_verifying_proofs_are_saved
    (h : (run env fresh arguments).Runs FileTree.RespondsSeeing t trail (.done o) t') :
    (settings? env arguments = none → t' = t) ∧
    ∀ a, settings? env arguments = some a →
      (a.task = .prove →
        (o.code ≠ 0 → ∀ config, (configuration env a).run.run t = (.ok config, t) →
          t'.file? ((paths a config).proof.place t.current)
            = t.file? ((paths a config).proof.place t.current)) ∧
        (o.code = 0 → ∃ config, (configuration env a).run.run t = (.ok config, t) ∧
          ((∀ p ∈ (paths a config).verifyingKey :: configFiles env a,
              ¬ Concerns t t' (paths a config).proof (p.place t.current)) →
            Verifies t' (paths a config) ∧ ∀ fresh',
              (run env fresh' (arguments.map verifying)).run t'
                = (.finished "Proof verified\n", t')))) ∧
      (a.task = .verify → t' = t ∧ (o.code = 0 → o = .finished "Proof verified\n" ∧
        ∃ config, (configuration env a).run.run t = (.ok config, t) ∧
          Verifies t (paths a config))) := by
  constructor
  · intro hs
    obtain ⟨o', ho⟩ := run_of_no_settings fresh hs
    rw [ho] at h
    exact h.done_eq.2.1
  · intro a hs
    obtain ⟨r, before, hperform, rfl⟩ := runs_of_settings hs h
    rw [ne_eq, Outcome.code_ofResult_eq_zero_iff]
    refine ⟨fun ha ↦ ⟨fun hcode config hconfig ↦ ?_, ?_⟩, fun ha ↦ ?_⟩
    · cases r with
      | ok text => exact absurd ⟨text, rfl⟩ hcode
      | error why =>
        rcases runs_perform_prove ha hperform with
          ⟨rfl, -⟩ | ⟨config', data, _, hconfig', -, hprove⟩
        · rfl
        · obtain rfl : config' = config :=
            Except.ok.inj (Prod.mk.inj (hconfig'.symm.trans hconfig)).1
          exact file?_of_prove_failed hprove
    · rintro ⟨text, rfl⟩
      rcases runs_perform_prove ha hperform with
        ⟨-, why, hr⟩ | ⟨config, data, _, hconfig, hdata, hprove⟩
      · cases hr
      · exact ⟨config, hconfig, fun hfiles ↦
          verifies_of_prove hs ha hconfig hdata hfiles hprove⟩
    · obtain ⟨ht, hrun⟩ := (looks_perform_verify ha).runs hperform
      refine ⟨ht, ?_⟩
      rintro ⟨text, rfl⟩
      obtain ⟨-, rfl, config, _, hconfig, -, hv⟩ := (run_perform_verify_ok_iff ha).1 (hrun text rfl)
      exact ⟨rfl, config, hconfig, hv⟩

/-- Where a build and a leaf are stored, a run that proves succeeds, and a run that verifies accepts
what it has saved. Where only a key and a proof that it accepts are stored, a run that proves fails
and leaves the proof alone, and a run that verifies succeeds. -/
theorem only_verifying_proofs_are_saved_idle :
    (∃ trail o,
      (run bare (Stream.ofSeed 0) ["--prove", "--data", "data", "--kind", "list-root"]).Runs
        FileTree.RespondsSeeing leafTree trail (.done o) provedTree ∧ o.code = 0 ∧
      Verifies provedTree defaultPaths ∧ ∀ fresh,
        (run bare fresh ["--verify", "--data", "data", "--kind", "list-root"]).run provedTree
          = (.finished "Proof verified\n", provedTree)) ∧
    (∃ trail o t', (run bare (Stream.ofSeed 0) ["--prove", "--data", "data"]).Runs
        FileTree.RespondsSeeing idleTree trail (.done o) t' ∧ o.code ≠ 0 ∧
      t'.file? ["data", "proof.json"] = some leafProof.format.toUTF8.toList) ∧
    ∃ trail o t', (run bare (Stream.ofSeed 0) ["--verify", "--data", "data"]).Runs
        FileTree.RespondsSeeing idleTree trail (.done o) t' ∧ o.code = 0 ∧
      t' = idleTree ∧ o = .finished "Proof verified\n" := by
  have hconfig := run_configuration_bare (t := idleTree) (by decide +kernel)
  refine ⟨?_, ?_, ?_⟩
  · have hs : settings? bare ["--prove", "--data", "data", "--kind", "list-root"]
        = some (defaultArguments .prove .listRoot) := by
      decide +kernel
    obtain ⟨-, -, -, -, hnone⟩ := read_leafTree
    have hleaf := run_configuration_bare hnone .prove .listRoot
    obtain ⟨text, hperform⟩ := run_prove_leaf
    obtain ⟨trail, h⟩ := Script.runs_run FileTree.respondsSeeing_perform
      (run bare (Stream.ofSeed 0) ["--prove", "--data", "data", "--kind", "list-root"]) leafTree
    rw [run_of_settings hs, Script.run_bind, hperform] at h
    rw [← run_of_settings hs] at h
    obtain ⟨config, hc, hsaved⟩ := (((only_verifying_proofs_are_saved h).2 _ hs).1 rfl).2 rfl
    obtain rfl : Config.default = config := Except.ok.inj (Prod.mk.inj (hleaf.symm.trans hc)).1
    rw [paths_defaultArguments] at hsaved
    have hconcerns : ∀ p ∈ defaultPaths.verifyingKey ::
          configFiles bare (defaultArguments .prove .listRoot),
        ¬ Concerns leafTree provedTree defaultPaths.proof (p.place leafTree.current) := by
      decide +kernel
    exact ⟨trail, _, h, rfl, hsaved hconcerns⟩
  · have hs : settings? bare ["--prove", "--data", "data"]
        = some (defaultArguments .prove .inclusion) := by
      decide +kernel
    have hcode :
        ((run bare (Stream.ofSeed 0) ["--prove", "--data", "data"]).run idleTree).1.code ≠ 0 := by
      decide +kernel
    have hplace : Path.place idleTree.current defaultPaths.proof = ["data", "proof.json"] := by
      decide +kernel
    obtain ⟨trail, h⟩ := Script.runs_run FileTree.respondsSeeing_perform
      (run bare (Stream.ofSeed 0) ["--prove", "--data", "data"]) idleTree
    have hsame := (((only_verifying_proofs_are_saved h).2 _ hs).1 rfl).1 hcode _ (hconfig _ _)
    rw [paths_defaultArguments, hplace] at hsame
    exact ⟨trail, _, _, h, hcode, hsame.trans rfl⟩
  · have hs : settings? bare ["--verify", "--data", "data"]
        = some (defaultArguments .verify .inclusion) := by
      decide +kernel
    have hverifies : Verifies idleTree defaultPaths := verifies_leafProof
      (FileTree.read_of_locate (p := ["build", "vkey.bin"]) (by decide +kernel) rfl)
      (FileTree.read_of_locate (p := ["data", "proof.json"]) (by decide +kernel) rfl)
    have hperform : (perform bare (Stream.ofSeed 0) (defaultArguments .verify .inclusion)).run.run
        idleTree = (.ok "Proof verified\n", idleTree) :=
      (run_perform_verify_ok_iff rfl).2 ⟨rfl, rfl, _, _, hconfig _ _, rfl,
        (paths_defaultArguments _ _).symm ▸ hverifies⟩
    have hcode :
        ((run bare (Stream.ofSeed 0) ["--verify", "--data", "data"]).run idleTree).1.code = 0 := by
      rw [run_of_settings hs, Script.run_bind, hperform]
      rfl
    obtain ⟨trail, h⟩ := Script.runs_run FileTree.respondsSeeing_perform
      (run bare (Stream.ofSeed 0) ["--verify", "--data", "data"]) idleTree
    obtain ⟨ht, hdone⟩ := ((only_verifying_proofs_are_saved h).2 _ hs).2 rfl
    exact ⟨trail, _, _, h, hcode, ht, (hdone hcode).1⟩

end Command

end TreeProver
