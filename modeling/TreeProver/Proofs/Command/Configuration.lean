import TreeProver.Command.Run
import TreeProver.Proofs.Command.Arguments
import TreeProver.Proofs.Files.Looking

/-!
# Where the configuration comes from

Getting the configuration of a run only looks. A named file has to be there; otherwise the first
candidate that is there decides, and the defaults hold when there is none. So the configuration
stays the same as long as what is at the places of these files does, and no directory comes into
being that lets a path lead somewhere that led nowhere before.
-/

namespace TreeProver

open Script

variable {t t' : FileTree} {env : Environment}

namespace FileTree

/-- A file that can be read is there. -/
theorem isPresent_of_read {p : Path} {content : Bytes} (h : t.read p = .ok content) :
    t.isPresent p = true := by
  obtain ⟨hp, hc⟩ := read_ok_iff.1 h
  rw [isPresent, hp]
  simp only [file?_eq_some_iff.1 hc, Option.isSome_some]

/-- A file that can be read is still read when no directory is gone and it is as it was. -/
theorem read_of_get? (hc : t'.current = t.current)
    (hd : ∀ q, t.get? q = some .directory → t'.get? q = some .directory) {p : Path}
    (hp : t'.get? (p.place t.current) = t.get? (p.place t.current)) {content : Bytes}
    (h : t.read p = .ok content) : t'.read p = .ok content := by
  obtain ⟨hlocate, hfile⟩ := read_ok_iff.1 h
  rw [read_ok_iff, hc, file?_congr hp]
  exact ⟨locate_of_directories hc hd hlocate, hfile⟩

/-- What is not there is still not there when no directory has come into being and nothing is at its
place that was not there. -/
theorem isPresent_of_get? (hc : t'.current = t.current)
    (hd : ∀ q, t'.get? q = some .directory → t.get? q = some .directory) {p : Path}
    (hp : t'.get? (p.place t.current) = t.get? (p.place t.current)) (h : t.isPresent p = false) :
    t'.isPresent p = false := by
  rw [isPresent] at h ⊢
  cases hl : t'.locate p with
  | error e => rfl
  | ok place =>
    obtain rfl := locate_ok hl
    rw [locate_of_directories hc.symm hd hl, hc] at h
    rw [hc]
    simp only at h ⊢
    rwa [hp]

end FileTree

namespace Config

/-! ### Reading a file -/

/-- A configuration is that of a file with the settings of the environment. -/
def IsFrom (t : FileTree) (env : Environment) (p : Path) (c : Config) : Prop :=
  ∃ content text c', t.read p = .ok content ∧ String.fromUTF8? content.toByteArray = some text ∧
    parse? text = some c' ∧ c = c'.override env

/-- Reading a configuration file only looks. -/
theorem looks_loadFrom (p : Path) : (loadFrom env p).run.Looks := by
  refine Action.looks_bind ?_ fun c ↦ .done _
  refine (looks_readText p).bind (fun e ↦ ⟨_, rfl⟩) fun text ↦ ?_
  simp only
  split
  · exact .done _
  · exact .done _

/-- A configuration is read when a file holds it. -/
theorem run_loadFrom_ok_iff {p : Path} {c : Config} :
    (loadFrom env p).run.run t = (.ok c, t') ↔ t' = t ∧ IsFrom t env p c := by
  rw [loadFrom, Action.run_bind_ok_iff, readFile, ExceptT.run_mk]
  constructor
  · rintro ⟨c', m, hread, hover⟩
    rw [Script.run_bind_ok_iff fun e : IoError ↦ (⟨_, by rfl⟩ : ∃ e', _)] at hread
    obtain ⟨text, m', htext, hparse⟩ := hread
    obtain ⟨rfl, content, hcontent, hs⟩ := Script.run_readText_ok_iff.1 htext
    simp only at hparse
    cases hover
    split at hparse
    · next hc =>
      cases hparse
      exact ⟨rfl, content, text, c', hcontent, hs, hc, rfl⟩
    · cases hparse
  · rintro ⟨rfl, content, text, c', hcontent, hs, hc, rfl⟩
    refine ⟨c', t', ?_, rfl⟩
    rw [Script.run_bind_ok_iff fun e : IoError ↦ (⟨_, by rfl⟩ : ∃ e', _)]
    refine ⟨text, t', Script.run_readText_ok_iff.2 ⟨rfl, content, hcontent, hs⟩, ?_⟩
    simp only [hc]
    rfl

/-! ### Finding a file -/

/-- The first candidate that is there is found. -/
theorem run_firstPresent (ps : List Path) :
    (firstPresent ps).run t = (ps.find? fun p ↦ t.isPresent p, t) := by
  induction ps with
  | nil => rfl
  | cons p ps ih =>
    have hstep : (firstPresent (p :: ps)).run t
        = (if t.isPresent p then pure (some p) else firstPresent ps : Script (Option Path)).run t :=
      rfl
    rw [hstep, List.find?_cons]
    cases t.isPresent p with
    | true => rfl
    | false => exact ih

/-- Finding the first candidate only looks. -/
theorem looks_load : (load env).run.Looks := by
  rw [load]
  refine Action.looks_bind ?_ fun found ↦ ?_
  · generalize candidates env = ps
    induction ps with
    | nil => exact .done _
    | cons p ps ih =>
      refine .isPresent fun answer ↦ ?_
      cases answer with
      | true => exact .done _
      | false => exact ih
  · cases found with
    | none => exact .done _
    | some p => exact looks_loadFrom p

/-- The configuration is that of the first candidate that is there, or else the default. -/
theorem run_load_ok_iff {c : Config} : (load env).run.run t = (.ok c, t') ↔
    t' = t ∧ match (candidates env).find? fun p ↦ t.isPresent p with
      | some p => IsFrom t env p c
      | none => c = default.override env := by
  have hlift :
      (liftM (firstPresent (candidates env)) : ExceptT ConfigError Script (Option Path)).run
      = firstPresent (candidates env) >>= fun found ↦ pure (.ok found) := rfl
  rw [load, Action.run_bind_ok_iff, hlift, Script.run_bind, run_firstPresent]
  generalize (candidates env).find? (fun p ↦ t.isPresent p) = found
  constructor
  · rintro ⟨_, m, ⟨⟩, hc⟩
    cases found with
    | some p => exact run_loadFrom_ok_iff.1 hc
    | none =>
      cases hc
      exact ⟨rfl, rfl⟩
  · rintro ⟨rfl, hc⟩
    refine ⟨found, t', rfl, ?_⟩
    cases found with
    | some p => exact run_loadFrom_ok_iff.2 ⟨rfl, hc⟩
    | none =>
      simp only at hc
      rw [hc]
      rfl

/-- Whether the local file is there is decided at its place. -/
theorem isPresent_localFile (t : FileTree) :
    t.isPresent localFile = (t.get? (localFile.place t.current)).isSome := by
  have hsegments : Path.segments localFile = [localFile] := Path.segments_name (by decide)
  have habsolute : Path.isAbsolute localFile = false := Path.isAbsolute_name (by decide)
  have hidle : Path.isIdle localFile = false := by decide
  have hlocate : t.locate localFile = .ok (t.current ++ [localFile]) := by
    rw [FileTree.locate, if_neg (by decide), if_neg (by decide), habsolute, hsegments]
    simp only [FileTree.follow, Bool.false_eq_true, ↓reduceIte, t.get?_current, hidle]
    rw [if_neg (by decide), if_neg (by decide)]
  rw [← FileTree.locate_ok hlocate, FileTree.isPresent, hlocate]

/-- The local file is there as before when what is at its place stays. -/
theorem isPresent_localFile_of_get? (hc : t'.current = t.current)
    (hp : t'.get? (localFile.place t.current) = t.get? (localFile.place t.current)) :
    t'.isPresent localFile = t.isPresent localFile := by
  rw [isPresent_localFile, isPresent_localFile, hc, hp]

/-- A file that a configuration comes from is there, and the configuration still comes from it, when
directories stay and what is at its place does. -/
theorem IsFrom.of_get? {p : Path} {c : Config} (hc : t'.current = t.current)
    (hd : ∀ q, t.get? q = some .directory → t'.get? q = some .directory)
    (hp : t'.get? (p.place t.current) = t.get? (p.place t.current)) (h : IsFrom t env p c) :
    t'.isPresent p = true ∧ IsFrom t' env p c := by
  obtain ⟨content, text, c', hread, hrest⟩ := h
  have hread' := FileTree.read_of_get? hc hd hp hread
  exact ⟨FileTree.isPresent_of_read hread', content, text, c', hread', hrest⟩

/-- Where no file is named, the local file is looked for first and then that of the user. -/
theorem candidates_of_unnamed (h : env.configFile = none) :
    candidates env = localFile :: (userFile? env).toList := by
  rw [candidates, h]
  rfl

end Config

namespace Command

variable {a : Arguments} {c : Config}

/-- The files that the configuration of a run may come from. -/
def configFiles (env : Environment) (a : Arguments) : List Path :=
  match a.config with
  | some p => [p]
  | none => Config.candidates env

/-- Getting the configuration only looks. -/
theorem looks_configuration (env : Environment) (a : Arguments) :
    (configuration env a).run.Looks := by
  rw [configuration]
  cases a.config with
  | some p => exact Action.looks_adapt (Config.looks_loadFrom p)
  | none => exact Action.looks_adapt Config.looks_load

/-- The configuration is that of the first of its files that is there, or else the default if none
is named. -/
theorem run_configuration_ok_iff : (configuration env a).run.run t = (.ok c, t') ↔
    t' = t ∧ match a.config, (Config.candidates env).find? fun p ↦ t.isPresent p with
      | some p, _ | none, some p => Config.IsFrom t env p c
      | none, none => c = Config.default.override env := by
  rw [configuration, Action.run_adapt_ok_iff]
  cases a.config with
  | some p => exact Config.run_loadFrom_ok_iff
  | none =>
    rw [Config.run_load_ok_iff]
    cases (Config.candidates env).find? fun p ↦ t.isPresent p with
    | some p => exact Iff.rfl
    | none => exact Iff.rfl

/-- Nothing is inherited for a run that names no file. -/
theorem configFile_of_complete {d : Draft} (h : d.complete env = some a) (ha : a.config = none) :
    env.configFile = none := by
  obtain ⟨_, _, config, -, -, hconfig, rfl⟩ := Draft.complete_eq_some_iff.1 h
  obtain rfl : config = none := ha
  cases hfile : env.configFile with
  | none => rfl
  | some value =>
    rw [hfile] at hconfig
    cases hd : d.config with
    | none =>
      rw [hd, Draft.orInherited] at hconfig
      obtain ⟨_, -, hx⟩ := Option.map_eq_some_iff.1 hconfig
      cases hx
    | some x =>
      rw [hd] at hconfig
      cases hconfig

/-- The configuration stays the same when directories stay, what is at the places of its files does,
and, unless there is any of these files, no directory comes into being. -/
theorem run_configuration_of_get? (henv : a.config = none → env.configFile = none)
    (hc : t'.current = t.current)
    (hd : ∀ q, t.get? q = some .directory → t'.get? q = some .directory)
    (hsame : ∀ p ∈ configFiles env a, t'.get? (p.place t.current) = t.get? (p.place t.current))
    (hnew : a.config = none → ((Config.candidates env).find? fun p ↦ t.isPresent p) = none →
      ∀ q, t'.get? q = some .directory → t.get? q = some .directory)
    (h : (configuration env a).run.run t = (.ok c, t)) :
    (configuration env a).run.run t' = (.ok c, t') := by
  rw [run_configuration_ok_iff] at h ⊢
  refine ⟨rfl, ?_⟩
  obtain ⟨-, h⟩ := h
  rw [configFiles] at hsame
  cases ha : a.config with
  | some p =>
    rw [ha] at h hsame
    exact (h.of_get? hc hd (hsame p List.mem_cons_self)).2
  | none =>
    rw [ha, Config.candidates_of_unnamed (henv ha)] at h hsame
    rw [Config.candidates_of_unnamed (henv ha)] at hnew ⊢
    have hlocal := hsame _ List.mem_cons_self
    have hpresent := Config.isPresent_localFile_of_get? hc hlocal
    rw [List.find?_cons] at h hnew ⊢
    rw [hpresent]
    cases hthere : t.isPresent Config.localFile with
    | true =>
      rw [hthere] at h
      exact (h.of_get? hc hd hlocal).2
    | false =>
      rw [hthere] at h hnew
      cases huser : Config.userFile? env with
      | none =>
        rw [huser] at h
        exact h
      | some user =>
        have huser' : t'.get? (user.place t.current) = t.get? (user.place t.current) := by
          refine hsame user (List.mem_cons_of_mem _ ?_)
          rw [huser]
          exact List.mem_cons_self
        rw [huser] at h hnew
        simp only [Option.toList_some, List.find?_cons, List.find?_nil] at h hnew ⊢
        cases hfound : t.isPresent user with
        | true =>
          rw [hfound] at h
          obtain ⟨hfound', hfrom⟩ := h.of_get? hc hd huser'
          rw [hfound']
          exact hfrom
        | false =>
          rw [hfound] at h hnew
          rw [FileTree.isPresent_of_get? hc (hnew ha rfl) huser' hfound]
          exact h

end Command

end TreeProver
