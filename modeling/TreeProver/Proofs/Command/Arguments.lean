import TreeProver.Command.Arguments

/-!
# Verifying in place of proving

Arguments that ask for a proof ask for its verification when the one flag for proving is replaced by
the flag for verifying. Everything else that they set stays the same, since no option takes a flag
as its value.
-/

namespace TreeProver.Command

/-- The task of verifying in place of that of proving. -/
def Task.verifying : Task → Task
  | .prove => .verify
  | t => t

/-- The flag for verifying in place of that for proving. -/
def verifying (argument : String) : String := if argument = "--prove" then "--verify" else argument

/-- A mark with the task of verifying in place of that of proving. -/
def Mark.verifying : Mark → Mark
  | .task t => .task t.verifying
  | m => m

/-- A draft with the task of verifying in place of that of proving. -/
def Draft.verifying (d : Draft) : Draft := { d with tasks := d.tasks.map Task.verifying }

/-! ### Single arguments -/

/-- Only one flag names the task of proving. -/
theorem Task.eq_of_ofFlag? {s : String} (h : ofFlag? s = some .prove) : s = "--prove" := by
  unfold ofFlag? at h
  split at h
  · cases h
  · rfl
  · cases h
  · cases h
  · cases h

/-- An argument that means a task is its flag. -/
theorem Mark.ofFlag?_of_ofArgument? {argument : String} {t : Task}
    (h : ofArgument? argument = some (.task t)) : Task.ofFlag? argument = some t := by
  rw [ofArgument?] at h
  split at h
  · cases h
  · split at h
    · next ht =>
      cases h
      exact ht
    · cases h
    · simp only at h
      split at h
      · obtain ⟨c, -, hc⟩ := Option.map_eq_some_iff.1 h
        cases hc
      · cases h

/-- An argument that is no flag for proving stays the same. -/
theorem verifying_of_ne {argument : String} (h : argument ≠ "--prove") :
    verifying argument = argument := if_neg h

/-- With the flag for verifying in place of that for proving, an argument means the task of
verifying in place of that of proving. -/
theorem Mark.ofArgument?_verifying (argument : String) :
    ofArgument? (Command.verifying argument) = (ofArgument? argument).map Mark.verifying := by
  by_cases h : argument = "--prove"
  · subst h
    decide +kernel
  · rw [verifying_of_ne h]
    cases hm : ofArgument? argument with
    | none => rfl
    | some m =>
      have hfix : m.verifying = m := by
        match m with
        | .task .prove => exact absurd (Task.eq_of_ofFlag? (ofFlag?_of_ofArgument? hm)) h
        | .task .compile | .task .verify | .task .sampleConfig => rfl
        | .help | .choice _ | .assigned _ _ => rfl
      rw [Option.map_some, hfix]

/-- The value of an option is no flag. -/
theorem verifying_of_isValue {value : String} (h : isValue value = true) :
    verifying value = value := by
  apply verifying_of_ne
  rintro rfl
  revert h
  decide +kernel

namespace Draft

variable {d d' : Draft}

/-- Options do not set tasks. -/
theorem tasks_choose {c : Choice} {value : String} (h : d.choose c value = some d') :
    d'.tasks = d.tasks := by
  cases c <;>
  · obtain ⟨x, -, rfl⟩ := Option.map_eq_some_iff.1 h
    rfl

/-- Options are set whatever the tasks are. -/
theorem choose_verifying (d : Draft) (c : Choice) (value : String) :
    d.verifying.choose c value = (d.choose c value).map Draft.verifying := by
  cases c <;>
  · rw [choose, choose, Option.map_map]
    rfl

/-- One more task is put in front of the others. -/
theorem addTask_eq_some_iff {t : Task} :
    d.addTask t = some d' ↔ t ∉ d.tasks ∧ d' = { d with tasks := t :: d.tasks } := by
  rw [addTask]
  split
  · next h => exact ⟨nofun, fun hd ↦ absurd h hd.1⟩
  · next h => exact ⟨fun hd ↦ ⟨h, (Option.some.inj hd).symm⟩, fun hd ↦ congrArg some hd.2.symm⟩

/-- A task is added in the same way when there is no task of verifying. -/
theorem addTask_verifying {t : Task} (h : d.addTask t = some d') (hv : .verify ∉ d'.tasks) :
    d.verifying.addTask t.verifying = some d'.verifying := by
  obtain ⟨ht, rfl⟩ := addTask_eq_some_iff.1 h
  refine addTask_eq_some_iff.2 ⟨fun hm ↦ ?_, rfl⟩
  obtain ⟨t', ht', he⟩ := List.mem_map.1 hm
  have hne : t ≠ .verify ∧ t' ≠ .verify := by
    constructor
    · rintro rfl
      exact hv List.mem_cons_self
    · rintro rfl
      exact hv (List.mem_cons_of_mem t ht')
  have hinj : ∀ t t' : Task, t ≠ .verify ∧ t' ≠ .verify → t'.verifying = t.verifying → t' = t := by
    intro t t'
    cases t <;> cases t' <;> decide
  exact ht (hinj t t' hne he ▸ ht')

/-! ### All arguments -/

/-- The drafts that arguments turn into one another. -/
inductive Reads : Draft → List String → Draft → Prop
  | done (d : Draft) : Reads d [] d
  | dashes (d : Draft) : Reads d ["--"] d
  | task {d d₁ d' : Draft} {argument : String} {rest : List String} {t : Task}
    (hne : argument ≠ "--")
    (hm : Mark.ofArgument? argument = some (.task t)) (hd : d.addTask t = some d₁)
    (hrest : Reads d₁ rest d') : Reads d (argument :: rest) d'
  | assigned {d d₁ d' : Draft} {argument value : String} {rest : List String} {c : Choice}
    (hne : argument ≠ "--") (hm : Mark.ofArgument? argument = some (.assigned c value))
    (hd : d.choose c value = some d₁) (hrest : Reads d₁ rest d') : Reads d (argument :: rest) d'
  | choice {d d₁ d' : Draft} {argument value : String} {rest : List String} {c : Choice}
    (hne : argument ≠ "--") (hm : Mark.ofArgument? argument = some (.choice c))
    (hvalue : isValue value = true) (hd : d.choose c value = some d₁) (hrest : Reads d₁ rest d') :
    Reads d (argument :: value :: rest) d'

/-- Arguments that ask for settings turn the draft into these. -/
theorem reads_of_read {arguments : List String} (h : d.read arguments = some (.settings d')) :
    d.Reads arguments d' := by
  fun_induction Draft.read d arguments with
  | case1 d =>
    cases h
    exact .done _
  | case2 d rest hempty =>
    cases h
    rw [List.isEmpty_iff.1 hempty]
    exact .dashes _
  | case7 d argument rest hne t hm d₁ hd ih => exact .task hne hm hd (ih h)
  | case9 d argument rest hne c value hm d₁ hd ih => exact .assigned hne hm hd (ih h)
  | case12 d argument hne c hm value rest hvalue d₁ hd ih => exact .choice hne hm hvalue hd (ih h)
  | case3 | case4 | case5 | case6 | case8 | case10 | case11 | case13 => cases h

/-- Arguments that turn a draft into settings ask for these. -/
theorem Reads.read {arguments : List String} (h : d.Reads arguments d') :
    d.read arguments = some (.settings d') := by
  induction h with
  | done d => rfl
  | dashes d => simp only [Draft.read, List.isEmpty_nil, ↓reduceIte]
  | task hne hm hd _ ih => simp only [Draft.read, if_neg hne, hm, hd, ih]
  | assigned hne hm hd _ ih => simp only [Draft.read, if_neg hne, hm, hd, ih]
  | choice hne hm hvalue hd _ ih => simp only [Draft.read, if_neg hne, hm, if_pos hvalue, hd, ih]

/-- Tasks that have been read stay. -/
theorem Reads.tasks_subset {arguments : List String} (h : d.Reads arguments d') :
    d.tasks ⊆ d'.tasks := by
  induction h with
  | done d => exact fun _ ↦ id
  | dashes d => exact fun _ ↦ id
  | task _ _ hd _ ih =>
    obtain ⟨-, rfl⟩ := addTask_eq_some_iff.1 hd
    exact fun t ht ↦ ih (List.mem_cons_of_mem _ ht)
  | assigned _ _ hd _ ih => rwa [← tasks_choose hd]
  | choice _ _ _ hd _ ih => rwa [← tasks_choose hd]

/-- Two dashes are left alone, and nothing else becomes two dashes. -/
theorem verifying_ne_dashes {argument : String} (h : argument ≠ "--") :
    Command.verifying argument ≠ "--" := by
  rw [Command.verifying]
  split
  · decide
  · exact h

/-- With the flag for verifying in place of that for proving, arguments that do not ask for
verifying turn drafts into one another with the task of verifying in place of that of proving. -/
theorem Reads.verifying {arguments : List String} (h : d.Reads arguments d')
    (hv : .verify ∉ d'.tasks) :
    d.verifying.Reads (arguments.map Command.verifying) d'.verifying := by
  induction h with
  | done d => exact .done _
  | dashes d => exact .dashes _
  | task hne hm hd hrest ih =>
    refine .task (verifying_ne_dashes hne) ?_
      (addTask_verifying hd fun hmem ↦ hv (hrest.tasks_subset hmem)) (ih hv)
    rw [Mark.ofArgument?_verifying, hm]
    rfl
  | @assigned _ _ _ argument value _ c hne hm hd _ ih =>
    have hm' : Mark.ofArgument? (Command.verifying argument) = some (.assigned c value) := by
      rw [Mark.ofArgument?_verifying, hm]
      rfl
    refine .assigned (verifying_ne_dashes hne) hm' ?_ (ih hv)
    rw [choose_verifying, hd]
    rfl
  | @choice _ _ _ argument _ _ c hne hm hvalue hd _ ih =>
    have hm' : Mark.ofArgument? (Command.verifying argument) = some (.choice c) := by
      rw [Mark.ofArgument?_verifying, hm]
      rfl
    rw [List.map_cons, List.map_cons, verifying_of_isValue hvalue]
    refine .choice (verifying_ne_dashes hne) hm' hvalue ?_ (ih hv)
    rw [choose_verifying, hd]
    rfl

/-- A draft is complete when it has one task and what it inherits is well formed. -/
theorem complete_eq_some_iff {env : Environment} {a : Arguments} :
    d.complete env = some a ↔ ∃ task circuit config, d.tasks = [task] ∧
      orInherited d.circuit env.buildDirectory = some circuit ∧
      orInherited d.config env.configFile = some config ∧
      a = ⟨task, circuit, d.data, d.kind.getD .inclusion, d.depth, d.leaves, config⟩ := by
  constructor
  · intro h
    rw [complete] at h
    split at h
    · next task circuit config htasks hcircuit hconfig =>
      exact ⟨task, circuit, config, htasks, hcircuit, hconfig, (Option.some.inj h).symm⟩
    · cases h
  · rintro ⟨task, circuit, config, htasks, hcircuit, hconfig, rfl⟩
    simp only [complete, htasks, hcircuit, hconfig]

end Draft

/-- When arguments ask for a proof, they ask for its verification with the flag for verifying in
place of that for proving, and all other settings are the same. -/
theorem exists_complete_verifying {env : Environment} {arguments : List String} {d : Draft}
    {a : Arguments} (hread : Draft.empty.read arguments = some (.settings d))
    (hcomplete : d.complete env = some a) (ha : a.task = .prove) :
    ∃ d', Draft.empty.read (arguments.map verifying) = some (.settings d') ∧
      d'.complete env = some { a with task := .verify } := by
  obtain ⟨task, circuit, config, htasks, hcircuit, hconfig, rfl⟩ :=
    Draft.complete_eq_some_iff.1 hcomplete
  obtain rfl : task = .prove := ha
  have hv : .verify ∉ d.tasks := by
    rw [htasks]
    decide
  refine ⟨d.verifying, ((Draft.reads_of_read hread).verifying hv).read, ?_⟩
  refine Draft.complete_eq_some_iff.2 ⟨.verify, circuit, config, ?_, hcircuit, hconfig, rfl⟩
  rw [Draft.verifying, htasks]
  rfl

end TreeProver.Command
