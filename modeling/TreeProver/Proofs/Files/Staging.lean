import TreeProver.Proofs.Files.Runs

/-!
# Files that are written together

Files that are written together are first all staged and then moved into place one after the other.
So wherever a run ends, every target holds what it held before or its new content as a whole, the
replaced targets come first in the list, and nothing is replaced before everything is staged.
-/

namespace TreeProver

open Script

variable {R : Behaviour} {t t' : FileTree} {trail : List FileTree}

/-! ### Runs of actions -/

/-- A run of an action that goes on with another one ends within the first, or where the first
fails, or after the first is done. -/
theorem Action.runs_bind {ε α β : Type} {s : ExceptT ε Script α} {k : α → ExceptT ε Script β}
    {s' : Script (Except ε β)} (h : (s >>= k).run.Runs R t trail s' t') :
    (∃ op next, s.run.Runs R t trail (.step op next) t' ∧ ∃ next', s' = .step op next') ∨
    (∃ e, s.run.Runs R t trail (.done (.error e)) t' ∧ s' = .done (.error e)) ∨
    ∃ a m before after, trail = before ++ after ∧ s.run.Runs R t before (.done (.ok a)) m ∧
      (k a).run.Runs R m after s' t' := by
  rw [ExceptT.run_bind] at h
  rcases h.bind with ⟨op, next, hs, rfl⟩ | ⟨r, m, before, after, rfl, hs, hk⟩
  · exact .inl ⟨op, next, hs, _, rfl⟩
  · cases r with
    | error e =>
      obtain ⟨rfl, rfl, rfl⟩ := hk.done_eq
      exact .inr (.inl ⟨e, by rwa [List.append_nil], rfl⟩)
    | ok a => exact .inr (.inr ⟨a, m, before, after, rfl, hs, hk⟩)

/-- A run that is over of an action that goes on with another one has failed with the first, or gone
on after its success. -/
theorem Action.runs_bind_done {ε α β : Type} {s : ExceptT ε Script α} {k : α → ExceptT ε Script β}
    {r : Except ε β} (h : (s >>= k).run.Runs R t trail (.done r) t') :
    (∃ e, s.run.Runs R t trail (.done (.error e)) t' ∧ r = .error e) ∨
    ∃ a m before after, s.run.Runs R t before (.done (.ok a)) m ∧
      (k a).run.Runs R m after (.done r) t' := by
  rcases Action.runs_bind h with ⟨_, _, -, _, hs⟩ | ⟨e, hs, hr⟩ |
    ⟨a, m, before, after, -, hs, hk⟩
  · cases hs
  · exact .inl ⟨e, hs, Script.done.inj hr⟩
  · exact .inr ⟨a, m, before, after, hs, hk⟩

/-- A run that is over of an action with another wording of its failures is one of that action. -/
theorem Action.runs_adapt_done {ε ε' α : Type} {s : ExceptT ε Script α} {f : ε → ε'}
    {r : Except ε' α} (h : (s.adapt f).run.Runs R t trail (.done r) t') :
    ∃ r' before, s.run.Runs R t before (.done r') t' ∧ r = r'.mapError f := by
  have hadapt : (s.adapt f).run = s.run >>= fun r ↦ pure (r.mapError f) := rfl
  rw [hadapt] at h
  rcases h.bind with ⟨_, _, -, hs⟩ | ⟨r', m, before, after, -, hs, hdone⟩
  · cases hs
  · obtain ⟨hr, rfl, -⟩ := hdone.done_eq
    exact ⟨r', before, hs, Script.done.inj hr⟩

/-- A run of an operation for an artifact ends within the operation, or after it with its success or
with its failure, which is worded for the artifact. -/
theorem Artifact.runs_attempt {α : Type} {a : Artifact} {action : String} {path : Path}
    {operation : Script (Except IoError α)} {s' : Script (Except Error α)}
    (h : (a.attempt action path operation).run.Runs R t trail s' t') :
    (∃ op next, operation.Runs R t trail (.step op next) t' ∧ ∃ next', s' = .step op next') ∨
    (∃ x, operation.Runs R t trail (.done (.ok x)) t' ∧ s' = .done (.ok x)) ∨
    ∃ io, operation.Runs R t trail (.done (.error io)) t' ∧
      s' = .done (.error (.artifactIo a action path io.message)) := by
  rcases h.bind with ⟨op, next, hs, rfl⟩ | ⟨r, m, before, after, rfl, hs, hk⟩
  · exact .inl ⟨op, next, hs, _, rfl⟩
  · cases r with
    | ok x =>
      obtain ⟨rfl, rfl, rfl⟩ := hk.done_eq
      exact .inr (.inl ⟨x, by rwa [List.append_nil], rfl⟩)
    | error e =>
      obtain ⟨rfl, rfl, rfl⟩ := hk.done_eq
      exact .inr (.inr ⟨e, by rwa [List.append_nil], rfl⟩)

/-! ### The operations of actions -/

section

variable {P : Operation → Prop}

/-- What goes on with actions of certain operations is an action of these. -/
theorem Action.only_bind {ε α β : Type} {s : ExceptT ε Script α} {k : α → ExceptT ε Script β}
    (hs : s.run.Only P) (hk : ∀ a, (k a).run.Only P) : (s >>= k).run.Only P := by
  rw [ExceptT.run_bind]
  refine hs.bind fun r ↦ ?_
  cases r with
  | ok a => exact hk a
  | error e => trivial

/-- The operations of an attempt are those that are attempted. -/
theorem Artifact.only_attempt {α : Type} {a : Artifact} {action : String} {path : Path}
    {operation : Script (Except IoError α)} (h : operation.Only P) :
    (a.attempt action path operation).run.Only P := by
  refine h.bind fun r ↦ ?_
  cases r with
  | ok x => trivial
  | error e => trivial

/-- A script of one operation. -/
theorem Script.only_perform {op : Operation} (h : P op) : (Script.perform op).Only P :=
  ⟨h, fun _ ↦ trivial⟩

end

/-- Directories are made only at a path and above it. -/
theorem Script.within_makeDirectories (current : Place) (steps : Nat) {p : Path}
    {made : Place → Prop} (hp : made (p.place current))
    (habove : ∀ r : Path, r.IsAbove p → made (r.place current)) :
    (makeDirectoriesWithin steps p).Within current (fun _ ↦ False) made := by
  have hmake : ∀ r : Path, made (r.place current) → ∀ {k : Except IoError Unit → Script _},
      (∀ answer, (k answer).Within current (fun _ ↦ False) made) →
        (Script.makeDirectory r >>= k : Script (Except IoError Unit)).Within current
          (fun _ ↦ False) made := by
    intro r hr k hk
    have hplace : ∀ q, q = r.place current → made q := fun q hq ↦ hq ▸ hr
    exact ⟨⟨fun _ ↦ id, hplace⟩, hk⟩
  have hcheck : ∀ (r : Path) (e : IoError),
      (unlessDirectory r e).Within current (fun _ ↦ False) made := by
    intro r e
    refine ⟨⟨fun _ ↦ id, fun _ ↦ False.elim⟩, fun answer ↦ ?_⟩
    cases answer with
    | true => trivial
    | false => trivial
  induction steps generalizing p with
  | zero => trivial
  | succ steps ih =>
    rw [makeDirectoriesWithin]
    split
    · trivial
    · refine hmake p hp fun answer ↦ ?_
      split
      · trivial
      · split
        · trivial
        · next parent hparent =>
          have hup : made (parent.place current) := habove parent (.single hparent)
          refine (ih hup fun r hr ↦ habove r (.head hparent hr)).bind fun made' ↦ ?_
          split
          · trivial
          · refine hmake p hp fun again ↦ ?_
            split
            · trivial
            · exact hcheck p _
      · exact hcheck p _

namespace ArtifactFile

/-! ### Staging one file -/

/-- The place of a target. -/
def target (current : Place) (f : ArtifactFile) : Place := f.path.place current

/-- The place where a file waits to be moved to its target. -/
def waiting (current : Place) (f : ArtifactFile) : Place := (staging f.path).place current

/-- Makes the directories above a target. -/
def prepare (f : ArtifactFile) : Action Unit :=
  match f.path.parent? with
  | none | some "" => pure ()
  | some parent => f.artifact.attempt "create directory for" f.path (Script.makeDirectories parent)

/-- A file is written after the directories above it have been made. -/
theorem stage_eq (f : ArtifactFile) : f.stage = f.prepare >>= fun _ ↦
    f.artifact.attempt "write" (staging f.path) (Script.write (staging f.path) f.content) := by
  rw [stage, prepare]
  generalize f.path.parent? = above
  match above with
  | none => rfl
  | some parent =>
    by_cases h : parent = ""
    · subst h
      rfl
    · simp only

/-- Only directories above the target are made. -/
theorem within_prepare (current : Place) (f : ArtifactFile) :
    f.prepare.run.Within current (fun _ ↦ False)
      fun q ↦ ∃ r : Path, r.IsAbove f.path ∧ q = r.place current := by
  rw [prepare]
  split
  · trivial
  · trivial
  · next parent hne hparent =>
    apply Artifact.only_attempt
    apply Script.within_makeDirectories
    · exact ⟨parent, .single hparent, rfl⟩
    · exact fun r hr ↦ ⟨r, .head hparent hr, rfl⟩

/-- Staging a file touches only the place where it waits. -/
theorem within_stage (current : Place) (f : ArtifactFile) :
    f.stage.run.Within current (· = f.waiting current)
      fun q ↦ ∃ r : Path, r.IsAbove f.path ∧ q = r.place current := by
  rw [stage_eq]
  apply Action.only_bind
  · exact (within_prepare current f).mono (fun _ ↦ False.elim) fun _ ↦ id
  · intro _
    apply Artifact.only_attempt
    exact Script.only_perform ⟨fun q ↦ id, fun q ↦ False.elim⟩

/-- After a run of staging that ends, the file waits with its content, or nothing or a part of the
content has been written where it would wait. -/
theorem runs_stage (hR : ∀ t op answer t', R t op answer t' → t.Responds op answer t')
    {f : ArtifactFile} {s' : Script (Except Error Unit)}
    (h : f.stage.run.Runs R t trail s' t') :
    (∃ op next, s' = .step op next) ∨
    (s' = .done (.ok ()) ∧ t'.read (staging f.path) = .ok f.content) ∨
    (∃ e, s' = .done (.error e)) ∧ (t'.file? (f.waiting t.current) = t.file? (f.waiting t.current) ∨
      ∃ n, t'.file? (f.waiting t.current) = some (f.content.take n)) := by
  rw [stage_eq] at h
  rcases Action.runs_bind h with ⟨_, _, -, next, rfl⟩ | ⟨e, hp, rfl⟩ |
    ⟨_, m, before, after, rfl, hp, hw⟩
  · exact .inl ⟨_, _, rfl⟩
  · have hkeep := hp.keeps hR (within_prepare t.current f)
    exact .inr (.inr ⟨⟨e, rfl⟩, .inl (hkeep.files _ id)⟩)
  · have hkeep := hp.keeps hR (within_prepare t.current f)
    rcases Artifact.runs_attempt hw with ⟨_, _, -, next, rfl⟩ | ⟨x, ho, rfl⟩ | ⟨io, ho, rfl⟩
    · exact .inl ⟨_, _, rfl⟩
    · have hop : R m (.write (staging f.path) f.content) (.ok x) t' :=
        Runs.perform_done (R := R) ho
      rcases (hR _ _ _ _ hop).write with ⟨-, hread⟩ | ⟨⟨e, he⟩, -⟩
      · exact .inr (.inl ⟨rfl, hread⟩)
      · cases he
    · have hop : R m (.write (staging f.path) f.content) (.error io) t' :=
        Runs.perform_done (R := R) ho
      refine .inr (.inr ⟨⟨_, rfl⟩, ?_⟩)
      rcases (hR _ _ _ _ hop).write with ⟨he, -⟩ | ⟨-, rfl | ⟨n, hn⟩⟩
      · cases he
      · exact .inl (hkeep.files _ id)
      · refine .inr ⟨n, ?_⟩
        rwa [waiting, ← hkeep.current]

/-! ### Staging all files -/

/-- Files whose targets are at different places, none of them where a file waits or above the target
of another file. -/
structure Separate (current : Place) (files : List ArtifactFile) : Prop where
  targets : files.Pairwise fun f g ↦ f.target current ≠ g.target current
  waiting : ∀ f ∈ files, ∀ g ∈ files, f.target current ≠ g.waiting current
  above : ∀ f ∈ files, ∀ g ∈ files, f ≠ g → ∀ r : Path, r.IsAbove g.path →
    r.place current ≠ f.target current

/-- Names in one directory have nothing above them but that directory and the current one. -/
theorem Separate.of_names {current : Place} {files : List ArtifactFile} (directory : Path)
    (hdirectory : directory = "" ∨ directory.parent? = some "")
    (hnames : ∀ f ∈ files, f.path.parent? = some directory ∧ f.target current ≠ current ∧
      f.target current ≠ directory.place current)
    (htargets : files.Pairwise fun f g ↦ f.target current ≠ g.target current)
    (hwaiting : ∀ f ∈ files, ∀ g ∈ files, f.target current ≠ g.waiting current) :
    Separate current files := by
  have htop : ¬ ∃ r : Path, r.IsAbove "" := by
    rintro ⟨r, hr⟩
    obtain ⟨above, ha, -⟩ := Path.isAbove_iff.1 hr
    have hnone : Path.parent? "" = none := by decide +kernel
    rw [hnone] at ha
    cases ha
  have hempty : Path.place current "" = current := by
    have hstart : Path.start current "" = current := if_neg (by decide +kernel)
    have hsegments : Path.segments "" = [""] := by decide +kernel
    rw [Path.place, hstart, hsegments]
    rfl
  refine ⟨htargets, hwaiting, fun f hf g hg _ r hr ↦ ?_⟩
  obtain ⟨parent, hp, h⟩ := Path.isAbove_iff.1 hr
  obtain rfl := Option.some.inj (hp.symm.trans (hnames g hg).1)
  rcases h with rfl | h
  · exact (hnames f hf).2.2.symm
  rcases hdirectory with rfl | hdirectory
  · exact absurd ⟨r, h⟩ htop
  · obtain ⟨above, ha, h⟩ := Path.isAbove_iff.1 h
    obtain rfl := Option.some.inj (ha.symm.trans hdirectory)
    rcases h with rfl | h
    · rw [hempty]
      exact (hnames f hf).2.1.symm
    · exact absurd ⟨r, h⟩ htop

/-- Files with different targets wait at different places. -/
theorem Separate.pairwise_waiting {current : Place} {files : List ArtifactFile}
    (h : Separate current files) :
    files.Pairwise fun f g ↦ f.waiting current ≠ g.waiting current :=
  h.targets.imp fun hne he ↦ hne (place_staging_inj he)

/-- Fewer files are separate, too. -/
theorem Separate.tail {current : Place} {f : ArtifactFile} {fs : List ArtifactFile}
    (h : Separate current (f :: fs)) : Separate current fs where
  targets := (List.pairwise_cons.1 h.targets).2
  waiting g hg g' hg' := h.waiting g (List.mem_cons_of_mem f hg) g' (List.mem_cons_of_mem f hg')
  above g hg g' hg' :=
    h.above g (List.mem_cons_of_mem f hg) g' (List.mem_cons_of_mem f hg')

/-- Discarding files touches only the places where they wait. -/
theorem within_discard (current : Place) (files : List ArtifactFile) :
    (discard files).Within current (fun q ↦ ∃ f ∈ files, q = f.waiting current)
      fun _ ↦ False := by
  induction files with
  | nil => trivial
  | cons f fs ih =>
    refine ⟨⟨fun q hq ↦ ⟨f, List.mem_cons_self, hq⟩, fun _ ↦ False.elim⟩, fun _ ↦ ?_⟩
    refine ih.mono ?_ fun _ ↦ id
    rintro q ⟨g, hg, hq⟩
    exact ⟨g, List.mem_cons_of_mem f hg, hq⟩

/-- Staging files touches only the places where they wait, and where those wait that have been
staged before; directories are made only above their targets. -/
theorem within_stageAll (current : Place) (staged files : List ArtifactFile) :
    (stageAll staged files).run.Within current
      (fun q ↦ ∃ f ∈ staged ++ files, q = f.waiting current)
      fun q ↦ ∃ f ∈ files, ∃ r : Path, r.IsAbove f.path ∧ q = r.place current := by
  induction files generalizing staged with
  | nil => trivial
  | cons f fs ih =>
    have hstage := (within_stage current f).mono
      (fun q hq ↦ (⟨f, by simp, hq⟩ : ∃ g ∈ staged ++ f :: fs, q = g.waiting current))
      fun q hq ↦ (⟨f, List.mem_cons_self, hq⟩ : ∃ g ∈ f :: fs, ∃ r : Path, r.IsAbove g.path ∧
        q = r.place current)
    refine hstage.bind fun r ↦ ?_
    cases r with
    | ok _ =>
      refine (ih (staged ++ [f])).mono (fun q hq ↦ ?_) ?_
      · simpa using hq
      · rintro q ⟨g, hg, hr⟩
        exact ⟨g, List.mem_cons_of_mem f hg, hr⟩
    | error e =>
      refine Only.bind ((within_discard current staged).mono ?_ fun _ ↦ False.elim) fun _ ↦ trivial
      rintro q ⟨g, hg, hq⟩
      exact ⟨g, List.mem_append_left _ hg, hq⟩

/-- A run of staging files that is over has staged the first and gone on with the others, or has
failed to stage the first and discarded those that have been staged before. -/
theorem runs_stageAll_cons {staged fs : List ArtifactFile} {f : ArtifactFile}
    {r : Except Error Unit} (h : (stageAll staged (f :: fs)).run.Runs R t trail (.done r) t') :
    (∃ m before after, f.stage.run.Runs R t before (.done (.ok ())) m ∧
      (stageAll (staged ++ [f]) fs).run.Runs R m after (.done r) t') ∨
    ∃ e m before after, f.stage.run.Runs R t before (.done (.error e)) m ∧
      (discard staged).Runs R m after (.done ()) t' ∧ r = .error e := by
  rcases h.bind with ⟨_, _, -, hs⟩ | ⟨a, m, before, after, -, hs, hk⟩
  · cases hs
  · cases a with
    | ok _ => exact .inl ⟨m, before, after, hs, hk⟩
    | error e =>
      rcases hk.bind with ⟨_, _, -, hd⟩ | ⟨_, m', before', after', -, hd, hk⟩
      · cases hd
      · obtain ⟨hr, rfl, -⟩ := hk.done_eq
        exact .inr ⟨e, m, before, before', hs, hd, Script.done.inj hr⟩

/-- After a file has been staged, or staging it has failed, others wait as before that wait
elsewhere. -/
theorem read_beside_stage (hR : ∀ t op answer t', R t op answer t' → t.Responds op answer t')
    {current : Place} (hc : t.current = current) {staged : List ArtifactFile} {f : ArtifactFile}
    {s' : Script (Except Error Unit)} (h : f.stage.run.Runs R t trail s' t')
    (hw : ∀ g ∈ staged, g.waiting current ≠ f.waiting current)
    (hr : ∀ g ∈ staged, t.read (staging g.path) = .ok g.content) :
    ∀ g ∈ staged, t'.read (staging g.path) = .ok g.content := by
  subst hc
  exact fun g hg ↦ (h.keeps hR (within_stage t.current f)).read (hw g hg) (hr g hg)

/-- After one more file has been staged, it and those staged before wait with their content. -/
theorem read_of_stage (hR : ∀ t op answer t', R t op answer t' → t.Responds op answer t')
    {current : Place} (hc : t.current = current) {staged : List ArtifactFile} {f : ArtifactFile}
    (h : f.stage.run.Runs R t trail (.done (.ok ())) t')
    (hw : ∀ g ∈ staged, g.waiting current ≠ f.waiting current)
    (hr : ∀ g ∈ staged, t.read (staging g.path) = .ok g.content) :
    ∀ g ∈ staged ++ [f], t'.read (staging g.path) = .ok g.content := by
  intro g hg
  rcases List.mem_append.1 hg with hg | hg
  · exact read_beside_stage hR hc h hw hr g hg
  · obtain rfl := List.mem_singleton.1 hg
    rcases runs_stage hR h with ⟨_, _, hs⟩ | ⟨-, hread⟩ | ⟨⟨e, he⟩, -⟩
    · cases hs
    · exact hread
    · cases he

/-- After all files have been staged, each of them waits with its content. -/
theorem read_of_stageAll (hR : ∀ t op answer t', R t op answer t' → t.Responds op answer t')
    {current : Place} (hc : t.current = current) {staged files : List ArtifactFile}
    (h : (stageAll staged files).run.Runs R t trail (.done (.ok ())) t')
    (hw : (staged ++ files).Pairwise fun f g ↦ f.waiting current ≠ g.waiting current)
    (hr : ∀ f ∈ staged, t.read (staging f.path) = .ok f.content) :
    ∀ f ∈ staged ++ files, t'.read (staging f.path) = .ok f.content := by
  induction files generalizing staged t trail with
  | nil =>
    obtain ⟨-, rfl, -⟩ := Runs.done_eq h
    simpa using hr
  | cons f fs ih =>
    rcases runs_stageAll_cons h with ⟨m, before, after, hf, hrest⟩ | ⟨e, _, _, _, _, _, he⟩
    · have hcross := (List.pairwise_append.1 hw).2.2
      have hm := read_of_stage hR hc hf (fun g hg ↦ hcross g hg f List.mem_cons_self) hr
      rw [List.append_cons] at hw ⊢
      exact ih ((hf.keeps hR (within_stage t.current f)).current.trans hc) hrest hw hm
    · cases he

/-! ### Moving files into place -/

/-- Moving a file into place touches its target and the place where it waits. -/
theorem within_commit (current : Place) (f : ArtifactFile) :
    f.commit.run.Within current
      (fun q ↦ q = f.waiting current ∨ q = f.target current) fun _ ↦ False :=
  Artifact.only_attempt (Script.only_perform ⟨fun _ ↦ id, fun _ ↦ False.elim⟩)

/-- Moving files into place touches their targets and the places where they wait. -/
theorem within_commitAll (current : Place) (files : List ArtifactFile) :
    (commitAll files).run.Within current
      (fun q ↦ ∃ f ∈ files, q = f.waiting current ∨ q = f.target current) fun _ ↦ False := by
  induction files with
  | nil => trivial
  | cons f fs ih =>
    refine Action.only_bind ?_ fun _ ↦ ?_
    · exact (within_commit current f).mono (fun q hq ↦ ⟨f, List.mem_cons_self, hq⟩) fun _ ↦ id
    · refine ih.mono ?_ fun _ ↦ id
      rintro q ⟨g, hg, hq⟩
      exact ⟨g, List.mem_cons_of_mem f hg, hq⟩

/-- A run of moving a waiting file into place has not begun, or has moved it, or has failed without
a change. -/
theorem runs_commit (hR : ∀ t op answer t', R t op answer t' → t.Responds op answer t')
    {f : ArtifactFile} {s' : Script (Except Error Unit)} (h : f.commit.run.Runs R t trail s' t')
    (hr : t.read (staging f.path) = .ok f.content) :
    (t' = t ∧ ∃ op next, s' = .step op next) ∨
    (s' = .done (.ok ()) ∧ t'.read f.path = .ok f.content ∧
      t'.file? (f.waiting t.current) = none) ∨
    t' = t ∧ ∃ e, s' = .done (.error e) := by
  have hne := place_staging_ne f.path t.current
  rcases Artifact.runs_attempt h with ⟨op, next, ho, next', rfl⟩ | ⟨x, ho, rfl⟩ | ⟨io, ho, rfl⟩
  · exact .inl ⟨Runs.perform_step (R := R) ho, _, _, rfl⟩
  · have hop : R t (.rename (staging f.path) f.path) (.ok x) t' := Runs.perform_done (R := R) ho
    rcases (hR _ _ _ _ hop).rename hne hr with ⟨-, hread, hgone⟩ | ⟨⟨e, he⟩, -⟩
    · exact .inr (.inl ⟨rfl, hread, hgone⟩)
    · cases he
  · have hop : R t (.rename (staging f.path) f.path) (.error io) t' :=
      Runs.perform_done (R := R) ho
    rcases (hR _ _ _ _ hop).rename hne hr with ⟨he, -⟩ | ⟨-, rfl⟩
    · cases he
    · exact .inr (.inr ⟨rfl, _, rfl⟩)

/-- After a file has been moved, others wait as before if none of them belongs or waits at its
target. -/
theorem read_of_commit (hR : ∀ t op answer t', R t op answer t' → t.Responds op answer t')
    {current : Place} (hc : t.current = current) {f : ArtifactFile} {fs : List ArtifactFile}
    {s' : Script (Except Error Unit)} (h : f.commit.run.Runs R t trail s' t')
    (htargets : ∀ g ∈ fs, f.target current ≠ g.target current)
    (hfree : ∀ g ∈ fs, f.target current ≠ g.waiting current)
    (hr : ∀ g ∈ fs, t.read (staging g.path) = .ok g.content) :
    ∀ g ∈ fs, t'.read (staging g.path) = .ok g.content := by
  intro g hg
  have hkeep := h.keeps hR (within_commit t.current f)
  refine hkeep.read ?_ (hr g hg)
  rw [hc]
  rintro (he | he)
  · exact htargets g hg (place_staging_inj he.symm)
  · exact hfree g hg he.symm

/-- A run of moving files of which the first waits has changed nothing so far, without having
succeeded, or has moved the first and goes on with the others. -/
theorem runs_commitAll_cons (hR : ∀ t op answer t', R t op answer t' → t.Responds op answer t')
    {f : ArtifactFile} {fs : List ArtifactFile} {s' : Script (Except Error Unit)}
    (h : (commitAll (f :: fs)).run.Runs R t trail s' t')
    (hr : t.read (staging f.path) = .ok f.content) :
    (t' = t ∧ s' ≠ .done (.ok ())) ∨
    ∃ m before after, f.commit.run.Runs R t before (.done (.ok ())) m ∧
      m.read f.path = .ok f.content ∧ m.file? (f.waiting t.current) = none ∧
      (commitAll fs).run.Runs R m after s' t' := by
  rcases Action.runs_bind h with ⟨op, next, hcommit, next', rfl⟩ | ⟨e, hcommit, rfl⟩ |
    ⟨_, m, before, after, rfl, hcommit, hrest⟩
  · rcases runs_commit hR hcommit hr with ⟨ht, -⟩ | ⟨hs, -⟩ | ⟨ht, -⟩
    · exact .inl ⟨ht, nofun⟩
    · cases hs
    · exact .inl ⟨ht, nofun⟩
  · rcases runs_commit hR hcommit hr with ⟨ht, -⟩ | ⟨hs, -⟩ | ⟨ht, -⟩
    · exact .inl ⟨ht, nofun⟩
    · cases hs
    · exact .inl ⟨ht, nofun⟩
  · rcases runs_commit hR hcommit hr with ⟨-, _, _, hs⟩ | ⟨-, hread, hgone⟩ | ⟨-, _, hs⟩
    · cases hs
    · exact .inr ⟨m, before, after, hcommit, hread, hgone, hrest⟩
    · cases hs

/-- The first `k` files have been moved from where they waited to their targets, and the others
still wait with their targets as they were. -/
structure Moved (current : Place) (k : Nat) (files : List ArtifactFile) (t t' : FileTree) :
    Prop where
  le : k ≤ files.length
  placed : ∀ f ∈ files.take k, t'.read f.path = .ok f.content ∧ t'.file? (f.waiting current) = none
  waiting : ∀ f ∈ files.drop k, t'.get? (f.target current) = t.get? (f.target current) ∧
    t'.read (staging f.path) = .ok f.content

/-- None of the files that wait has been moved. -/
theorem Moved.zero {current : Place} {files : List ArtifactFile}
    (h : ∀ f ∈ files, t.read (staging f.path) = .ok f.content) : Moved current 0 files t t where
  le := Nat.zero_le _
  placed := nofun
  waiting f hf := ⟨rfl, h f hf⟩

/-- Behind a file that has been moved, `k` more of separate files have been moved. -/
theorem Moved.cons {current : Place} {k : Nat} {f : ArtifactFile} {fs : List ArtifactFile}
    {m : FileTree} (hs : Separate current (f :: fs)) (hcurrent : m.current = current)
    (hfirst : t.Keeps m (fun q ↦ q = f.waiting current ∨ q = f.target current) fun _ ↦ False)
    (hrest : m.Keeps t' (fun q ↦ ∃ g ∈ fs, q = g.waiting current ∨ q = g.target current)
      fun _ ↦ False)
    (hread : m.read f.path = .ok f.content) (hgone : m.file? (f.waiting current) = none)
    (h : Moved current k fs m t') : Moved current (k + 1) (f :: fs) t t' := by
  have htargets := (List.pairwise_cons.1 hs.targets).1
  have hwaiting := (List.pairwise_cons.1 hs.pairwise_waiting).1
  refine ⟨Nat.succ_le_succ h.le, ?_, fun g hg ↦ ?_⟩
  · rw [List.take_succ_cons, List.forall_mem_cons]
    refine ⟨⟨hrest.read ?_ hread, (hrest.files _ ?_).trans hgone⟩, h.placed⟩
    · rw [hcurrent]
      rintro ⟨g, hg, he | he⟩
      · exact hs.waiting f List.mem_cons_self g (List.mem_cons_of_mem f hg) he
      · exact htargets g hg he
    · rintro ⟨g, hg, he | he⟩
      · exact hwaiting g hg he
      · exact hs.waiting g (List.mem_cons_of_mem f hg) f List.mem_cons_self he.symm
  · have hg' : g ∈ fs := List.mem_of_mem_drop hg
    obtain ⟨htarget, hwaits⟩ := h.waiting g hg
    refine ⟨htarget.trans (hfirst.entries _ ?_ id), hwaits⟩
    rintro (he | he)
    · exact hs.waiting g (List.mem_cons_of_mem f hg') f List.mem_cons_self he
    · exact htargets g hg' he.symm

/-- Wherever a run of moving separate files that wait ends, so many of them have been moved, and it
is over without a failure only when all of them have been. -/
theorem runs_commitAll (hR : ∀ t op answer t', R t op answer t' → t.Responds op answer t')
    {current : Place} (hc : t.current = current) {files : List ArtifactFile}
    (hs : Separate current files) {s' : Script (Except Error Unit)}
    (h : (commitAll files).run.Runs R t trail s' t')
    (hr : ∀ f ∈ files, t.read (staging f.path) = .ok f.content) :
    ∃ k, Moved current k files t t' ∧ ∀ r, s' = .done r → (r = .ok () ↔ k = files.length) := by
  induction files generalizing t trail with
  | nil =>
    obtain ⟨rfl, rfl, -⟩ := Runs.done_eq h
    refine ⟨0, .zero hr, fun r hs ↦ ?_⟩
    simp [← Script.done.inj hs]
  | cons f fs ih =>
    have hrest := fun g hg ↦ hr g (List.mem_cons_of_mem f hg)
    rcases runs_commitAll_cons hR h (hr f List.mem_cons_self) with
      ⟨rfl, hnot⟩ | ⟨m, before, after, hcommit, hread, hgone, hothers⟩
    · refine ⟨0, .zero hr, fun r hs ↦ iff_of_false ?_ nofun⟩
      rintro rfl
      exact hnot hs
    · have hkeep := hcommit.keeps hR (within_commit t.current f)
      have hkeeps := hothers.keeps hR (within_commitAll m.current fs)
      have hcm : m.current = current := hkeep.current.trans hc
      have hm := read_of_commit hR hc hcommit (List.pairwise_cons.1 hs.targets).1
        (fun g hg ↦ hs.waiting f List.mem_cons_self g (List.mem_cons_of_mem f hg)) hrest
      rw [hc] at hkeep hgone
      rw [hcm] at hkeeps
      obtain ⟨k, hmoved, hdone⟩ := ih hcm hs.tail hothers hm
      exact ⟨k + 1, hmoved.cons hs hcm hkeep hkeeps hread hgone,
        fun r h ↦ (hdone r h).trans (by simp)⟩

/-! ### Writing all files -/

/-- A target is as it was: it holds the same file or none, and if none of the paths above it leads
to its own place, there is the same or nothing as before. -/
def Spares (t t' : FileTree) (f : ArtifactFile) : Prop :=
  t'.file? (f.target t.current) = t.file? (f.target t.current) ∧
    ((∀ r : Path, r.IsAbove f.path → r.place t.current ≠ f.target t.current) →
      t'.get? (f.target t.current) = t.get? (f.target t.current))

/-- A target that was spared and has the same entry since is spared. -/
theorem Spares.of_entry {m : FileTree} {f : ArtifactFile} (h : Spares t m f)
    (he : t'.get? (f.target t.current) = m.get? (f.target t.current)) : Spares t t' f :=
  ⟨(FileTree.file?_congr he).trans h.1, fun habove ↦ he.trans (h.2 habove)⟩

/-- Staging spares the targets of separate files. -/
theorem spares_of_stageAll (hR : ∀ t op answer t', R t op answer t' → t.Responds op answer t')
    {files : List ArtifactFile} (hs : Separate t.current files) {s' : Script (Except Error Unit)}
    (h : (stageAll [] files).run.Runs R t trail s' t') : ∀ f ∈ files, Spares t t' f := by
  intro f hf
  have hkeep := h.keeps hR (within_stageAll t.current [] files)
  have huntouched : ¬ ∃ g ∈ [] ++ files, f.target t.current = g.waiting t.current := by
    rintro ⟨g, hg, he⟩
    exact hs.waiting f hf g hg he
  refine ⟨hkeep.files _ huntouched, fun habove ↦ hkeep.entries _ huntouched ?_⟩
  rintro ⟨g, hg, r, hr, he⟩
  by_cases hfg : f = g
  · subst hfg
    exact habove r hr he.symm
  · exact hs.above f hf g hg hfg r hr he.symm

/-- Wherever a run of writing separate files ends, between any two operations, at one that fails or
at a write that leaves a part of its content behind: the targets of the first files hold their new
content as a whole, those of the others are as they were, and if there is a first file, all files
waited with their content at a point of the run at which every target was as it was. -/
theorem writeAll_replaces_in_order {files : List ArtifactFile} (hs : Separate t.current files)
    {s' : Script (Except Error Unit)}
    (h : (writeAll files).run.Runs FileTree.Responds t trail s' t') :
    ∃ k, k ≤ files.length ∧
      (∀ f ∈ files.take k, t'.read f.path = .ok f.content) ∧
      (∀ f ∈ files.drop k, Spares t t' f) ∧
      (0 < k → ∃ m ∈ t :: trail, (∀ f ∈ files, m.read (staging f.path) = .ok f.content) ∧
        ∀ f ∈ files, Spares t m f) := by
  have hR : ∀ (t : FileTree) op answer t', t.Responds op answer t' → t.Responds op answer t' :=
    fun _ _ _ _ ↦ id
  -- Nothing has been moved before everything is staged.
  have hnone : (∃ s : Script (Except Error Unit), (stageAll [] files).run.Runs FileTree.Responds t
      trail s t') → ∃ k, k ≤ files.length ∧ (∀ f ∈ files.take k, t'.read f.path = .ok f.content) ∧
      (∀ f ∈ files.drop k, Spares t t' f) ∧
      (0 < k → ∃ m ∈ t :: trail, (∀ f ∈ files, m.read (staging f.path) = .ok f.content) ∧
        ∀ f ∈ files, Spares t m f) := by
    rintro ⟨s, hstage⟩
    exact ⟨0, Nat.zero_le _, by simp, spares_of_stageAll hR hs hstage, fun h ↦ absurd h (by decide)⟩
  rcases Action.runs_bind h with ⟨op, next, hstage, -⟩ | ⟨e, hstage, -⟩ |
    ⟨_, m, before, after, rfl, hstage, hcommit⟩
  · exact hnone ⟨_, hstage⟩
  · exact hnone ⟨_, hstage⟩
  · have hspare := spares_of_stageAll hR hs hstage
    have hcurrent := (hstage.keeps hR (within_stageAll t.current [] files)).current
    have hread := read_of_stageAll hR rfl hstage hs.pairwise_waiting (by simp)
    obtain ⟨k, ⟨hk, htake, hdrop⟩, -⟩ := runs_commitAll hR hcurrent hs hcommit hread
    refine ⟨k, hk, fun f hf ↦ (htake f hf).1, fun f hf ↦ ?_, fun _ ↦ ⟨m, ?_, hread, hspare⟩⟩
    · exact (hspare f (List.mem_of_mem_drop hf)).of_entry (hdrop f hf).1
    · rcases List.mem_cons.1 hstage.end_mem with rfl | hm
      · exact List.mem_cons_self
      · exact List.mem_cons_of_mem _ (List.mem_append_left _ hm)

/-- A file that exists and one that does not are written together over a stale staging file:
wherever that ends, `a` comes before `b`. -/
theorem writeAll_replaces_in_order_pair :
    let t : FileTree := ⟨[], [(["a"], .file [1]), (["b.tmp"], .file [7])]⟩
    let files : List ArtifactFile := [⟨.constraintSystem, "a", [2]⟩, ⟨.provingKey, "b", [3]⟩]
    Separate t.current files ∧ ∃ t' trail,
      (writeAll files).run.Runs FileTree.Responds t trail (.done (.ok ())) t' ∧
      ∃ k, k ≤ files.length ∧ (∀ f ∈ files.take k, t'.read f.path = .ok f.content) ∧
        (∀ f ∈ files.drop k, Spares t t' f) ∧
        (0 < k → ∃ m ∈ t :: trail, (∀ f ∈ files, m.read (staging f.path) = .ok f.content) ∧
          ∀ f ∈ files, Spares t m f) := by
  intro t files
  have hs : Separate t.current files :=
    .of_names "" (.inl rfl) (by decide +kernel) (by decide +kernel) (by decide +kernel)
  obtain ⟨trail, h⟩ :=
    Script.runs_run (R := FileTree.Responds) (fun _ op ↦ .performed op) (writeAll files).run t
  have hok : ((writeAll files).run.run t).1 = .ok () := by decide +kernel
  rw [hok] at h
  exact ⟨hs, _, trail, h, writeAll_replaces_in_order hs h⟩

end ArtifactFile

end TreeProver
