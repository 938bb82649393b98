import TreeProver.Proofs.Files.Staging

/-!
# What successful writing leaves behind

Where a file waits is determined by its target, and nothing prevents that place from being the
target of another file. A file that has been moved into place where a later file waits is replaced
by that file, which moves on. So files with different targets that are written together without a
failure are all there exactly when none of them belongs where a later one waits. Writing fails only
as one of its operations does, for the file that the operation is for.
-/

namespace TreeProver

open Script

variable {R : Behaviour} {t t' : FileTree} {trail : List FileTree}

/-- After a file has been moved to another place, there is nothing where it was. -/
theorem FileTree.Responds.rename_gone {source target : Path} {answer : Except IoError Unit}
    (h : t.Responds (.rename source target) answer t')
    (hne : source.place t.current ≠ target.place t.current) (hok : answer = .ok ()) :
    t'.get? (source.place t.current) = none := by
  cases h with
  | performed =>
    cases hw : t.rename source target with
    | error e =>
      simp only [FileTree.perform, hw, FileTree.changed] at hok
      cases hok
    | ok t'' =>
      simp only [FileTree.perform, hw, FileTree.changed]
      obtain ⟨-, content, hc, hd, rfl⟩ := FileTree.rename_ok hw
      have hplace : ¬ source.place t.current <+: t.current :=
        FileTree.not_above_current (by rw [hc]; simp)
      rw [FileTree.get?_set_of_ne _ _ hne, FileTree.get?_erase_self t hplace]
  | failed _ _ h =>
    obtain ⟨e, he⟩ := h
    rw [hok] at he
    cases he

namespace ArtifactFile

/-! ### Runs that succeed -/

/-- A run of moving files into place that succeeds has moved the first and then the others. -/
theorem runs_commitAll_ok {f : ArtifactFile} {fs : List ArtifactFile}
    (h : (commitAll (f :: fs)).run.Runs R t trail (.done (.ok ())) t') :
    ∃ m before after, f.commit.run.Runs R t before (.done (.ok ())) m ∧
      (commitAll fs).run.Runs R m after (.done (.ok ())) t' := by
  rcases Action.runs_bind_done h with ⟨e, -, hs⟩ | ⟨_, m, before, after, hcommit, hrest⟩
  · cases hs
  · exact ⟨m, before, after, hcommit, hrest⟩

/-- A run of writing files that succeeds has staged all of them and then moved all of them. -/
theorem runs_writeAll_ok {files : List ArtifactFile}
    (h : (writeAll files).run.Runs R t trail (.done (.ok ())) t') :
    ∃ m before after, (stageAll [] files).run.Runs R t before (.done (.ok ())) m ∧
      (commitAll files).run.Runs R m after (.done (.ok ())) t' := by
  rcases Action.runs_bind_done h with ⟨e, -, hs⟩ | ⟨_, m, before, after, hstage, hcommit⟩
  · cases hs
  · exact ⟨m, before, after, hstage, hcommit⟩

/-- After a file has been moved into place, there is nothing where it waited. -/
theorem get?_of_commit (hR : ∀ t op answer t', R t op answer t' → t.Responds op answer t')
    {f : ArtifactFile} (h : f.commit.run.Runs R t trail (.done (.ok ())) t') :
    t'.get? (f.waiting t.current) = none := by
  have hne := place_staging_ne f.path t.current
  rcases Artifact.runs_attempt h with ⟨_, _, -, _, hs⟩ | ⟨x, ho, -⟩ | ⟨_, -, hs⟩
  · cases hs
  · have hop : R t (.rename (staging f.path) f.path) (.ok x) t' := Runs.perform_done (R := R) ho
    exact (hR _ _ _ _ hop).rename_gone hne rfl
  · cases hs

/-! ### Files that no later file replaces -/

/-- Whether no file belongs where a later one waits. -/
def Unreplaced (current : Place) (files : List ArtifactFile) : Prop :=
  files.Pairwise fun f g ↦ f.target current ≠ g.waiting current

/-- Separate files do not replace each other. -/
theorem Separate.unreplaced {current : Place} {files : List ArtifactFile}
    (h : Separate current files) : Unreplaced current files :=
  List.Pairwise.imp_of_mem (fun hf hg _ ↦ h.waiting _ hf _ hg) h.targets

/-- After waiting files have been moved, all of them are in place if none is replaced. -/
theorem read_of_commitAll (hR : ∀ t op answer t', R t op answer t' → t.Responds op answer t')
    {current : Place} (hc : t.current = current) {files : List ArtifactFile}
    (htargets : files.Pairwise fun f g ↦ f.target current ≠ g.target current)
    (hfree : Unreplaced current files)
    (h : (commitAll files).run.Runs R t trail (.done (.ok ())) t')
    (hr : ∀ f ∈ files, t.read (staging f.path) = .ok f.content) :
    ∀ f ∈ files, t'.read f.path = .ok f.content := by
  induction files generalizing t trail with
  | nil => exact fun f hf ↦ absurd hf List.not_mem_nil
  | cons f fs ih =>
    obtain ⟨htarget, htargets⟩ := List.pairwise_cons.1 htargets
    obtain ⟨hwaiting, hfree⟩ := List.pairwise_cons.1 hfree
    rcases runs_commitAll_cons hR h (hr f List.mem_cons_self) with
      ⟨-, hnot⟩ | ⟨m, before, after, hcommit, hfirst, -, hrest⟩
    · exact absurd rfl hnot
    · have hcm : m.current = current :=
        (hcommit.keeps hR (within_commit t.current f)).current.trans hc
      have hkeep := hrest.keeps hR (within_commitAll m.current fs)
      rw [hcm] at hkeep
      -- The files behind the first still wait, since it neither waited nor belongs where they do.
      have hm := read_of_commit hR hc hcommit htarget hwaiting
        fun g hg ↦ hr g (List.mem_cons_of_mem f hg)
      rw [List.forall_mem_cons]
      refine ⟨hkeep.read ?_ hfirst, ih hcm htargets hfree hrest hm⟩
      rw [hcm]
      rintro ⟨g, hg, he | he⟩
      · exact hwaiting g hg he
      · exact htarget g hg he

/-! ### Files that are replaced -/

/-- After files have been moved, there is no file where one of them waited, unless one of them
belongs there. -/
theorem file?_of_commitAll (hR : ∀ t op answer t', R t op answer t' → t.Responds op answer t')
    {current : Place} (hc : t.current = current) {files : List ArtifactFile}
    (htargets : files.Pairwise fun f g ↦ f.target current ≠ g.target current)
    (h : (commitAll files).run.Runs R t trail (.done (.ok ())) t') {g : ArtifactFile}
    (hg : g ∈ files) (hfree : ∀ f ∈ files, f.target current ≠ g.waiting current) :
    t'.file? (g.waiting current) = none := by
  induction files generalizing t trail with
  | nil => exact absurd hg List.not_mem_nil
  | cons f fs ih =>
    obtain ⟨m, before, after, hcommit, hrest⟩ := runs_commitAll_ok h
    obtain ⟨htarget, htargets⟩ := List.pairwise_cons.1 htargets
    have hkeep := hcommit.keeps hR (within_commit t.current f)
    have hcm : m.current = current := hkeep.current.trans hc
    have hfree' : ∀ f ∈ fs, f.target current ≠ g.waiting current :=
      fun f' hf' ↦ hfree f' (List.mem_cons_of_mem f hf')
    rcases List.mem_cons.1 hg with rfl | hg
    · have hgone : m.file? (g.waiting t.current) = none := by
        rw [FileTree.file?, get?_of_commit hR hcommit]
      have hrestkeep := hrest.keeps hR (within_commitAll m.current fs)
      rw [hcm] at hrestkeep
      rw [hc] at hgone
      refine (hrestkeep.files _ ?_).trans hgone
      rintro ⟨f', hf', he | he⟩
      · exact htarget f' hf' (place_staging_inj he)
      · exact hfree' f' hf' he.symm
    · exact ih hcm htargets hrest hg hfree'

/-- After files have been moved, there is no file where one of them belongs if a later one waited
there. -/
theorem lost_of_commitAll (hR : ∀ t op answer t', R t op answer t' → t.Responds op answer t')
    {current : Place} (hc : t.current = current) {files : List ArtifactFile}
    (htargets : files.Pairwise fun f g ↦ f.target current ≠ g.target current)
    (h : (commitAll files).run.Runs R t trail (.done (.ok ())) t') {f g : ArtifactFile}
    (hsub : [f, g].Sublist files) (he : f.target current = g.waiting current) :
    t'.file? (f.target current) = none := by
  induction files generalizing t trail with
  | nil => exact absurd (hsub.subset List.mem_cons_self) List.not_mem_nil
  | cons f' fs ih =>
    obtain ⟨m, _, _, hcommit, hrest⟩ := runs_commitAll_ok h
    obtain ⟨htarget, hrests⟩ := List.pairwise_cons.1 htargets
    have hcm := (hcommit.keeps hR (within_commit t.current f')).current.trans hc
    rcases List.sublist_cons_iff.1 hsub with hsub | ⟨rest, hrest', hsub⟩
    · exact ih hcm hrests hrest hsub
    · obtain ⟨rfl, rfl⟩ := List.cons.inj hrest'
      rw [he]
      refine file?_of_commitAll hR hcm hrests hrest (List.singleton_sublist.1 hsub) fun f' hf' ↦ ?_
      rw [← he]
      exact (htarget f' hf').symm

/-! ### Writing all files -/

/-- Files with different targets that have been written without a failure can all be read if none of
them is replaced. -/
theorem read_of_writeAll (hR : ∀ t op answer t', R t op answer t' → t.Responds op answer t')
    {files : List ArtifactFile}
    (htargets : files.Pairwise fun f g ↦ f.target t.current ≠ g.target t.current)
    (hfree : Unreplaced t.current files)
    (h : (writeAll files).run.Runs R t trail (.done (.ok ())) t') :
    ∀ f ∈ files, t'.read f.path = .ok f.content := by
  obtain ⟨m, before, after, hstage, hcommit⟩ := runs_writeAll_ok h
  have hcurrent := (hstage.keeps hR (within_stageAll t.current [] files)).current
  have hwaiting : files.Pairwise fun f g ↦ f.waiting t.current ≠ g.waiting t.current :=
    htargets.imp fun hne he ↦ hne (place_staging_inj he)
  have hread := read_of_stageAll hR rfl hstage hwaiting (by simp)
  exact read_of_commitAll hR hcurrent htargets hfree hcommit hread

/-- Writing files touches only their targets and the places where they wait; directories are made
only above their targets. -/
theorem within_writeAll (current : Place) (files : List ArtifactFile) :
    (writeAll files).run.Within current
      (fun q ↦ ∃ f ∈ files, q = f.waiting current ∨ q = f.target current)
      fun q ↦ ∃ f ∈ files, ∃ r : Path, r.IsAbove f.path ∧ q = r.place current := by
  refine Action.only_bind ?_ fun _ ↦ ?_
  · refine (within_stageAll current [] files).mono ?_ fun _ ↦ id
    rintro q ⟨f, hf, hq⟩
    exact ⟨f, hf, .inl hq⟩
  · exact (within_commitAll current files).mono (fun _ ↦ id) fun _ ↦ False.elim

/-- When files with different targets have been written without a failure, all of them are there
with their content exactly if none belongs where a later one waits; one that does is gone. No other
file has changed. -/
theorem writeAll_success {files : List ArtifactFile}
    (htargets : files.Pairwise fun f g ↦ f.target t.current ≠ g.target t.current)
    (h : (writeAll files).run.Runs FileTree.Responds t trail (.done (.ok ())) t') :
    ((∀ f ∈ files, t'.read f.path = .ok f.content) ↔ Unreplaced t.current files) ∧
      (∀ f g, [f, g].Sublist files → f.target t.current = g.waiting t.current →
        t'.file? (f.target t.current) = none) ∧
      ∀ q, (∀ f ∈ files, q ≠ f.target t.current ∧ q ≠ f.waiting t.current) →
        t'.file? q = t.file? q := by
  have hR : ∀ (t : FileTree) op answer t', t.Responds op answer t' → t.Responds op answer t' :=
    fun _ _ _ _ ↦ id
  have hkeep := h.keeps hR (within_writeAll t.current files)
  have hlost : ∀ f g, [f, g].Sublist files → f.target t.current = g.waiting t.current →
      t'.file? (f.target t.current) = none := by
    intro f g hsub he
    obtain ⟨m, _, _, hstage, hcommit⟩ := runs_writeAll_ok h
    have hcurrent := (hstage.keeps hR (within_stageAll t.current [] files)).current
    exact lost_of_commitAll hR hcurrent htargets hcommit hsub he
  have hall : Unreplaced t.current files → ∀ f ∈ files, t'.read f.path = .ok f.content :=
    fun hfree ↦ read_of_writeAll hR htargets hfree h
  refine ⟨⟨fun hread ↦ ?_, hall⟩, hlost, fun q hq ↦ ?_⟩
  · -- A file that has been replaced cannot be read.
    apply List.pairwise_iff_forall_sublist.2
    intro f g hsub he
    have hf := (FileTree.read_ok_iff.1 (hread f (hsub.subset List.mem_cons_self))).2
    rw [hkeep.current] at hf
    cases hf.symm.trans (hlost f g hsub he)
  · refine hkeep.files q ?_
    rintro ⟨f, hf, he | he⟩
    · exact (hq f hf).2 he
    · exact (hq f hf).1 he

/-- A file and then one that belongs where the first waits are both there, and a third file is as it
was. -/
theorem writeAll_success_reversed :
    let t : FileTree := ⟨[], [(["a"], .file [1]), (["c"], .file [7])]⟩
    let files : List ArtifactFile := [⟨.provingKey, "a", [3]⟩, ⟨.constraintSystem, "a.tmp", [2]⟩]
    files.Pairwise (fun f g ↦ f.target t.current ≠ g.target t.current) ∧ ∃ t' trail,
      (writeAll files).run.Runs FileTree.Responds t trail (.done (.ok ())) t' ∧
      ((∀ f ∈ files, t'.read f.path = .ok f.content) ↔ Unreplaced t.current files) ∧
      (∀ f g, [f, g].Sublist files → f.target t.current = g.waiting t.current →
        t'.file? (f.target t.current) = none) ∧
      ∀ q, (∀ f ∈ files, q ≠ f.target t.current ∧ q ≠ f.waiting t.current) →
        t'.file? q = t.file? q := by
  intro t files
  have htargets : files.Pairwise fun f g ↦ f.target t.current ≠ g.target t.current := by
    decide +kernel
  obtain ⟨trail, h⟩ :=
    Script.runs_run (R := FileTree.Responds) (fun _ op ↦ .performed op) (writeAll files).run t
  have hok : ((writeAll files).run.run t).1 = .ok () := by decide +kernel
  rw [hok] at h
  exact ⟨htargets, _, trail, h, writeAll_success htargets h⟩

/-- Writing a file and then one that waits where the first belongs succeeds, but the first is gone
and the second has its content. -/
theorem writeAll_loses_first :
    let t : FileTree := ⟨[], []⟩
    let files : List ArtifactFile := [⟨.constraintSystem, "a.tmp", [2]⟩, ⟨.provingKey, "a", [3]⟩]
    let r := (writeAll files).run.run t
    files.Pairwise (fun f g ↦ f.target t.current ≠ g.target t.current) ∧ r.1 = .ok () ∧
      r.2.read "a.tmp" = .error .notFound ∧ r.2.read "a" = .ok [2] := by
  decide +kernel

/-! ### Writing one file -/

/-- Writing a file touches only its target and the place where it waits, and makes directories only
above the target. When it succeeds, the file is there and nothing waits; when it fails, the target
is as it was. -/
theorem runs_write (hR : ∀ t op answer t', R t op answer t' → t.Responds op answer t')
    {f : ArtifactFile} {r : Except Error Unit} (h : f.write.run.Runs R t trail (.done r) t') :
    t.Keeps t' (fun q ↦ q = f.waiting t.current ∨ q = f.target t.current)
        (fun q ↦ ∃ r : Path, r.IsAbove f.path ∧ q = r.place t.current) ∧
      (r = .ok () → t'.read f.path = .ok f.content ∧ t'.get? (f.waiting t.current) = none) ∧
      ∀ e, r = .error e → t'.file? (f.target t.current) = t.file? (f.target t.current) := by
  have hne : f.target t.current ≠ f.waiting t.current := (place_staging_ne f.path t.current).symm
  rcases Action.runs_bind_done h with ⟨e, hstage, rfl⟩ | ⟨_, m, before, after, hstage, hcommit⟩
  · have hkeep := hstage.keeps hR (within_stage t.current f)
    exact ⟨hkeep.mono (fun _ ↦ .inl) fun _ ↦ id, nofun, fun _ _ ↦ hkeep.files _ hne⟩
  · have hkeep := hstage.keeps hR (within_stage t.current f)
    have hcommitkeep := hcommit.keeps hR (within_commit m.current f)
    have hgone := fun hr : r = .ok () ↦ get?_of_commit hR (f := f) (hr ▸ hcommit)
    rw [hkeep.current] at hcommitkeep hgone
    have hread : m.read (staging f.path) = .ok f.content := by
      rcases runs_stage hR hstage with ⟨_, _, hs⟩ | ⟨-, hread⟩ | ⟨⟨_, hs⟩, -⟩
      · cases hs
      · exact hread
      · cases hs
    refine ⟨?_, fun hr ↦ ⟨?_, hgone hr⟩, fun e he ↦ ?_⟩
    · exact (hkeep.mono (fun _ ↦ .inl) fun _ ↦ id).trans
        (hcommitkeep.mono (fun _ ↦ id) fun _ ↦ False.elim)
    · subst hr
      rcases runs_commit hR hcommit hread with ⟨-, _, _, hs⟩ | ⟨-, hread, -⟩ | ⟨-, _, hs⟩
      · cases hs
      · exact hread
      · cases hs
    · subst he
      rcases runs_commit hR hcommit hread with ⟨-, _, _, hs⟩ | ⟨hs, -⟩ | ⟨rfl, -⟩
      · cases hs
      · cases hs
      · exact hkeep.files _ hne

end ArtifactFile

/-! ### How writing fails -/

namespace ArtifactFile

/-- The failures of writing a file by a failing operation on it: its directory cannot be made, or it
cannot be written next to its target, or it cannot be moved into place. -/
inductive FailsBy (R : Behaviour) (f : ArtifactFile) : Error → Prop
  | directories {parent : Path} {t t' : FileTree} {trail : List FileTree} {io : IoError}
      (hparent : f.path.parent? = some parent)
      (h : (Script.makeDirectories parent).Runs R t trail (.done (.error io)) t') :
      FailsBy R f (.artifactIo f.artifact "create directory for" f.path io.message)
  | write {t t' : FileTree} {io : IoError}
      (h : R t (.write (staging f.path) f.content) (.error io) t') :
      FailsBy R f (.artifactIo f.artifact "write" (staging f.path) io.message)
  | rename {t t' : FileTree} {io : IoError}
    (h : R t (.rename (staging f.path) f.path) (.error io) t') :
      FailsBy R f (.artifactIo f.artifact "move into place" f.path io.message)

/-- The failures of making directories for a file, of writing it and of moving it into place. -/
def FailsWith (f : ArtifactFile) (e : Error) : Prop :=
  ∃ io : IoError, e = .artifactIo f.artifact "create directory for" f.path io.message ∨
    e = .artifactIo f.artifact "write" (staging f.path) io.message ∨
    e = .artifactIo f.artifact "move into place" f.path io.message

variable {f : ArtifactFile} {e : Error}

/-- A failing operation gives the file and its reason. -/
theorem FailsBy.failsWith (h : f.FailsBy R e) : f.FailsWith e := by
  cases h with
  | @directories _ _ _ _ io => exact ⟨io, .inl rfl⟩
  | @write _ _ io => exact ⟨io, .inr (.inl rfl)⟩
  | @rename _ _ io => exact ⟨io, .inr (.inr rfl)⟩

/-- A file cannot be staged when an operation on it fails. -/
theorem failsBy_of_stage (h : f.stage.run.Runs R t trail (.done (.error e)) t') :
    f.FailsBy R e := by
  rw [stage_eq] at h
  rcases Action.runs_bind_done h with ⟨e', hprepare, he⟩ | ⟨_, m, _, _, -, hwrite⟩
  · cases he
    rw [prepare] at hprepare
    split at hprepare
    · cases hprepare.done_eq.1
    · cases hprepare.done_eq.1
    · next parent _ hparent =>
      rcases Artifact.runs_attempt hprepare with ⟨_, _, -, _, hs⟩ | ⟨_, -, hs⟩ | ⟨io, ho, hs⟩
      · cases hs
      · cases hs
      · cases hs
        exact .directories hparent ho
  · rcases Artifact.runs_attempt hwrite with ⟨_, _, -, _, hs⟩ | ⟨_, -, hs⟩ | ⟨io, ho, hs⟩
    · cases hs
    · cases hs
    · cases hs
      exact .write (Runs.perform_done (R := R) ho)

/-- A file cannot be moved into place when that operation fails. -/
theorem failsBy_of_commit (h : f.commit.run.Runs R t trail (.done (.error e)) t') :
    f.FailsBy R e := by
  rcases Artifact.runs_attempt h with ⟨_, _, -, _, hs⟩ | ⟨_, -, hs⟩ | ⟨io, ho, hs⟩
  · cases hs
  · cases hs
  · cases hs
    exact .rename (Runs.perform_done (R := R) ho)

/-- A file cannot be written when an operation on it fails. -/
theorem failsBy_of_write (h : f.write.run.Runs R t trail (.done (.error e)) t') :
    f.FailsBy R e := by
  rcases Action.runs_bind_done h with ⟨e', hstage, he⟩ | ⟨_, m, _, _, -, hcommit⟩
  · cases he
    exact failsBy_of_stage hstage
  · exact failsBy_of_commit hcommit

/-- Files cannot be staged when an operation on one of them fails. -/
theorem failsBy_of_stageAll {staged files : List ArtifactFile}
    (h : (stageAll staged files).run.Runs R t trail (.done (.error e)) t') :
    ∃ f ∈ files, f.FailsBy R e := by
  induction files generalizing staged t trail with
  | nil => cases h.done_eq.1
  | cons f fs ih =>
    rcases runs_stageAll_cons h with ⟨m, _, _, -, hrest⟩ | ⟨e', m, _, _, hstage, -, he⟩
    · obtain ⟨g, hg, hfails⟩ := ih hrest
      exact ⟨g, List.mem_cons_of_mem f hg, hfails⟩
    · cases he
      exact ⟨f, List.mem_cons_self, failsBy_of_stage hstage⟩

/-- Files cannot be moved into place when that operation fails for one of them. -/
theorem failsBy_of_commitAll {files : List ArtifactFile}
    (h : (commitAll files).run.Runs R t trail (.done (.error e)) t') :
    ∃ f ∈ files, f.FailsBy R e := by
  induction files generalizing t trail with
  | nil => cases h.done_eq.1
  | cons f fs ih =>
    rcases Action.runs_bind_done h with ⟨e', hcommit, he⟩ | ⟨_, m, _, _, -, hrest⟩
    · cases he
      exact ⟨f, List.mem_cons_self, failsBy_of_commit hcommit⟩
    · obtain ⟨g, hg, hfails⟩ := ih hrest
      exact ⟨g, List.mem_cons_of_mem f hg, hfails⟩

/-- Files cannot be written when an operation on one of them fails. -/
theorem failsBy_of_writeAll {files : List ArtifactFile}
    (h : (writeAll files).run.Runs R t trail (.done (.error e)) t') :
    ∃ f ∈ files, f.FailsBy R e := by
  rcases Action.runs_bind_done h with ⟨e', hstage, he⟩ | ⟨_, m, _, _, -, hcommit⟩
  · cases he
    exact failsBy_of_stageAll hstage
  · exact failsBy_of_commitAll hcommit

end ArtifactFile

/-! ### Runs without failures -/

/-- An answer that keeps files from being written: an operation fails. Failing to make a directory
does not do so by itself, except where there is no directory above that could be made first: in the
end it is looked whether the directory is there. -/
def Operation.Hinders : (op : Operation) → op.Answer → Prop
  | .makeDirectory p, answer => answer = .error .notFound ∧ p.parent? = none
  | op, answer => op.Fails answer

instance Operation.decidableFails : (op : Operation) → (answer : op.Answer) →
    Decidable (op.Fails answer)
  | .read _, .ok _ | .makeDirectory _, .ok _ | .write .., .ok _ | .rename .., .ok _
  | .remove _, .ok _ => isFalse nofun
  | .read _, .error e | .makeDirectory _, .error e | .write .., .error e | .rename .., .error e
  | .remove _, .error e => isTrue ⟨e, rfl⟩
  | .isPresent _, true | .isDirectory _, true => isFalse nofun
  | .isPresent _, false | .isDirectory _, false => isTrue rfl

instance Operation.decidableHinders : (op : Operation) → (answer : op.Answer) →
    Decidable (op.Hinders answer)
  | .makeDirectory _, .ok _ => isFalse nofun
  | .makeDirectory p, .error e => decidable_of_iff (e = .notFound ∧ p.parent? = none)
      (and_congr_left fun _ ↦ ⟨congrArg _, Except.error.inj⟩)
  | .read p, answer => decidableFails (.read p) answer
  | .isPresent p, answer => decidableFails (.isPresent p) answer
  | .isDirectory p, answer => decidableFails (.isDirectory p) answer
  | .write p content, answer => decidableFails (.write p content) answer
  | .rename p q, answer => decidableFails (.rename p q) answer
  | .remove p, answer => decidableFails (.remove p) answer

/-- The behaviour without the answers that keep files from being written. -/
def Behaviour.unhindered (R : Behaviour) : Behaviour :=
  fun t op answer t' ↦ R t op answer t' ∧ ¬ op.Hinders answer

/-- Running a script as a whole is a run of it in which no answer keeps files from being written, if
there is none. -/
theorem Script.runs_run_unhindered {α : Type} {s : Script α}
    (h : s.AllAnswer (fun op answer ↦ ¬ op.Hinders answer) t) :
    ∃ trail, s.Runs (Behaviour.unhindered FileTree.Responds) t trail (done (s.run t).1)
      (s.run t).2 :=
  runs_run_of_allAnswer h

/-- Where it is looked for a directory and there is one, it does not matter what kept it from being
made. -/
theorem Script.ok_of_unlessDirectory {p : Path} {e : IoError} {r : Except IoError Unit}
    (h : (unlessDirectory p e).Runs R.unhindered t trail (.done r) t') : r = .ok () := by
  rcases h.bind with ⟨_, _, -, hs⟩ | ⟨there, m, _, _, -, hlook, hdone⟩
  · cases hs
  · have hseen := (Runs.perform_done (R := R.unhindered) hlook).2
    cases there with
    | true => exact Script.done.inj hdone.done_eq.1
    | false => exact absurd rfl hseen

/-- Directories are made when nothing keeps them from it. -/
theorem Script.ok_of_makeDirectoriesWithin {steps : Nat} {p : Path} {r : Except IoError Unit}
    (hsteps : p.length < steps)
    (h : (makeDirectoriesWithin steps p).Runs R.unhindered t trail (.done r) t') : r = .ok () := by
  induction steps generalizing p t trail r t' with
  | zero => exact absurd hsteps (Nat.not_lt_zero _)
  | succ steps ih =>
    rw [makeDirectoriesWithin] at h
    split at h
    · exact Script.done.inj h.done_eq.1
    rcases h.bind with ⟨_, _, -, hs⟩ | ⟨answer, m, _, _, -, hmake, hrest⟩
    · cases hs
    have hmade := (Runs.perform_done (R := R.unhindered) hmake).2
    split at hrest
    · exact Script.done.inj hrest.done_eq.1
    · -- The directory above is missing and is made first.
      cases hparent : p.parent? with
      | none => exact absurd ⟨rfl, hparent⟩ hmade
      | some parent =>
        rw [hparent] at hrest
        have hshort := Path.length_lt_of_parent? hparent
        rcases hrest.bind with ⟨_, _, -, hs⟩ | ⟨above, m', _, _, -, habove, hrest⟩
        · cases hs
        obtain rfl := ih (by omega) habove
        rcases hrest.bind with ⟨_, _, -, hs⟩ | ⟨again, _, _, _, -, -, hrest⟩
        · cases hs
        cases again with
        | ok _ => exact Script.done.inj hrest.done_eq.1
        | error e => exact ok_of_unlessDirectory hrest
    · exact ok_of_unlessDirectory hrest

namespace ArtifactFile

/-- No operation on a file fails when nothing keeps it from being written. -/
theorem not_failsBy_unhindered (f : ArtifactFile) (e : Error) : ¬ f.FailsBy R.unhindered e := by
  intro h
  cases h with
  | directories _ h => cases Script.ok_of_makeDirectoriesWithin (Nat.lt_succ_self _) h
  | write h => exact h.2 ⟨_, rfl⟩
  | rename h => exact h.2 ⟨_, rfl⟩

/-- Files are written when nothing keeps them from it. -/
theorem ok_of_writeAll {files : List ArtifactFile} {r : Except Error Unit}
    (h : (writeAll files).run.Runs R.unhindered t trail (.done r) t') : r = .ok () := by
  cases r with
  | ok _ => rfl
  | error e =>
    obtain ⟨f, -, hfails⟩ := failsBy_of_writeAll h
    exact absurd hfails (not_failsBy_unhindered f e)

end ArtifactFile

end TreeProver
