import TreeProver.Build
import TreeProver.Proofs.Files.Staging

/-!
# What failed writing leaves behind

When files that are written together cannot all be staged, every target is as it was and the files
that had been staged are removed again; only of the file that could not be staged a part may stay
where it would have waited. When a file cannot be moved into place, the files before it have
replaced their targets, and it and the files behind it stay where they wait: nothing is undone and
nothing is removed.
-/

namespace TreeProver

open Script

variable {t t' : FileTree} {trail : List FileTree}

/-- An operation takes effect or fails, but a file that can be read can be removed. -/
def FileTree.RespondsRemoving (t : FileTree) (op : Operation) (answer : op.Answer)
    (t' : FileTree) : Prop :=
  t.Responds op answer t' ∧
    ∀ p content, op = .remove p → t.read p = .ok content → t' = (t.perform op).2

/-- A build whose files are encoded is saved by writing them together. -/
theorem Build.save_ok {b : Build} {paths : ArtifactPaths} {files : List ArtifactFile}
    (h : b.files paths = .ok files) : (b.save paths).run = (ArtifactFile.writeAll files).run := by
  rw [Build.save, h]
  rfl

namespace ArtifactFile

/-- After waiting files have been discarded, there is no file where they waited. -/
theorem runs_discard {current : Place} (hc : t.current = current) {files : List ArtifactFile}
    (h : (discard files).Runs FileTree.RespondsRemoving t trail (.done ()) t')
    (hw : files.Pairwise fun f g ↦ f.waiting current ≠ g.waiting current)
    (hr : ∀ f ∈ files, t.read (staging f.path) = .ok f.content) :
    ∀ f ∈ files, t'.file? (f.waiting current) = none := by
  induction files generalizing t trail with
  | nil => exact fun f hf ↦ absurd hf List.not_mem_nil
  | cons f fs ih =>
    rcases h.bind with ⟨_, _, -, hs⟩ | ⟨answer, m, before, after, -, hremove, hrest⟩
    · cases hs
    · have hop : FileTree.RespondsRemoving t (.remove (staging f.path)) answer m :=
        Runs.perform_done (R := FileTree.RespondsRemoving) hremove
      have hf := hr f List.mem_cons_self
      have hgone : m.file? (f.waiting t.current) = none := by
        rw [hop.2 _ _ rfl hf]
        exact FileTree.file?_perform_remove hf
      have hkeep : t.Keeps m (· = f.waiting t.current) fun _ ↦ False := hop.1.keeps
      rw [hc] at hkeep hgone
      have hcm : m.current = current := hkeep.current.trans hc
      rw [List.pairwise_cons] at hw
      have hm : ∀ g ∈ fs, m.read (staging g.path) = .ok g.content := by
        intro g hg
        refine hkeep.read ?_ (hr g (List.mem_cons_of_mem f hg))
        rw [hc]
        exact fun he ↦ hw.1 g hg he.symm
      have hrestkeep := hrest.keeps (fun _ _ _ _ h ↦ h.1) (within_discard m.current fs)
      rw [hcm] at hrestkeep
      rw [List.forall_mem_cons]
      refine ⟨(hrestkeep.files _ ?_).trans hgone, ih hcm hrest hw.2 hm⟩
      rintro ⟨g, hg, he⟩
      exact hw.1 g hg he

/-- When staging fails, it fails at one file. The files that had been staged are gone, of that file
nothing or a part has been written, and what is where the files behind it would wait is as
before. -/
theorem stageAll_failure {current : Place} (hc : t.current = current)
    {staged files : List ArtifactFile} {e : Error}
    (h : (stageAll staged files).run.Runs FileTree.RespondsRemoving t trail (.done (.error e)) t')
    (hw : (staged ++ files).Pairwise fun f g ↦ f.waiting current ≠ g.waiting current)
    (hr : ∀ f ∈ staged, t.read (staging f.path) = .ok f.content) :
    ∃ before f after, files = before ++ f :: after ∧
      (∀ g ∈ staged ++ before, t'.file? (g.waiting current) = none) ∧
      (t'.file? (f.waiting current) = t.file? (f.waiting current) ∨
        ∃ n, t'.file? (f.waiting current) = some (f.content.take n)) ∧
      ∀ g ∈ after, t'.file? (g.waiting current) = t.file? (g.waiting current) := by
  induction files generalizing staged t trail with
  | nil =>
    obtain ⟨hd, -, -⟩ := Runs.done_eq h
    cases hd
  | cons f fs ih =>
    have hR : ∀ (t : FileTree) op answer t', t.RespondsRemoving op answer t' →
        t.Responds op answer t' := fun _ _ _ _ h ↦ h.1
    obtain ⟨hwstaged, hwfiles, hwcross⟩ := List.pairwise_append.1 hw
    rw [List.pairwise_cons] at hwfiles
    rcases runs_stageAll_cons h with ⟨m, before, after, hf, hrest⟩ |
      ⟨e', m, before, after, hf, hdiscard, -⟩
    · have hm := read_of_stage hR hc hf (fun g hg ↦ hwcross g hg f List.mem_cons_self) hr
      have hkeep := hf.keeps hR (within_stage t.current f)
      rw [hc] at hkeep
      rw [List.append_cons] at hw
      obtain ⟨first, f', last, rfl, hgone, hpart, hlast⟩ := ih (hkeep.current.trans hc) hrest hw hm
      -- What is where later files wait has not changed while the first was staged.
      have hsame : ∀ g ∈ first ++ f' :: last,
          m.file? (g.waiting current) = t.file? (g.waiting current) :=
        fun g hg ↦ hkeep.files _ fun he ↦ hwfiles.1 g hg he.symm
      refine ⟨f :: first, f', last, rfl, ?_, ?_, fun g hg ↦ ?_⟩
      · rwa [List.append_cons]
      · rwa [hsame f' (by simp)] at hpart
      · rw [hlast g hg, hsame g (by simp [hg])]
    · have hkeep := hf.keeps hR (within_stage t.current f)
      rw [hc] at hkeep
      have hcm : m.current = current := hkeep.current.trans hc
      have hm := read_beside_stage hR hc hf (fun g hg ↦ hwcross g hg f List.mem_cons_self) hr
      have hdiscardkeep := hdiscard.keeps hR (within_discard m.current staged)
      rw [hcm] at hdiscardkeep
      have hsame : ∀ g ∈ f :: fs, t'.file? (g.waiting current) = m.file? (g.waiting current) := by
        intro g hg
        refine hdiscardkeep.files _ ?_
        rintro ⟨g', hg', he⟩
        exact hwcross g' hg' g hg he.symm
      refine ⟨[], f, fs, rfl, ?_, ?_, fun g hg ↦ ?_⟩
      · rw [List.append_nil]
        exact runs_discard hcm hdiscard hwstaged hm
      · rw [hsame f List.mem_cons_self]
        rcases runs_stage hR hf with ⟨_, _, hd⟩ | ⟨hd, -⟩ | ⟨-, hpart⟩
        · cases hd
        · cases hd
        · rwa [hc] at hpart
      · rw [hsame g (List.mem_cons_of_mem f hg)]
        exact hkeep.files _ fun he ↦ hwfiles.1 g hg he.symm

/-- When separate files, or those of a build, cannot be written together, it is because of one of
them. Either it could not be staged: then every target is as it was, the files staged before it are
gone, and of it nothing or a part has been written where it would have waited. Or it could not be
moved into place: then the files before it have replaced their targets, its target and those behind
it are as they were, and it and the files behind it still wait. -/
theorem writeAll_failure {files : List ArtifactFile} (hs : Separate t.current files)
    {s : Script (Except Error Unit)} (hwrite : s = (writeAll files).run ∨
      ∃ (b : Build) (paths : ArtifactPaths), b.files paths = .ok files ∧ s = (b.save paths).run)
    {e : Error} (h : s.Runs FileTree.RespondsRemoving t trail (.done (.error e)) t') :
    ∃ before f after, files = before ++ f :: after ∧
      (((∀ g ∈ files, Spares t t' g) ∧
        (∀ g ∈ before, t'.file? (g.waiting t.current) = none) ∧
        (t'.file? (f.waiting t.current) = t.file? (f.waiting t.current) ∨
          ∃ n, t'.file? (f.waiting t.current) = some (f.content.take n)) ∧
        ∀ g ∈ after, t'.file? (g.waiting t.current) = t.file? (g.waiting t.current)) ∨
      ((∀ g ∈ before, t'.read g.path = .ok g.content ∧
          t'.file? (g.waiting t.current) = none) ∧
        ∀ g ∈ f :: after, Spares t t' g ∧ t'.read (staging g.path) = .ok g.content)) := by
  obtain rfl : s = (writeAll files).run := by
    rcases hwrite with hwrite | ⟨b, paths, hfiles, hwrite⟩
    · exact hwrite
    · exact hwrite.trans (Build.save_ok hfiles)
  have hR : ∀ (t : FileTree) op answer t', t.RespondsRemoving op answer t' →
      t.Responds op answer t' := fun _ _ _ _ h ↦ h.1
  rcases Action.runs_bind h with ⟨_, _, -, _, hd⟩ | ⟨e', hstage, -⟩ |
    ⟨_, m, first, last, rfl, hstage, hcommit⟩
  · cases hd
  · obtain ⟨before, f, after, hfiles, hgone, hpart, hlast⟩ :=
      stageAll_failure rfl hstage hs.pairwise_waiting (by simp)
    exact ⟨before, f, after, hfiles, .inl ⟨spares_of_stageAll hR hs hstage, hgone, hpart, hlast⟩⟩
  · have hspare := spares_of_stageAll hR hs hstage
    have hcurrent := (hstage.keeps hR (within_stageAll t.current [] files)).current
    have hread := read_of_stageAll hR rfl hstage hs.pairwise_waiting (by simp)
    obtain ⟨k, ⟨hk, htake, hdrop⟩, hdone⟩ := runs_commitAll hR hcurrent hs hcommit hread
    have hlt : k < files.length := by
      refine Nat.lt_of_le_of_ne hk fun he ↦ ?_
      have hok := (hdone _ rfl).2 he
      cases hok
    have hcons := List.drop_eq_getElem_cons hlt
    refine ⟨files.take k, files[k], files.drop (k + 1), ?_, .inr ⟨htake, fun g hg ↦ ?_⟩⟩
    · rw [← hcons, List.take_append_drop]
    · rw [← hcons] at hg
      exact ⟨(hspare g (List.mem_of_mem_drop hg)).of_entry (hdrop g hg).1, (hdrop g hg).2⟩

/-- The second of two files cannot replace a directory. -/
theorem writeAll_failure_directory :
    let t : FileTree := ⟨[], [(["a"], .file [1]), (["d"], .directory)]⟩
    let files : List ArtifactFile := [⟨.constraintSystem, "a", [2]⟩, ⟨.provingKey, "d", [3]⟩]
    Separate t.current files ∧ ∃ e t' trail,
      (writeAll files).run.Runs FileTree.RespondsRemoving t trail (.done (.error e)) t' ∧
      ∃ before f after, files = before ++ f :: after ∧
        (((∀ g ∈ files, Spares t t' g) ∧
          (∀ g ∈ before, t'.file? (g.waiting t.current) = none) ∧
          (t'.file? (f.waiting t.current) = t.file? (f.waiting t.current) ∨
            ∃ n, t'.file? (f.waiting t.current) = some (f.content.take n)) ∧
          ∀ g ∈ after, t'.file? (g.waiting t.current) = t.file? (g.waiting t.current)) ∨
        ((∀ g ∈ before, t'.read g.path = .ok g.content ∧
            t'.file? (g.waiting t.current) = none) ∧
          ∀ g ∈ f :: after, Spares t t' g ∧ t'.read (staging g.path) = .ok g.content)) := by
  intro t files
  have hs : Separate t.current files :=
    .of_names "" (.inl rfl) (by decide +kernel) (by decide +kernel) (by decide +kernel)
  have hR : ∀ (t : FileTree) op, t.RespondsRemoving op (t.perform op).1 (t.perform op).2 :=
    fun t op ↦ ⟨.performed op, by rintro p content rfl -; rfl⟩
  obtain ⟨trail, h⟩ := Script.runs_run hR (writeAll files).run t
  have herror : ((writeAll files).run.run t).1
      = .error (.artifactIo .provingKey "move into place" "d" IoError.isDirectory.message) := by
    decide +kernel
  rw [herror] at h
  exact ⟨hs, _, _, trail, h, writeAll_failure hs (.inl rfl) h⟩

/-- The first of two files has replaced its target when the second cannot replace a directory, and
the second stays where it waits. -/
theorem writeAll_leaves_mixture :
    let t : FileTree := ⟨[], [(["a"], .file [1]), (["d"], .directory)]⟩
    let files : List ArtifactFile := [⟨.constraintSystem, "a", [2]⟩, ⟨.provingKey, "d", [3]⟩]
    let r := (writeAll files).run.run t
    r.1 = .error (.artifactIo .provingKey "move into place" "d" IoError.isDirectory.message) ∧
      t.read "a" = .ok [1] ∧ r.2.read "a" = .ok [2] ∧
      t.read "d.tmp" = .error .notFound ∧ r.2.read "d.tmp" = .ok [3] := by
  decide +kernel

end ArtifactFile

end TreeProver
