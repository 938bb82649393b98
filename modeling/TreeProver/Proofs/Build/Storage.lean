import TreeProver.Build
import TreeProver.Proofs.Curve.Compressed
import TreeProver.Proofs.Exchange
import TreeProver.Proofs.Files.Failure
import TreeProver.Proofs.Files.Reading
import TreeProver.Proofs.Files.Success
import TreeProver.Proofs.Groth16.Abort
import TreeProver.Proofs.Groth16.Complete
import TreeProver.Proofs.Json.Exchange

/-!
# Saving and loading builds

The rows of a system name each column at most once, so the system of a satisfied layout can be
written unless it is very large.

A build with a key for at least two public inputs can be saved, and only a file operation can
prevent it. What has been saved to separate places is read back: the system and the key of the
build, its verifying key, and a contract with the identity of the circuit.
-/

namespace TreeProver

open Circuit Layout

/-! ### Systems that can be written -/

/-- An ascending row has at most as many entries as there are columns. -/
theorem Row.Ascending.length_le {r : Row} (h : r.Ascending) {size : Nat} (hw : r.Within size) :
    r.length ≤ size := by
  have hnodup : (r.map (·.2)).Nodup := List.pairwise_map.2 (h.imp Nat.ne_of_lt)
  have hsub : r.map (·.2) ⊆ List.range size := by
    intro c hc
    obtain ⟨e, he, rfl⟩ := List.mem_map.1 hc
    exact List.mem_range.2 (hw e he)
  simpa using (hnodup.subperm hsub).length_le

namespace Circuit.Layout

variable {s : Layout}

/-- The rows of the system of a layout are ascending. -/
theorem ascending_toR1cs (s : Layout) :
    ∀ rows ∈ [s.toR1cs.a, s.toR1cs.b, s.toR1cs.c], ∀ row ∈ rows, row.Ascending := by
  simp [toR1cs, R1cs.ofRows, List.forall_mem_map, Form.ascending_toRow, -List.mem_map]

/-- The columns that the system of a satisfied layout mentions are those that it counts. -/
theorem Filled.within_toR1cs (h : s.Filled) (hs : s.Satisfied) :
    ∀ rows ∈ [s.toR1cs.a, s.toR1cs.b, s.toR1cs.c], ∀ row ∈ rows,
      row.Within (s.toR1cs.instances + s.toR1cs.witnesses) := by
  -- The assignment has a value for every column that is mentioned.
  have hrange := Groth16.inRange_of_isSatisfiedBy s.toR1cs_wellFormed (h.toR1cs_isSatisfiedBy hs)
  intro rows hrows row hrow
  rw [← h.size_assignment hs]
  refine Row.exists_eval?_iff.1 (hrange row ?_)
  simp only [List.mem_cons, List.not_mem_nil, or_false] at hrows
  rcases hrows with rfl | rfl | rfl
  · simp [hrow]
  · simp [hrow]
  · simp [hrow]

/-- The system of a satisfied layout can be written when its constraints and its columns can be
counted in half of the bytes. -/
theorem Filled.isStorable_toR1cs (h : s.Filled) (hs : s.Satisfied)
    (hconstraints : s.toR1cs.constraints < 2 ^ 32)
    (hcolumns : s.toR1cs.instances + s.toR1cs.witnesses < 2 ^ 32) : s.toR1cs.IsStorable := by
  have hsize : UInt64.size = 2 ^ 32 * 2 ^ 32 := rfl
  have hwithin := h.within_toR1cs hs
  have hlength : ∀ rows ∈ [s.toR1cs.a, s.toR1cs.b, s.toR1cs.c],
      rows.length = s.toR1cs.constraints := by
    obtain ⟨ha, hb, hc, -⟩ := s.toR1cs_wellFormed
    simp [ha, hb, hc]
  have hrow : ∀ rows ∈ [s.toR1cs.a, s.toR1cs.b, s.toR1cs.c], ∀ row ∈ rows,
      row.length ≤ s.toR1cs.instances + s.toR1cs.witnesses := fun rows hrows row hr ↦
    (s.ascending_toR1cs rows hrows row hr).length_le (hwithin rows hrows row hr)
  have hentries : ∀ rows ∈ [s.toR1cs.a, s.toR1cs.b, s.toR1cs.c],
      rows.flatten.length < UInt64.size := by
    intro rows hrows
    have hsum := List.sum_le_card_nsmul (rows.map List.length) _
      (List.forall_mem_map.2 (hrow rows hrows))
    rw [List.length_map, hlength rows hrows, smul_eq_mul] at hsum
    rw [List.length_flatten, hsize]
    exact Nat.lt_of_le_of_lt hsum (Nat.mul_lt_mul'' hconstraints hcolumns)
  exact
    { instances := by omega
      witnesses := by omega
      constraints := by omega
      aEntries := hentries s.toR1cs.a (.head _)
      bEntries := hentries s.toR1cs.b (.tail _ (.head _))
      cEntries := hentries s.toR1cs.c (.tail _ (.tail _ (.head _)))
      rows := fun rows hrows ↦ by rw [hlength rows hrows]; omega
      entries := fun rows hrows row hr ↦ Nat.lt_of_le_of_lt (hrow rows hrows row hr) (by omega)
      columns := fun rows hrows row hr e he ↦
        Nat.lt_trans (hwithin rows hrows row hr e he) (by omega) }

end Circuit.Layout

/-! ### Saving and loading -/

variable {t t' : FileTree} {trail : List FileTree} {paths : ArtifactPaths}

namespace ArtifactPaths

/-- The paths that a build is saved to. -/
def saved (paths : ArtifactPaths) : List Path :=
  [paths.r1cs, paths.provingKey, paths.verifyingKey, paths.contract]

/-- Whether files at the paths of a build are separate, whatever they hold. -/
def AreSeparate (current : Place) (paths : ArtifactPaths) : Prop :=
  ∀ files : List ArtifactFile, files.map ArtifactFile.path = paths.saved →
    ArtifactFile.Separate current files

/-- Paths are separate if they are different names in one directory, none of which is the name under
which the file of another one waits. -/
theorem AreSeparate.of_names {current : Place} (directory : Path)
    (hdirectory : directory = "" ∨ directory.parent? = some "")
    (hnames : ∀ p ∈ paths.saved, p.parent? = some directory ∧ p.place current ≠ current ∧
      p.place current ≠ directory.place current)
    (htargets : paths.saved.Pairwise fun p q ↦ p.place current ≠ q.place current)
    (hwaiting : ∀ p ∈ paths.saved, ∀ q ∈ paths.saved,
      p.place current ≠ (ArtifactFile.staging q).place current) : paths.AreSeparate current := by
  intro files hfiles
  have hmem : ∀ f ∈ files, f.path ∈ paths.saved := by
    intro f hf
    rw [← hfiles]
    exact List.mem_map_of_mem hf
  apply ArtifactFile.Separate.of_names directory hdirectory
  · exact fun f hf ↦ hnames f.path (hmem f hf)
  · rw [← hfiles, List.pairwise_map] at htargets
    exact htargets
  · exact fun f hf g hg ↦ hwaiting f.path (hmem f hf) g.path (hmem g hg)

end ArtifactPaths

/-- A key for at least two public inputs has a contract, which names the circuit by its hash. -/
theorem VerifierContract.exists_ofKey {k : VerifyingKey} (h : 3 ≤ k.inputs.length) :
    ∃ c, ofKey k = .ok c ∧ c.circuitId = k.id.toHex := by
  rw [ofKey, if_neg (Nat.not_lt.2 h)]
  exact ⟨_, rfl, rfl⟩

namespace Build

variable {b : Build}

/-- The files of a build are at the paths that it is saved to. -/
theorem map_path_files {files : List ArtifactFile} (h : b.files paths = .ok files) :
    files.map ArtifactFile.path = paths.saved := by
  rw [Build.files] at h
  cases hc : b.contract with
  | error e =>
    rw [hc] at h
    cases h
  | ok c =>
    rw [hc] at h
    cases h
    rfl

/-- The files of a build with a key for at least two public inputs. -/
theorem exists_files (hinputs : 3 ≤ b.key.verifying.inputs.length) (paths : ArtifactPaths) :
    ∃ c : VerifierContract, c.circuitId = b.id.toHex ∧ b.files paths = .ok
      [⟨.constraintSystem, paths.r1cs, b.r1cs.encode⟩,
        ⟨.provingKey, paths.provingKey, b.key.encode⟩,
        ⟨.verifyingKey, paths.verifyingKey, b.key.verifying.encode⟩,
        ⟨.contract, paths.contract, c.format.toUTF8.toList⟩] := by
  obtain ⟨c, hc, hid⟩ := VerifierContract.exists_ofKey hinputs
  refine ⟨c, hid, ?_⟩
  rw [files, contract, hc]
  rfl

/-- The files of a build are at their paths. -/
def IsStored (b : Build) (paths : ArtifactPaths) (t : FileTree) : Prop :=
  ∃ files, b.files paths = .ok files ∧ ∀ f ∈ files, t.read f.path = .ok f.content

/-- When a build has been saved to separate places, its files are there. -/
theorem isStored_of_save {R : Behaviour}
    (hR : ∀ t op answer t', R t op answer t' → t.Responds op answer t')
    (h : (b.save paths).run.Runs R t trail (.done (.ok ())) t')
    (hpaths : paths.AreSeparate t.current) : b.IsStored paths t' := by
  cases hfiles : b.files paths with
  | error e =>
    rw [save, hfiles] at h
    cases h.done_eq.1
  | ok files =>
    have hsep := hpaths files (map_path_files hfiles)
    rw [save_ok hfiles] at h
    exact ⟨files, hfiles, ArtifactFile.read_of_writeAll hR hsep.targets hsep.unreplaced h⟩

/-- What is loaded from files that hold a system and a key that belong together. -/
theorem run_load (hparts : ofParts b.r1cs b.key = .ok b) (hr1cs : b.r1cs.IsStorable)
    (hkey : b.key.IsStorable) (hreadr1cs : t.read paths.r1cs = .ok b.r1cs.encode)
    (hreadkey : t.read paths.provingKey = .ok b.key.encode) :
    (load paths).run.run t = (.ok b, t) := by
  rw [load, Action.run_bind_of_ok (Artifact.run_load hreadr1cs hr1cs.reads),
    Action.run_bind_of_ok (Artifact.run_load hreadkey hkey.reads), hparts]
  rfl

/-- Saving a build to separate places fails only as an operation on one of its files does, and it
succeeds when none of its operations fails. Then the build is loaded again, which proves what the
build proves; so is its verifying key; and the contract has the identity of the circuit. -/
theorem load_save {R : Behaviour}
    (hR : ∀ t op answer t', R t op answer t' → t.Responds op answer t')
    (hparts : ofParts b.r1cs b.key = .ok b) (hr1cs : b.r1cs.IsStorable) (hkey : b.key.IsStorable)
    (hinputs : 3 ≤ b.key.verifying.inputs.length) (hpaths : paths.AreSeparate t.current)
    {r : Except Error Unit} (h : (b.save paths).run.Runs R t trail (.done r) t') :
    (∀ e, r = .error e → ∃ files, b.files paths = .ok files ∧ ∃ f ∈ files, f.FailsBy R e) ∧
    ((b.save paths).run.Runs R.unhindered t trail (.done r) t' → r = .ok ()) ∧
    (r = .ok () →
      (∃ b', (load paths).run.run t' = (.ok b', t') ∧ b'.r1cs = b.r1cs ∧ b'.key = b.key ∧
        ∀ (γ : Type) [Computation γ] [Backend] (f : Committed γ), b'.prove f = b.prove f) ∧
      (VerifyingKey.load paths.verifyingKey).run.run t' = (.ok b.key.verifying, t') ∧
      ∃ text c, (Artifact.contract.readText paths.contract).run.run t' = (.ok text, t') ∧
        VerifierContract.parse text = .ok c ∧ c.circuitId = b.id.toHex) := by
  obtain ⟨c, hid, hfiles⟩ := exists_files hinputs paths
  have hwrite := h
  rw [save_ok hfiles] at hwrite
  refine ⟨?_, fun hfree ↦ ?_, ?_⟩
  · rintro e rfl
    exact ⟨_, hfiles, ArtifactFile.failsBy_of_writeAll hwrite⟩
  · rw [save_ok hfiles] at hfree
    exact ArtifactFile.ok_of_writeAll hfree
  · rintro rfl
    obtain ⟨files, hstored, hread⟩ := isStored_of_save hR h hpaths
    obtain rfl := Except.ok.inj (hfiles.symm.trans hstored)
    simp only [List.forall_mem_cons] at hread
    obtain ⟨hreadr1cs, hreadkey, hreadverifying, hreadcontract, -⟩ := hread
    refine ⟨⟨b, run_load hparts hr1cs hkey hreadr1cs hreadkey, rfl, rfl, fun _ _ _ _ ↦ rfl⟩, ?_, ?_⟩
    · exact Artifact.run_load hreadverifying hkey.verifying.reads
    · exact ⟨c.format, c, Artifact.run_readText hreadcontract, c.parse_format, hid⟩

/-- A build with rows, and with generators and the identity for its columns. -/
def sample : Build :=
  ⟨⟨3, 1, 2, 3, 2, 2, [[(1, 1)], [(1, 0), (-1, 3)]], [[(1, 0)], [(1, 3)]], [[(1, 2)], [(-1, 1)]]⟩,
    ⟨.blind, G1.generator, G1.generator, [G1.generator, .identity], [.identity, G1.generator],
      [G2.generator, .identity], [G1.generator], [.identity]⟩⟩

/-- Places in one directory for the build, and one beside it for proofs. -/
def samplePaths : ArtifactPaths :=
  ⟨"out/r1cs", "out/pkey", "out/vkey", "out/contract", "proof"⟩

/-- The directory with a file where the verifying key belongs, and a file beside it. -/
def sampleTree : FileTree :=
  ⟨[], [(["out"], .directory), (["out", "vkey"], .file [1]), (["proof"], .file [2])]⟩

/-- The key of the build can be written. -/
theorem isStorable_sample : sample.key.IsStorable where
  verifying := ⟨⟨G1.isMember_generator, G2.isMember_generator, G2.isMember_generator,
    G2.isMember_generator, by decide⟩, by decide⟩
  beta := G1.isMember_generator
  delta := G1.isMember_generator
  lists := by simp [sample, G1.isMember_generator, G1.isMember_identity, UInt64.size]
  bColumns2 := by simp [sample, G2.isMember_generator, G2.isMember_identity, UInt64.size]

/-- The build is saved where another file is replaced. No operation keeps it from being saved, so it
is loaded again. -/
theorem load_save_sample :
    ofParts sample.r1cs sample.key = .ok sample ∧ sample.r1cs.IsStorable ∧
      sample.key.IsStorable ∧ 3 ≤ sample.key.verifying.inputs.length ∧
      samplePaths.AreSeparate sampleTree.current ∧ ∃ t' trail,
      (sample.save samplePaths).run.Runs (Behaviour.unhindered FileTree.Responds) sampleTree trail
        (.done (.ok ())) t' ∧
      (∃ b', (load samplePaths).run.run t' = (.ok b', t') ∧ b'.r1cs = sample.r1cs ∧
        b'.key = sample.key ∧
        ∀ (γ : Type) [Computation γ] [Backend] (f : Committed γ), b'.prove f = sample.prove f) ∧
      (VerifyingKey.load samplePaths.verifyingKey).run.run t'
        = (.ok sample.key.verifying, t') ∧
      ∃ text c, (Artifact.contract.readText samplePaths.contract).run.run t' = (.ok text, t') ∧
        VerifierContract.parse text = .ok c ∧ c.circuitId = sample.id.toHex := by
  have hparts : ofParts sample.r1cs sample.key = .ok sample := rfl
  have hr1cs : sample.r1cs.IsStorable := by constructor <;> decide
  have hpaths : samplePaths.AreSeparate sampleTree.current :=
    .of_names "out" (.inr (by decide +kernel)) (by decide +kernel) (by decide +kernel)
      (by decide +kernel)
  -- The directory is there already, which is no obstacle.
  have hanswers : (sample.save samplePaths).run.AllAnswer (fun op answer ↦ ¬ op.Hinders answer)
      sampleTree := by
    decide +kernel
  obtain ⟨trail, h⟩ := Script.runs_run_unhindered hanswers
  obtain ⟨-, hok, hload⟩ := load_save (R := FileTree.Responds) (fun _ _ _ _ hop ↦ hop) hparts hr1cs
    isStorable_sample (by decide) hpaths (h.mono fun _ _ _ _ hop ↦ hop.1)
  have hr := hok h
  exact ⟨hparts, hr1cs, isStorable_sample, by decide, hpaths, _, trail, hr ▸ h, hload hr⟩

end Build

end TreeProver
