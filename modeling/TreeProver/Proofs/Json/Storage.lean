import TreeProver.Build
import TreeProver.Proofs.Files.Reading
import TreeProver.Proofs.Files.Success
import TreeProver.Proofs.Json.Exchange
import TreeProver.Proofs.Json.Number

/-!
# Saving and loading JSON artifacts

The JSON text of a witness, a proof or a contract is read back as the value that it was written
from, whatever that is. A witness or a proof that has been saved is therefore loaded again, and only
a file operation can prevent it from being saved.
-/

namespace TreeProver

open Json

variable {t t' : FileTree} {trail : List FileTree} {path : Path}

/-- A witness is read back from its JSON text. -/
theorem Inclusion.parse_format (w : Inclusion) : Inclusion.parse w.format = .ok w := by
  have hread : Reads Inclusion.json w.toJson w := by
    have hfills : Fills slots
        [("root", w.root.toJson), ("leaf", w.leaf.toJson), ("gindex", .number w.gindex.toNat),
          ("proof", .list (w.path.map Word.toJson))]
        ⟨none, none, none, none⟩ ⟨some w.root, some w.leaf, some w.gindex, some w.path⟩ := by
      refine .kept rfl rfl w.root.reads ?_
      refine .kept rfl rfl w.leaf.reads ?_
      refine .kept rfl rfl (reads_uint64 w.gindex) ?_
      exact .kept rfl rfl (Word.reads_list w.path) (.nil _)
    exact reads_record hfills rfl
  rw [Inclusion.parse, format, hread.parse]

/-- What a text is parsed into is loaded from the file that holds the text. -/
theorem Artifact.run_parseText {α : Type} {a : Artifact} {parse : String → Except Error α}
    {text : String} {x : α} (h : t.read path = .ok text.toUTF8.toList)
    (hparse : parse text = .ok x) :
    (a.readText path >>= fun text ↦ liftM (parse text)).run.run t = (.ok x, t) := by
  rw [Action.run_bind_of_ok (Artifact.run_readText h), hparse]
  rfl

/-- A witness that has been written is loaded again. -/
theorem Inclusion.run_load {w : Inclusion} (h : t.read path = .ok w.format.toUTF8.toList) :
    (Inclusion.load path).run.run t = (.ok w, t) := Artifact.run_parseText h w.parse_format

/-- A proof that has been written is loaded again. -/
theorem Proof.run_load {p : Proof} (h : t.read path = .ok p.format.toUTF8.toList) :
    (Proof.load path).run.run t = (.ok p, t) := Artifact.run_parseText h p.parse_format

namespace ArtifactFile

/-- Writing a file fails only as one of its operations does, and when it succeeds, what is loaded
from the content of the file is loaded from the file. -/
theorem load_write {α : Type} {f : ArtifactFile} {load : Action α} {x : α}
    (hload : ∀ t : FileTree, t.read f.path = .ok f.content → load.run.run t = (.ok x, t))
    {r : Except Error Unit} (h : f.write.run.Runs FileTree.Responds t trail (.done r) t') :
    (∀ e, r = .error e → f.FailsWith e) ∧ (r = .ok () → load.run.run t' = (.ok x, t')) := by
  obtain ⟨-, hok, -⟩ := runs_write (fun _ _ _ _ h ↦ h) h
  refine ⟨?_, fun hr ↦ hload t' (hok hr).1⟩
  rintro e rfl
  exact (failsBy_of_write h).failsWith

end ArtifactFile

/-- JSON artifacts survive being written and read. Every witness, every proof and every contract is
what its JSON text is parsed into. Saving a witness or a proof, in whatever way its file operations
end, fails only as one of them does; and when it succeeds, loading it gives what has been saved. -/
theorem json_artifacts_are_read_back :
    (∀ w : Inclusion, Inclusion.parse w.format = .ok w) ∧
    (∀ p : Proof, Proof.parse p.format = .ok p) ∧
    (∀ c : VerifierContract, VerifierContract.parse c.format = .ok c) ∧
    ∀ (path : Path) (t t' : FileTree) (trail : List FileTree) (r : Except Error Unit),
      (∀ w : Inclusion, (w.save path).run.Runs FileTree.Responds t trail (.done r) t' →
        (∀ e, r = .error e →
          ArtifactFile.FailsWith ⟨.witness, path, w.format.toUTF8.toList⟩ e) ∧
        (r = .ok () → (Inclusion.load path).run.run t' = (.ok w, t'))) ∧
      ∀ p : Proof, (p.save path).run.Runs FileTree.Responds t trail (.done r) t' →
        (∀ e, r = .error e → ArtifactFile.FailsWith ⟨.proof, path, p.format.toUTF8.toList⟩ e) ∧
        (r = .ok () → (Proof.load path).run.run t' = (.ok p, t')) := by
  refine ⟨Inclusion.parse_format, Proof.parse_format, VerifierContract.parse_format, ?_⟩
  intro path t t' trail r
  constructor
  · intro w h
    exact ArtifactFile.load_write (fun _ hread ↦ Inclusion.run_load hread) h
  · intro p h
    exact ArtifactFile.load_write (fun _ hread ↦ Proof.run_load hread) h

/-- A witness with the largest index, and a proof with a coordinate of more than 32 bytes, are saved
over a file and in a new directory, and loaded again. -/
theorem json_artifacts_are_read_back_large :
    let w : Inclusion := ⟨Word.ofNat 1, Word.ofNat 2, 0xffffffffffffffff, [Word.ofNat 3]⟩
    let p : Proof := ⟨(⟨2 ^ (300 : Nat)⟩, ⟨0⟩), ((⟨1⟩, ⟨2⟩), (⟨3⟩, ⟨4⟩)), (⟨5⟩, ⟨6⟩),
      Word.ofNat 7, Word.ofNat 8⟩
    let t : FileTree := ⟨[], [(["witness.json"], .file [1])]⟩
    (∃ t' trail, (w.save "witness.json").run.Runs FileTree.Responds t trail (.done (.ok ())) t' ∧
      (Inclusion.load "witness.json").run.run t' = (.ok w, t')) ∧
    ∃ t' trail, (p.save "build/proof.json").run.Runs FileTree.Responds t trail (.done (.ok ())) t' ∧
      (Proof.load "build/proof.json").run.run t' = (.ok p, t') := by
  intro w p t
  constructor
  · obtain ⟨trail, h⟩ := Script.runs_run (R := FileTree.Responds) (fun _ op ↦ .performed op)
      (w.save "witness.json").run t
    have hok : ((w.save "witness.json").run.run t).1 = .ok () := by decide +kernel
    rw [hok] at h
    exact ⟨_, trail, h, ((json_artifacts_are_read_back.2.2.2 _ _ _ _ _).1 w h).2 rfl⟩
  · obtain ⟨trail, h⟩ := Script.runs_run (R := FileTree.Responds) (fun _ op ↦ .performed op)
      (p.save "build/proof.json").run t
    have hok : ((p.save "build/proof.json").run.run t).1 = .ok () := by decide +kernel
    rw [hok] at h
    exact ⟨_, trail, h, ((json_artifacts_are_read_back.2.2.2 _ _ _ _ _).2 p h).2 rfl⟩

end TreeProver
