import TreeProver.Proofs.Files.Reading
import TreeProver.Proofs.Files.Staging

/-!
# Scripts that only look

A script that only looks reads files and asks what is there, and fails as soon as a file cannot be
read. It leaves everything as it is. If such a script succeeds although operations may fail, then
none of them has failed, and it has seen what is there.
-/

namespace TreeProver

open Script

variable {t t' : FileTree} {trail : List FileTree} {ε α β : Type}

/-- An operation takes effect or fails, but what is there is seen. -/
def FileTree.RespondsSeeing (t : FileTree) (op : Operation) (answer : op.Answer) (t' : FileTree) :
    Prop :=
  t.Responds op answer t' ∧ ∀ p, op = .isPresent p → answer = (t.perform op).1

/-- A behaviour that sees what is there is one that may fail. -/
theorem FileTree.RespondsSeeing.responds (t : FileTree) (op : Operation) (answer : op.Answer)
    (t' : FileTree) (h : t.RespondsSeeing op answer t') : t.Responds op answer t' := h.1

/-- Operations that take effect see what is there. -/
theorem FileTree.respondsSeeing_perform (t : FileTree) (op : Operation) :
    t.RespondsSeeing op (t.perform op).1 (t.perform op).2 := ⟨.performed op, fun _ _ ↦ rfl⟩

/-- A script reads files, failing where one cannot be read, and asks what is there. -/
inductive Script.Looks : Script (Except ε α) → Prop
  | done (r : Except ε α) : Looks (.done r)
  | read {p : Path} {next : Except IoError Bytes → Script (Except ε α)}
      (hfail : ∀ e, ∃ e', next (.error e) = .done (.error e'))
      (hnext : ∀ content, Looks (next (.ok content))) : Looks (.step (.read p) next)
  | isPresent {p : Path} {next : Bool → Script (Except ε α)}
    (hnext : ∀ answer, Looks (next answer)) :
    Looks (.step (.isPresent p) next)

/-! ### Building them -/

/-- A script that only looks may be followed by another one that fails if it has failed. -/
theorem Script.Looks.bind {ε' : Type} {s : Script (Except ε α)}
    {k : Except ε α → Script (Except ε' β)}
    (hs : s.Looks) (hfail : ∀ e, ∃ e', k (.error e) = .done (.error e'))
    (hok : ∀ a, (k (.ok a)).Looks) : (s >>= k).Looks := by
  induction hs with
  | done r =>
    cases r with
    | error e =>
      obtain ⟨e', he⟩ := hfail e
      have hdone : (Script.done (Except.error e) >>= k) = k (.error e) := rfl
      rw [hdone, he]
      exact .done (.error e')
    | ok a => exact hok a
  | read hread _ ih =>
    refine .read (fun e ↦ ?_) ih
    obtain ⟨e', he⟩ := hread e
    obtain ⟨e'', he'⟩ := hfail e'
    refine ⟨e'', ?_⟩
    rw [he]
    exact he'
  | isPresent _ ih => exact .isPresent ih

/-- Reading a file only looks. -/
theorem Script.looks_read (p : Path) : (Script.read p).Looks :=
  .read (fun e ↦ ⟨e, rfl⟩) fun content ↦ .done (.ok content)

/-- Reading a text only looks. -/
theorem Script.looks_readText (p : Path) : (Script.readText p).Looks := by
  refine (looks_read p).bind (fun e ↦ ⟨e, rfl⟩) fun content ↦ ?_
  simp only
  split
  · exact .done _
  · exact .done _

namespace Action

variable {s : ExceptT ε Script α}

/-- Actions that only look may follow one another. -/
theorem looks_bind {k : α → ExceptT ε Script β} (hs : s.run.Looks) (hk : ∀ a, (k a).run.Looks) :
    (s >>= k).run.Looks := by
  rw [ExceptT.run_bind]
  exact hs.bind (fun e ↦ ⟨e, rfl⟩) hk

/-- An action that only looks may word its failures otherwise. -/
theorem looks_adapt {ε' : Type} {f : ε → ε'} (hs : s.run.Looks) : (s.adapt f).run.Looks := by
  have hadapt : (s.adapt f).run = s.run >>= fun r ↦ pure (r.mapError f) := rfl
  rw [hadapt]
  exact hs.bind (fun e ↦ ⟨f e, rfl⟩) fun a ↦ .done (.ok a)

end Action

namespace Artifact

variable {a : Artifact} {p : Path}

/-- An attempt to look only looks. -/
theorem looks_attempt {action : String} {operation : Script (Except IoError α)}
    (h : operation.Looks) :
    (a.attempt action p operation).run.Looks :=
  h.bind (fun _ ↦ ⟨_, rfl⟩) fun x ↦ .done (.ok x)

/-- Reading the text of an artifact only looks. -/
theorem looks_readText : (a.readText p).run.Looks := looks_attempt (Script.looks_readText p)

/-- Reading the value of an artifact only looks. -/
theorem looks_load {reader : Reader α} : (a.load reader p).run.Looks := by
  refine Action.looks_bind (looks_attempt (Script.looks_read p)) fun content ↦ ?_
  cases Reader.run reader content with
  | error e => exact .done _
  | ok x => exact .done _

end Artifact

/-! ### Running them -/

/-- Reading changes nothing, and gives what is there or fails. -/
theorem FileTree.Responds.read {p : Path} {answer : Except IoError Bytes}
    (h : t.Responds (.read p) answer t') :
    t' = t ∧ ((∃ content, t.read p = .ok content ∧ answer = .ok content) ∨
      ∃ e, answer = .error e) := by
  cases h with
  | performed =>
    refine ⟨rfl, ?_⟩
    cases hread : t.read p with
    | error e => exact .inr ⟨e, hread⟩
    | ok content => exact .inl ⟨content, rfl, hread⟩
  | failed _ _ h => exact ⟨rfl, .inr h⟩

/-- Asking what is there changes nothing. -/
theorem FileTree.Responds.isPresent {p : Path} {answer : Bool}
    (h : t.Responds (.isPresent p) answer t') : t' = t := by
  cases h with
  | performed => rfl
  | failed => rfl

/-- A run that is over has begun with an answer to the first operation. -/
theorem Script.Runs.step_done {R : Behaviour} {op : Operation} {next : op.Answer → Script α} {a : α}
    (h : (Script.step op next).Runs R t trail (.done a) t') :
    ∃ answer m after, R t op answer m ∧ (next answer).Runs R m after (.done a) t' := by
  cases h with
  | step hop rest => exact ⟨_, _, _, hop, rest⟩

/-- A script that only looks leaves everything as it is, and if it succeeds, it has seen what is
there. -/
theorem Script.Looks.runs {s : Script (Except ε α)} (hs : s.Looks) {r : Except ε α}
    (h : s.Runs FileTree.RespondsSeeing t trail (.done r) t') :
    t' = t ∧ ∀ a, r = .ok a → s.run t = (.ok a, t) := by
  induction hs generalizing trail with
  | done r' =>
    obtain ⟨hr, rfl, -⟩ := h.done_eq
    obtain rfl := Script.done.inj hr
    refine ⟨rfl, ?_⟩
    rintro a rfl
    rfl
  | @read p next hfail _ ih =>
    obtain ⟨answer, m, after, hop, hrest⟩ := h.step_done
    obtain ⟨hm, ⟨content, hread, rfl⟩ | ⟨e, rfl⟩⟩ := hop.1.read
    · subst hm
      have hrun : (Script.step (.read p) next).run m = (next (.ok content)).run m := by
        rw [← hread]
        rfl
      rw [hrun]
      exact ih content hrest
    · obtain ⟨e', he⟩ := hfail e
      rw [he] at hrest
      obtain ⟨hr, ht, -⟩ := hrest.done_eq
      obtain rfl := Script.done.inj hr
      exact ⟨ht.trans hm, nofun⟩
  | @isPresent p next _ ih =>
    obtain ⟨answer, m, after, hop, hrest⟩ := h.step_done
    obtain rfl := hop.1.isPresent
    obtain rfl := hop.2 p rfl
    exact ih _ hrest

/-- Running a script that only looks leaves everything as it is. -/
theorem Script.Looks.run_snd {s : Script (Except ε α)} (hs : s.Looks) : (s.run t).2 = t := by
  induction hs with
  | done r => rfl
  | @read p next hfail _ ih =>
    have hrun : (Script.step (.read p) next).run t = (next (t.read p)).run t := rfl
    rw [hrun]
    cases t.read p with
    | error e =>
      obtain ⟨e', he⟩ := hfail e
      rw [he]
      rfl
    | ok content => exact ih content
  | isPresent _ ih => exact ih _

/-- An action succeeds when it goes on after the success of one that only looks. -/
theorem Action.run_bind_looks_ok_iff {s : ExceptT ε Script α} {k : α → ExceptT ε Script β}
    (hs : s.run.Looks) {b : β} : (s >>= k).run.run t = (.ok b, t') ↔
      ∃ a, s.run.run t = (.ok a, t) ∧ (k a).run.run t = (.ok b, t') := by
  rw [Action.run_bind_ok_iff]
  constructor
  · rintro ⟨a, m, ha, hk⟩
    have hm : m = t := by
      rw [← hs.run_snd (t := t), ha]
    rw [hm] at ha hk
    exact ⟨a, ha, hk⟩
  · rintro ⟨a, ha, hk⟩
    exact ⟨a, t, ha, hk⟩

/-- A run that begins with an action that only looks has failed there, with everything as it was, or
has gone on with what that action gives. -/
theorem Action.runs_bind_looks {s : ExceptT ε Script α} {k : α → ExceptT ε Script β}
    {r : Except ε β}
    (hs : s.run.Looks) (h : (s >>= k).run.Runs FileTree.RespondsSeeing t trail (.done r) t') :
    (t' = t ∧ ∃ e, r = .error e) ∨ ∃ a after, s.run.run t = (.ok a, t) ∧
      (k a).run.Runs FileTree.RespondsSeeing t after (.done r) t' := by
  rcases Action.runs_bind_done h with ⟨e, hlook, hr⟩ | ⟨a, m, before, after, hlook, hrest⟩
  · exact .inl ⟨(hs.runs hlook).1, e, hr⟩
  · obtain ⟨rfl, hrun⟩ := hs.runs hlook
    exact .inr ⟨a, after, hrun a rfl, hrest⟩

end TreeProver
