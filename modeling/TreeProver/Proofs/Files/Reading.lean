import TreeProver.Files.Artifacts
import TreeProver.Proofs.Binary.Readers
import TreeProver.Proofs.Files.Runs

/-!
# Reading files that can be read

Reading an artifact changes nothing. It gives what was written into a file that can be read: the
bytes, the value that they are the written form of, or the text that they are the UTF-8 form of.
-/

namespace TreeProver

/-! ### Texts as bytes -/

/-- The bytes of an array from a position on are put behind those before it. -/
theorem toList_loop_eq (bs : ByteArray) (i : Nat) (r : List UInt8) :
    ByteArray.toList.loop bs i r = r.reverse ++ bs.data.toList.drop i := by
  fun_induction ByteArray.toList.loop bs i r with
  | case1 i r h ih =>
    have hi : i < bs.data.toList.length := by simpa using h
    have hget : bs.get! i = bs.data.toList[i] := by simp [ByteArray.get!, getElem!_pos bs.data i h]
    rw [ih, List.reverse_cons, List.append_assoc, List.singleton_append, hget,
      List.drop_eq_getElem_cons hi]
  | case2 i r h =>
    have hle : bs.data.toList.length ≤ i := by simpa using Nat.le_of_not_lt h
    rw [List.drop_eq_nil_of_le hle, List.append_nil]

/-- An array of bytes is the one that its bytes make. -/
theorem toByteArray_toList (bs : ByteArray) : bs.toList.toByteArray = bs := by
  rw [ByteArray.toList, toList_loop_eq]
  apply ByteArray.ext
  simp

/-- A text is read back from its UTF-8 form. -/
theorem fromUTF8?_toUTF8 (s : String) : String.fromUTF8? s.toUTF8.toList.toByteArray = some s := by
  rw [toByteArray_toList, String.fromUTF8?]
  exact dif_pos s.isValidUTF8

/-! ### Actions -/

variable {t t' : FileTree}

/-- What a script leaves behind is where the script that goes on with its result starts. -/
theorem Script.run_bind {α β : Type} (s : Script α) (k : α → Script β) (t : FileTree) :
    (s >>= k).run t = (k (s.run t).1).run (s.run t).2 := by
  induction s generalizing t with
  | done a => rfl
  | step op next ih => exact ih _ _

section

variable {ε ε' α β : Type}

/-- A script succeeds when it goes on after the success of another one, if it fails with that
one. -/
theorem Script.run_bind_ok_iff {s : Script (Except ε α)} {k : Except ε α → Script (Except ε' β)}
    (hfail : ∀ e, ∃ e', k (.error e) = .done (.error e')) {b : β} :
    (s >>= k).run t = (.ok b, t') ↔
      ∃ a m, s.run t = (.ok a, m) ∧ (k (.ok a)).run m = (.ok b, t') := by
  rw [run_bind]
  obtain ⟨r, m⟩ := s.run t
  cases r with
  | error e =>
    obtain ⟨e', he⟩ := hfail e
    rw [he]
    constructor
    · intro h
      cases h
    · rintro ⟨_, _, h, -⟩
      cases h
  | ok a =>
    constructor
    · exact fun h ↦ ⟨a, m, rfl, h⟩
    · rintro ⟨_, _, ⟨⟩, h⟩
      exact h

/-- An action succeeds when it goes on after the success of another one. -/
theorem Action.run_bind_ok_iff {s : ExceptT ε Script α} {k : α → ExceptT ε Script β} {b : β} :
    (s >>= k).run.run t = (.ok b, t') ↔
      ∃ a m, s.run.run t = (.ok a, m) ∧ (k a).run.run m = (.ok b, t') := by
  rw [ExceptT.run_bind]
  apply Script.run_bind_ok_iff
  exact fun e ↦ ⟨e, rfl⟩

/-- An action that succeeds is followed by the action that goes on with its result. -/
theorem Action.run_bind_of_ok {s : ExceptT ε Script α} {k : α → ExceptT ε Script β} {a : α}
    (h : s.run.run t = (.ok a, t')) : (s >>= k).run.run t = (k a).run.run t' := by
  rw [ExceptT.run_bind, Script.run_bind, h]

/-- What goes on with the success of a script by naming it succeeds in the same way. -/
theorem Script.run_bind_done_ok_iff {s : Script (Except ε α)}
    {k : Except ε α → Script (Except ε' α)} (hfail : ∀ e, ∃ e', k (.error e) = .done (.error e'))
    (hok : ∀ a, k (.ok a) = .done (.ok a)) {a : α} :
    (s >>= k).run t = (.ok a, t') ↔ s.run t = (.ok a, t') := by
  rw [run_bind_ok_iff hfail]
  constructor
  · rintro ⟨x, m, hs, hk⟩
    rw [hok] at hk
    cases hk
    exact hs
  · intro hs
    refine ⟨a, t', hs, ?_⟩
    rw [hok]
    rfl

/-- An action that words its failures otherwise does the same. -/
theorem Action.run_adapt (s : ExceptT ε Script α) (f : ε → ε') (t : FileTree) :
    (s.adapt f).run.run t = ((s.run.run t).1.mapError f, (s.run.run t).2) := by
  have hadapt : (s.adapt f).run = s.run >>= fun r ↦ pure (r.mapError f) := rfl
  rw [hadapt, Script.run_bind]
  rfl

/-- Another wording of failures does not matter for success. -/
theorem Action.run_adapt_ok_iff {s : ExceptT ε Script α} {f : ε → ε'} {a : α} :
    (s.adapt f).run.run t = (.ok a, t') ↔ s.run.run t = (.ok a, t') := by
  have hadapt : (s.adapt f).run = s.run >>= fun r ↦ pure (r.mapError f) := rfl
  rw [hadapt]
  apply Script.run_bind_done_ok_iff
  · exact fun e ↦ ⟨f e, rfl⟩
  · exact fun _ ↦ rfl

end

/-- The text of a file. -/
def FileTree.readText (t : FileTree) (p : Path) : Except IoError String :=
  match t.read p with
  | .error e => .error e
  | .ok content =>
    match String.fromUTF8? content.toByteArray with
    | some text => .ok text
    | none => .error .notText

/-- Reading a text gives the text of the file. -/
theorem Script.run_readText (p : Path) (t : FileTree) :
    (Script.readText p).run t = (t.readText p, t) := by
  have hread : (Script.read p).run t = (t.read p, t) := rfl
  rw [readText, Script.run_bind, hread, FileTree.readText]
  cases t.read p with
  | error e => rfl
  | ok content =>
    simp only
    cases String.fromUTF8? content.toByteArray with
    | some text => rfl
    | none => rfl

/-- The text of a file is there when its bytes are the UTF-8 form of the text. -/
theorem Script.run_readText_ok_iff {p : Path} {s : String} :
    (Script.readText p).run t = (.ok s, t') ↔
    t' = t ∧ ∃ bs, t.read p = .ok bs ∧ String.fromUTF8? bs.toByteArray = some s := by
  rw [readText, run_bind_ok_iff fun e : IoError ↦ (⟨e, by rfl⟩ : ∃ e', _)]
  constructor
  · rintro ⟨bs, m, hread, htext⟩
    obtain ⟨hbs, rfl⟩ := Prod.mk.inj hread
    simp only at htext
    split at htext
    · next hs =>
      cases htext
      exact ⟨rfl, bs, hbs, hs⟩
    · cases htext
  · rintro ⟨rfl, bs, hbs, hs⟩
    refine ⟨bs, t', Prod.ext hbs rfl, ?_⟩
    simp only [hs]
    rfl

namespace Artifact

variable {a : Artifact} {p : Path} {bs : Bytes}

/-- An operation that is attempted succeeds as it would by itself. -/
theorem run_attempt_ok_iff {α : Type} {action : String} {operation : Script (Except IoError α)}
    {x : α} :
    (a.attempt action p operation).run.run t = (.ok x, t') ↔ operation.run t = (.ok x, t') := by
  apply Script.run_bind_done_ok_iff
  · exact fun _ ↦ ⟨_, rfl⟩
  · exact fun _ ↦ rfl

/-- The bytes of an artifact are those of a file that can be read. -/
theorem run_read_ok_iff : (a.read p).run.run t = (.ok bs, t') ↔ t' = t ∧ t.read p = .ok bs := by
  have hread : (Script.read p).run t = (t.read p, t) := rfl
  rw [read, run_attempt_ok_iff, hread, Prod.mk.injEq, and_comm, eq_comm]

/-- The text of an artifact is that of a file whose bytes are its UTF-8 form. -/
theorem run_readText_ok_iff {s : String} : (a.readText p).run.run t = (.ok s, t') ↔
    t' = t ∧ ∃ bs, t.read p = .ok bs ∧ String.fromUTF8? bs.toByteArray = some s := by
  rw [readText, run_attempt_ok_iff, Script.run_readText_ok_iff]

/-- The value of an artifact is the one that a file that can be read holds. -/
theorem run_load_ok_iff {α : Type} {reader : Reader α} {x : α} :
    (a.load reader p).run.run t = (.ok x, t') ↔
      t' = t ∧ ∃ bs, t.read p = .ok bs ∧ Reader.run reader bs = .ok x := by
  rw [load, Action.run_bind_ok_iff]
  constructor
  · rintro ⟨bs, m, hread, hx⟩
    obtain ⟨rfl, hbs⟩ := run_read_ok_iff.1 hread
    cases hr : Reader.run reader bs with
    | error e =>
      rw [hr] at hx
      cases hx
    | ok y =>
      rw [hr] at hx
      cases hx
      exact ⟨rfl, bs, hbs, hr⟩
  · rintro ⟨rfl, bs, hbs, hx⟩
    refine ⟨bs, t', run_read_ok_iff.2 ⟨rfl, hbs⟩, ?_⟩
    rw [hx]
    rfl

/-- The text whose UTF-8 form a file holds. -/
theorem run_readText {s : String} (h : t.read p = .ok s.toUTF8.toList) :
    (a.readText p).run.run t = (.ok s, t) :=
  run_readText_ok_iff.2 ⟨rfl, _, h, fromUTF8?_toUTF8 s⟩

/-- The value whose written form a file holds. -/
theorem run_load {α : Type} {reader : Reader α} {x : α} (h : t.read p = .ok bs)
    (hx : Reader.Reads reader bs x) : (a.load reader p).run.run t = (.ok x, t) :=
  run_load_ok_iff.2 ⟨rfl, bs, h, hx.run_self⟩

/-- A file whose bytes cannot be decoded is refused, with the artifact and the reason. -/
theorem run_load_error {α : Type} {reader : Reader α} {e : DecodeError} (h : t.read p = .ok bs)
    (he : Reader.run reader bs = .error e) :
    (a.load reader p).run.run t = (.error (.artifactDecode a e), t) := by
  rw [load, Action.run_bind_of_ok (run_read_ok_iff.2 ⟨rfl, h⟩), he]
  rfl

end Artifact

end TreeProver
